import TreeTally.Memory.Basic
import TreeTally.Proofs.Path.Map
import TreeTally.Proofs.Path.Parts

namespace TreeTally

namespace Path

/-- No way up and no leading dot. -/
def Plain (p : Path) : Prop := Part.up ∉ p.parts ∧ Part.here ∉ p.parts

instance (p : Path) : Decidable p.Plain := inferInstanceAs (Decidable (_ ∧ _))

theorem Plain.of_same {p q : Path} (hp : p.Plain) (h : q.Same p) : q.Plain := by
  rw [Plain, show q.parts = p.parts from h]
  exact hp

theorem Plain.above {p a : Path} {w : List Part} (hp : p.Plain) (h : p.parts = a.parts ++ w) :
    a.Plain := by
  rw [Plain, h] at hp
  exact ⟨fun hu => hp.1 (List.mem_append_left _ hu), fun hh => hp.2 (List.mem_append_left _ hh)⟩

end Path

namespace Memory

open TreeTally.Path

theorem takeWhile_above {p : Path} {xs ys : List (Part × List Char)} (h : p.marks = xs ++ ys) :
    (above xs.reverse).takeWhile (fun q => !q.chars.isEmpty) =
      (above xs.reverse).filter fun q => q.parts ≠ [] := by
  induction xs using List.reverseRecOn generalizing ys with
  | nil => rfl
  | append_singleton xs m ih =>
      have hxs : p.marks = xs ++ m :: ys := by simpa using h
      rw [List.reverse_append]
      cases xs using List.reverseRecOn with
      | nil =>
          obtain ⟨q, t⟩ := m
          cases q <;> rfl
      | append_singleton zs m' =>
          have hz : p.marks = zs ++ m' :: (m :: ys) := by simpa using hxs
          have hne : (⟨m'.2⟩ : Path).parts ≠ [] := by simp [parts_of_marks hz]
          have htext : m'.2 ≠ [] := fun he => hne (he ▸ rfl)
          have hrest := ih hxs
          simp only [List.reverse_append, List.reverse_singleton, List.singleton_append] at hrest ⊢
          rw [above]
          · rw [List.takeWhile_cons_of_pos (by simpa using htext),
              List.filter_cons_of_pos (by simpa using hne), hrest]

theorem enclosing_eq_filter (p : Path) :
    enclosing p = (above p.marks.reverse).filter fun q => q.parts ≠ [] :=
  takeWhile_above (List.append_nil p.marks).symm

theorem exists_mem_enclosing {p : Path} {v : List Part} :
    (∃ a ∈ enclosing p, a.parts = v) ↔
      v ≠ [] ∧ ∃ w, w ≠ [] ∧ Part.root ∉ w ∧ p.parts = v ++ w := by
  have habove : (∃ a ∈ above p.marks.reverse, a.parts = v) ↔ v ∈ Part.chain p.parts.reverse := by
    rw [parts, ← map_parts_above (List.append_nil p.marks).symm]
    simp
  rw [← Part.mem_chain (root_not_mem_tail p), ← habove, enclosing_eq_filter]
  constructor
  · rintro ⟨a, ha, rfl⟩
    obtain ⟨hmem, hne⟩ := List.mem_filter.1 ha
    exact ⟨by simpa using hne, a, hmem, rfl⟩
  · rintro ⟨hne, a, hmem, rfl⟩
    exact ⟨a, List.mem_filter.2 ⟨hmem, by simpa using hne⟩, rfl⟩

inductive Build
  | folder (p : Path)
  | file (p : Path) (size : Nat)
  | link (p target : Path)
  | mount (p : Path) (device : DeviceId)
  | unreadable (p : Path)
  | broken (p : Path)

def Build.path : Build → Path
  | folder p | file p _ | link p _ | mount p _ | unreadable p | broken p => p

def build (m : Memory) : Build → Memory
  | .folder p => m.addFolder p
  | .file p n => m.addFile p n
  | .link p target => m.addLink p target
  | .mount p d => m.addMount p d
  | .unreadable p => m.markUnreadable p
  | .broken p => m.markBroken p

def built (device : DeviceId) (calls : List Build) : Memory := calls.foldl build (new device)

/-- With every entry, the folder that holds it is there, save for the empty path. -/
def Closed (m : Memory) : Prop :=
  ∀ q, m.nodes.contains q → ∀ v x, q.parts = v ++ [x] → v ≠ [] →
    ∃ k, m.nodes.contains k ∧ k.parts = v

def Plain (m : Memory) : Prop := ∀ q, m.nodes.contains q → q.Plain

variable {m : Memory} {p q : Path}

theorem contains_put {n : Node} : (m.put p n).nodes.contains q = true ↔
    q.Same p ∨ (∃ a ∈ enclosing p, q.Same a) ∨ m.nodes.contains q = true := by
  rw [put, Map.contains_insert, Bool.or_eq_true, decide_eq_true_iff, Map.contains_foldl_insertNew]

theorem Closed.put (h : m.Closed) (n : Node) : (m.put p n).Closed := by
  intro q hq v x hv hne
  have henc (w : List Part) (hw : w ≠ []) (hr : Part.root ∉ w) (he : p.parts = v ++ w) :
      ∃ k, (m.put p n).nodes.contains k ∧ k.parts = v := by
    obtain ⟨a, ha, hav⟩ := exists_mem_enclosing.2 ⟨hne, w, hw, hr, he⟩
    exact ⟨a, contains_put.2 (.inr (.inl ⟨a, ha, rfl⟩)), hav⟩
  -- The root stands only in front.
  have hroot : x ≠ .root := fun hx => root_not_mem_tail q (by
    rw [hv, List.tail_append_of_ne_nil hne, hx]
    simp)
  rcases contains_put.1 hq with hs | ⟨a, ha, hs⟩ | hm
  · exact henc [x] (by simp) (by simpa using Ne.symm hroot) (hs ▸ hv)
  · obtain ⟨-, w, -, hr, he⟩ := exists_mem_enclosing.1 ⟨a, ha, rfl⟩
    have ha' : a.parts = v ++ [x] := hs ▸ hv
    apply henc (x :: w) (by simp) (by simp [hr, Ne.symm hroot])
    rw [he, ha', List.append_assoc, List.singleton_append]
  · obtain ⟨k, hk, hkv⟩ := h q hm v x hv hne
    exact ⟨k, contains_put.2 (.inr (.inr hk)), hkv⟩

theorem Plain.put (h : m.Plain) (hp : p.Plain) (n : Node) : (m.put p n).Plain := by
  intro q hq
  rcases contains_put.1 hq with hs | ⟨a, ha, hs⟩ | hm
  · exact hp.of_same hs
  · obtain ⟨-, w, -, -, he⟩ := exists_mem_enclosing.1 ⟨a, ha, rfl⟩
    exact (hp.above he).of_same hs
  · exact h q hm

theorem Closed.congr {m' : Memory} (h : m.Closed)
    (hc : ∀ q, m'.nodes.contains q = m.nodes.contains q) : m'.Closed := by
  intro q hq v x hv hne
  obtain ⟨k, hk, hkv⟩ := h q ((hc q).symm.trans hq) v x hv hne
  exact ⟨k, (hc k).trans hk, hkv⟩

theorem Plain.congr {m' : Memory} (h : m.Plain)
    (hc : ∀ q, m'.nodes.contains q = m.nodes.contains q) : m'.Plain :=
  fun q hq => h q ((hc q).symm.trans hq)

theorem build_cases (m : Memory) (c : Build) : ∃ m₀ : Memory,
    (m₀ = m ∧ m.nodes.contains c.path = true ∨ ∃ n, m₀ = m.put c.path n) ∧
    ∀ q, (m.build c).nodes.contains q = m₀.nodes.contains q := by
  cases c with
  | folder p => exact ⟨_, .inr ⟨_, rfl⟩, fun _ => rfl⟩
  | file p n => exact ⟨_, .inr ⟨_, rfl⟩, fun _ => rfl⟩
  | link p t => exact ⟨_, .inr ⟨_, rfl⟩, fun _ => rfl⟩
  | mount p d => exact ⟨_, .inr ⟨_, rfl⟩, fun _ => rfl⟩
  | unreadable p =>
      by_cases hp : m.nodes.contains p
      · exact ⟨m, .inl ⟨rfl, hp⟩, fun q => by
          simp [build, markUnreadable, hp, Map.contains_modify]⟩
      · exact ⟨m.addFolder p, .inr ⟨_, rfl⟩, fun q => by
          simp [build, markUnreadable, hp, Map.contains_modify]⟩
  | broken p =>
      by_cases hp : m.nodes.contains p
      · exact ⟨m, .inl ⟨rfl, hp⟩, fun q => by
          simp [build, markBroken, hp, Map.contains_modify]⟩
      · exact ⟨m.addFile p 0, .inr ⟨_, rfl⟩, fun q => by
          simp [build, markBroken, hp, Map.contains_modify]⟩

theorem contains_build (h : m.nodes.contains q = true) (c : Build) :
    (m.build c).nodes.contains q = true := by
  obtain ⟨m₀, ⟨rfl, -⟩ | ⟨n, rfl⟩, hc⟩ := build_cases m c
  · exact (hc q).trans h
  · exact (hc q).trans (contains_put.2 (.inr (.inr h)))

theorem Closed.build (h : m.Closed) (c : Build) : (m.build c).Closed := by
  obtain ⟨m₀, ⟨rfl, -⟩ | ⟨n, rfl⟩, hc⟩ := build_cases m c
  · exact h.congr hc
  · exact (h.put n).congr hc

theorem Plain.build (h : m.Plain) {c : Build} (hp : c.path.Plain) : (m.build c).Plain := by
  obtain ⟨m₀, ⟨rfl, -⟩ | ⟨n, rfl⟩, hc⟩ := build_cases m c
  · exact h.congr hc
  · exact (h.put hp n).congr hc

theorem not_contains_new (d : DeviceId) (q : Path) : (new d).nodes.contains q = false := rfl

theorem closed_built (d : DeviceId) (calls : List Build) : (built d calls).Closed := by
  have hgo (m : Memory) (h : m.Closed) : (calls.foldl Memory.build m).Closed := by
    induction calls generalizing m with
    | nil => exact h
    | cons c calls ih => exact ih _ (h.build c)
  exact hgo (new d) fun q hq => by simp [not_contains_new] at hq

theorem plain_built (d : DeviceId) {calls : List Build} (hp : ∀ c ∈ calls, c.path.Plain) :
    (built d calls).Plain := by
  have hgo (m : Memory) (h : m.Plain) : (calls.foldl Memory.build m).Plain := by
    induction calls generalizing m with
    | nil => exact h
    | cons c calls ih =>
        exact ih (fun c' hc' => hp c' (List.mem_cons_of_mem _ hc')) _
          (h.build (hp c List.mem_cons_self))
  exact hgo (new d) fun q hq => by simp [not_contains_new] at hq

end Memory

end TreeTally
