import Mathlib.Algebra.BigOperators.Group.List.Basic
import Mathlib.Algebra.GroupWithZero.Nat
import Mathlib.Data.List.Perm.Basic
import TreeTally.Proofs.Memory.Builders

namespace TreeTally

namespace Path

def AtOrAbove (a p : Path) : Prop := ∃ b ∈ p.ancestors, b.Same a

instance (a p : Path) : Decidable (a.AtOrAbove p) :=
  inferInstanceAs (Decidable (∃ b ∈ p.ancestors, b.Same a))

variable {a b p : Path}

theorem atOrAbove_iff : a.AtOrAbove p ↔ ∃ w, Part.root ∉ w ∧ p.parts = a.parts ++ w :=
  exists_mem_ancestors

theorem AtOrAbove.congr (h : a.Same b) : a.AtOrAbove p ↔ b.AtOrAbove p := by
  rw [atOrAbove_iff, atOrAbove_iff, show a.parts = b.parts from h]

theorem AtOrAbove.refl (p : Path) : p.AtOrAbove p := atOrAbove_iff.2 ⟨[], by simp⟩

theorem AtOrAbove.of_same (h : a.Same b) : a.AtOrAbove b := (AtOrAbove.congr h).2 (.refl b)

theorem AtOrAbove.trans (h : a.AtOrAbove b) (h' : b.AtOrAbove p) : a.AtOrAbove p := by
  obtain ⟨w, hw, he⟩ := atOrAbove_iff.1 h
  obtain ⟨w', hw', he'⟩ := atOrAbove_iff.1 h'
  exact atOrAbove_iff.2 ⟨w ++ w', by simp [hw, hw'], by rw [he', he, List.append_assoc]⟩

theorem AtOrAbove.antisymm (h : a.AtOrAbove b) (h' : b.AtOrAbove a) : a.Same b := by
  obtain ⟨w, -, he⟩ := atOrAbove_iff.1 h
  obtain ⟨w', -, he'⟩ := atOrAbove_iff.1 h'
  have hlen := congrArg List.length he
  have hlen' := congrArg List.length he'
  simp only [List.length_append] at hlen hlen'
  have hw : w = [] := List.length_eq_zero_iff.1 (by omega)
  rw [hw, List.append_nil] at he
  exact he.symm

theorem AtOrAbove.total (h : a.AtOrAbove p) (h' : b.AtOrAbove p) :
    a.AtOrAbove b ∨ b.AtOrAbove a := by
  obtain ⟨w, hw, he⟩ := atOrAbove_iff.1 h
  obtain ⟨w', hw', he'⟩ := atOrAbove_iff.1 h'
  rcases List.append_eq_append_iff.1 (he.symm.trans he') with ⟨z, hz, hw₁⟩ | ⟨z, hz, hw₁⟩
  · exact .inl (atOrAbove_iff.2 ⟨z, fun hr => hw (by simp [hw₁, hr]), hz⟩)
  · exact .inr (atOrAbove_iff.2 ⟨z, fun hr => hw' (by simp [hw₁, hr]), hz⟩)

end Path

namespace Memory

open TreeTally.Path

def isReadable (m : Memory) (p : Path) : Bool :=
  (m.nodes.find? p).any fun n => decide (n.content.kind = .folder) && n.readable

def isBarred (m : Memory) (p : Path) : Bool :=
  (m.nodes.find? p).any fun n => decide (n.content.kind = .folder) && !n.readable

def isBroken (m : Memory) (p : Path) : Bool := (m.nodes.find? p).any fun n => !n.queryable

/-- The path can be seen from a root: all folders on the way to it are readable, nothing below the
root and on the way is broken, and the device is everywhere that of the root. -/
def Visible (m : Memory) (r q : Path) : Prop :=
  r.AtOrAbove q ∧ ∀ k ∈ m.nodes.keys, r.AtOrAbove k → k.AtOrAbove q →
    (¬k.Same q → m.isReadable k) ∧ (¬k.Same r → !m.isBroken k) ∧ m.deviceOf k = m.deviceOf r

instance (m : Memory) (r q : Path) : Decidable (m.Visible r q) :=
  inferInstanceAs (Decidable (_ ∧ ∀ k ∈ m.nodes.keys, _))

def visible (m : Memory) (r : Path) : List Path := m.nodes.keys.filter fun q => m.Visible r q

def below (m : Memory) (r : Path) : List Path := m.nodes.keys.filter fun q => r.AtOrAbove q

variable {m : Memory} {r c k p q : Path}

theorem findSome?_congr {α : Type} (f : Map α) {l l' : List Path} (h : l.map parts = l'.map parts) :
    l.findSome? f.find? = l'.findSome? f.find? := by
  induction l generalizing l' with
  | nil =>
      obtain rfl : l' = [] := by simpa using h.symm
      rfl
  | cons a l ih =>
      cases l' with
      | nil => simp at h
      | cons b l' =>
          simp only [List.map_cons, List.cons.injEq] at h
          rw [List.findSome?_cons, List.findSome?_cons, f.find?_congr h.1, ih h.2]

theorem deviceOf_congr (h : p.Same q) : m.deviceOf p = m.deviceOf q := by
  have hanc : p.ancestors.map parts = q.ancestors.map parts := by
    rw [map_parts_ancestors, map_parts_ancestors, show p.parts = q.parts from h]
  rw [deviceOf, deviceOf, findSome?_congr m.mounts hanc]

theorem isReadable_iff : m.isReadable p = true ↔
    ∃ x, m.nodes.find? p = some x ∧ x.content.kind = .folder ∧ x.readable = true := by
  rw [isReadable, Option.any_eq_true]
  simp

theorem isReadable_congr (h : p.Same q) : m.isReadable p = m.isReadable q := by
  rw [isReadable, isReadable, m.nodes.find?_congr h]

theorem isBroken_congr (h : p.Same q) : m.isBroken p = m.isBroken q := by
  rw [isBroken, isBroken, m.nodes.find?_congr h]

theorem mem_childKeys : c ∈ m.childKeys p ↔
    c ∈ m.nodes.keys ∧ ∃ x, x ≠ Part.root ∧ c.parts = p.parts ++ [x] := by
  rw [childKeys, List.mem_filter, parent?_same_iff]

theorem Closed.exists_key (h : m.Closed) (hq : q ∈ m.nodes.keys) {v w : List Part}
    (he : q.parts = v ++ w) (hv : v ≠ []) : ∃ k ∈ m.nodes.keys, k.parts = v := by
  induction w using List.reverseRecOn generalizing q with
  | nil => exact ⟨q, hq, by simpa using he⟩
  | append_singleton w x ih =>
      rw [← List.append_assoc] at he
      have hc : m.nodes.contains q = true := m.nodes.contains_iff.2 ⟨q, hq, rfl⟩
      obtain ⟨k, hk, hkv⟩ := h q hc _ x he (by simp [hv])
      obtain ⟨k', hk', hs⟩ := m.nodes.contains_iff.1 hk
      exact ih hk' (hs.symm.trans hkv)

theorem child_above (hc : c ∈ m.childKeys r) : r.AtOrAbove c ∧ ¬c.Same r := by
  obtain ⟨-, x, hx, he⟩ := mem_childKeys.1 hc
  refine ⟨atOrAbove_iff.2 ⟨[x], by simpa using Ne.symm hx, he⟩, ?_⟩
  intro hs
  have hlen := congrArg List.length (he.symm.trans hs)
  simp at hlen

theorem Closed.exists_child (h : m.Closed) (hq : q ∈ m.nodes.keys) (habove : r.AtOrAbove q)
    (hne : ¬q.Same r) : ∃ c ∈ m.childKeys r, c.AtOrAbove q := by
  obtain ⟨w, hw, he⟩ := atOrAbove_iff.1 habove
  cases w with
  | nil => exact absurd (he.trans (List.append_nil _)) hne
  | cons x w =>
      obtain ⟨hx, hw⟩ := not_or.1 (List.mem_cons.not.1 hw)
      have he' : q.parts = (r.parts ++ [x]) ++ w := by simpa using he
      obtain ⟨c, hc, hcx⟩ := h.exists_key hq he' (by simp)
      exact ⟨c, mem_childKeys.2 ⟨hc, x, Ne.symm hx, hcx⟩, atOrAbove_iff.2 ⟨w, hw, hcx ▸ he'⟩⟩

theorem between_child (hc : c ∈ m.childKeys r) (hk : r.AtOrAbove k) (hkq : k.AtOrAbove q)
    (hcq : c.AtOrAbove q) : k.Same r ∨ c.AtOrAbove k := by
  rcases hkq.total hcq with h | h
  · obtain ⟨-, x, -, hcx⟩ := mem_childKeys.1 hc
    obtain ⟨w, hw, hkw⟩ := atOrAbove_iff.1 hk
    obtain ⟨z, hz, hcz⟩ := atOrAbove_iff.1 h
    cases w with
    | nil => exact .inl (hkw.trans (List.append_nil _))
    | cons y w =>
        have hlen := congrArg List.length (hcx.symm.trans hcz)
        rw [hkw] at hlen
        simp only [List.length_append, List.length_cons, List.length_nil] at hlen
        have hz : z = [] := List.length_eq_zero_iff.1 (by omega)
        rw [hz, List.append_nil] at hcz
        exact .inr (atOrAbove_iff.2 ⟨[], by simp, by simp [hcz]⟩)
  · exact .inr h

def isSeen (m : Memory) (r c : Path) : Bool :=
  !m.isBroken c && decide (m.deviceOf c = m.deviceOf r)

def seenChildren (m : Memory) (r : Path) : List Path :=
  if m.isReadable r then (m.childKeys r).filter (m.isSeen r) else []

theorem mem_seenChildren : c ∈ m.seenChildren r ↔ c ∈ m.childKeys r ∧ m.isReadable r = true ∧
    m.isBroken c = false ∧ m.deviceOf c = m.deviceOf r := by
  rw [seenChildren]
  split
  · rename_i hr
    simp [isSeen, hr]
  · rename_i hr
    simp [hr]

theorem visible_self : m.Visible r r := by
  refine ⟨.refl r, ?_⟩
  intro k _ hk hk'
  have hs := hk'.antisymm hk
  exact ⟨fun hn => absurd hs hn, fun hn => absurd hs hn, deviceOf_congr hs⟩

/-- From an entry one sees the entry itself, and what is seen from those of its children that are
seen from it. -/
theorem visible_iff (h : m.Closed) (hr : r ∈ m.nodes.keys) (hq : q ∈ m.nodes.keys) :
    m.Visible r q ↔ q = r ∨ ∃ c ∈ m.seenChildren r, m.Visible c q := by
  constructor
  · rintro ⟨habove, hall⟩
    by_cases hs : q.Same r
    · exact .inl (m.nodes.eq_of_same hq hr hs)
    · obtain ⟨c, hc, hcq⟩ := h.exists_child hq habove hs
      obtain ⟨hrc, hcr⟩ := child_above hc
      have hcall := hall c (mem_childKeys.1 hc).1 hrc hcq
      have hrall := hall r hr (.refl r) habove
      -- What holds of all entries from `r` to `q` holds of those from `c` on.
      refine .inr ⟨c, mem_seenChildren.2 ⟨hc, hrall.1 fun hrq => hs hrq.symm, ?_, hcall.2.2⟩, hcq, ?_⟩
      · simpa using hcall.2.1 hcr
      · intro k hk hck hkq
        have hkall := hall k hk (hrc.trans hck) hkq
        refine ⟨hkall.1, fun hkc => hkall.2.1 fun hkr => ?_, hkall.2.2.trans hcall.2.2.symm⟩
        exact hcr ((hck.trans (.of_same hkr)).antisymm hrc)
  · rintro (rfl | ⟨c, hc, hcq, hall⟩)
    · exact visible_self
    · obtain ⟨hc, hread, hbroken, hdev⟩ := mem_seenChildren.1 hc
      obtain ⟨hrc, hcr⟩ := child_above hc
      refine ⟨hrc.trans hcq, ?_⟩
      intro k hk hrk hkq
      -- An entry on the way is the folder itself, or is on the way from the child.
      rcases between_child hc hrk hkq hcq with hs | hck
      · exact ⟨fun _ => isReadable_congr hs ▸ hread, fun hn => absurd hs hn, deviceOf_congr hs⟩
      · have hkall := hall k hk hck hkq
        refine ⟨hkall.1, fun _ => ?_, hkall.2.2.trans hdev⟩
        by_cases hkc : k.Same c
        · simp [isBroken_congr hkc, hbroken]
        · exact hkall.2.1 hkc

theorem atOrAbove_iff_child (h : m.Closed) (hr : r ∈ m.nodes.keys) (hq : q ∈ m.nodes.keys) :
    r.AtOrAbove q ↔ q = r ∨ ∃ c ∈ m.childKeys r, c.AtOrAbove q := by
  constructor
  · intro habove
    by_cases hs : q.Same r
    · exact .inl (m.nodes.eq_of_same hq hr hs)
    · exact .inr (h.exists_child hq habove hs)
  · rintro (rfl | ⟨c, hc, hcq⟩)
    · exact .refl q
    · exact (child_above hc).1.trans hcq

theorem child_unique {c' : Path} (hc : c ∈ m.childKeys r) (hc' : c' ∈ m.childKeys r)
    (h : c.AtOrAbove q) (h' : c'.AtOrAbove q) : c = c' := by
  have hlen (a : Path) (ha : a ∈ m.childKeys r) : a.parts.length = r.parts.length + 1 := by
    obtain ⟨-, x, -, he⟩ := mem_childKeys.1 ha
    simp [he]
  obtain ⟨w, -, he⟩ := atOrAbove_iff.1 h
  obtain ⟨w', -, he'⟩ := atOrAbove_iff.1 h'
  have hs : c.Same c' :=
    (List.append_inj (he.symm.trans he') (by rw [hlen c hc, hlen c' hc'])).1
  exact m.nodes.eq_of_same (mem_childKeys.1 hc).1 (mem_childKeys.1 hc').1 hs

theorem perm_of_children (V : Path → Path → Prop) [∀ a b, Decidable (V a b)] {C : List Path}
    (hr : r ∈ m.nodes.keys) (hC : ∀ c ∈ C, c ∈ m.childKeys r) (hnodup : C.Nodup)
    (habove : ∀ c q, V c q → c.AtOrAbove q)
    (hV : ∀ q ∈ m.nodes.keys, V r q ↔ q = r ∨ ∃ c ∈ C, V c q) :
    (m.nodes.keys.filter fun q => V r q).Perm
      (r :: C.flatMap fun c => m.nodes.keys.filter fun q => V c q) := by
  have hkeys := m.nodes.nodup_keys
  -- Neither list holds anything twice, so that it is enough that they hold the same.
  refine (List.perm_ext_iff_of_nodup (hkeys.filter _) ?_).2 fun q => ?_
  · refine List.nodup_cons.2 ⟨fun hm => ?_, List.nodup_flatMap.2 ⟨fun c _ => hkeys.filter _, ?_⟩⟩
    · obtain ⟨c, hc, hm⟩ := List.mem_flatMap.1 hm
      have hcr := habove c r (by simpa using (List.mem_filter.1 hm).2)
      exact (child_above (hC c hc)).2 (hcr.antisymm (child_above (hC c hc)).1)
    · refine hnodup.imp_of_mem fun hc hc' hne q hq hq' => hne ?_
      exact child_unique (hC _ hc) (hC _ hc') (habove _ q (by simpa using (List.mem_filter.1 hq).2))
        (habove _ q (by simpa using (List.mem_filter.1 hq').2))
  · simp only [List.mem_filter, List.mem_cons, List.mem_flatMap, decide_eq_true_eq]
    constructor
    · rintro ⟨hq, h⟩
      rcases (hV q hq).1 h with rfl | ⟨c, hc, h⟩
      · exact .inl rfl
      · exact .inr ⟨c, hc, hq, h⟩
    · rintro (rfl | ⟨c, hc, hq, h⟩)
      · exact ⟨hr, (hV q hr).2 (.inl rfl)⟩
      · exact ⟨hq, (hV q hq).2 (.inr ⟨c, hc, h⟩)⟩

theorem nodup_childKeys : (m.childKeys r).Nodup := m.nodes.nodup_keys.filter _

theorem seenChildren_sublist : (m.seenChildren r).Sublist (m.childKeys r) := by
  rw [seenChildren]
  split
  · exact List.filter_sublist
  · exact List.nil_sublist _

theorem visible_perm (h : m.Closed) (hr : r ∈ m.nodes.keys) :
    (m.visible r).Perm (r :: (m.seenChildren r).flatMap m.visible) :=
  perm_of_children m.Visible hr (fun _ hc => seenChildren_sublist.subset hc)
    (nodup_childKeys.sublist seenChildren_sublist) (fun _ _ hv => hv.1) fun _ hq => visible_iff h hr hq

theorem below_perm (h : m.Closed) (hr : r ∈ m.nodes.keys) :
    (m.below r).Perm (r :: (m.childKeys r).flatMap m.below) :=
  perm_of_children AtOrAbove hr (fun _ hc => hc) nodup_childKeys (fun _ _ hv => hv)
    fun _ hq => atOrAbove_iff_child h hr hq

end Memory

end TreeTally
