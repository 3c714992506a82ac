import TreeTally.Proofs.Walk.Outline

namespace TreeTally

/-- Every call is for an entry of the tree as it is there, and every entry lies on the way to one. -/
structure Outline.MadeBy (T : Outline) (made : List (List Char × Content)) : Prop where
  spelled : ∀ x ∈ made, ∃ l, T.Spells x.1 l x.2
  all : ∀ e ∈ T.entries, ∃ x ∈ made, ∃ l, T.Spells x.1 l x.2 ∧ e.1 <+: l

theorem Path.Map.of_find?_foldl_insertNew {α : Type} {m : Path.Map α} {a b : α} {q : Path}
    (l : List Path) (h : (l.foldl (·.insertNew · a) m).find? q = some b) :
    m.find? q = some b ∨ b = a ∧ ∃ k ∈ l, q.Same k := by
  rw [find?_foldl_insertNew] at h
  split at h
  · cases hq : m.find? q with
    | none => exact .inr ⟨by simpa [hq] using h.symm, ‹_›⟩
    | some c => exact .inl (by simpa [hq] using h)
  · exact .inl h

namespace Memory

open TreeTally.Path

def Build.ofContent (p : Path) : Content → Build
  | .folder => .folder p
  | .file n => .file p n
  | .link target => .link p target

def grown (device : DeviceId) (c : Path) (made : List (List Char × Content)) : Memory :=
  built device (made.map fun x => .ofContent (c.join x.1) x.2)

/-- Nothing is in memory but entries of the tree and folders on the way to all of it. -/
structure Fits (m : Memory) (c : Path) (T : Outline) : Prop where
  node : ∀ q n, m.nodes.find? q = some n →
    (∃ l x, (l, x) ∈ T.entries ∧ q.parts = c.parts ++ l.map .name ∧ n = { content := x }) ∨
      q.parts <+: c.parts
  mounts : m.mounts = .empty

variable {m : Memory} {c p q k : Path} {T : Outline} {l : Location} {x : Content} {t : List Char}
variable {made : List (List Char × Content)} {device : DeviceId}

theorem build_ofContent (m : Memory) (p : Path) (x : Content) :
    m.build (.ofContent p x) = m.put p { content := x } := by
  cases x <;> rfl

theorem parts_spelled (ht : T.Spells t l x) (c : Path) :
    (c.join t).parts = c.parts ++ l.map .name := by
  rw [parts_join_names c ht.relative, ht.names]
  intro n hn
  refine or_iff_not_imp_left.2 fun hne => (T.proper _ ht.entry).2 n ?_
  rw [← ht.names]
  exact List.mem_filter.2 ⟨hn, by simpa using hne⟩

theorem Fits.put (h : m.Fits c T) (hl : (l, x) ∈ T.entries) (hp : p.parts = c.parts ++ l.map .name) :
    (m.put p { content := x }).Fits c T := by
  refine ⟨fun q n hn => ?_, h.mounts⟩
  rw [Memory.put, Map.find?_insert] at hn
  split at hn
  · rename_i hs
    exact .inl ⟨l, x, hl, hs.trans hp, (Option.some.inj hn).symm⟩
  · rcases Map.of_find?_foldl_insertNew _ hn with hn | ⟨rfl, k, hk, hs⟩
    · exact h.node q n hn
    · -- A folder on the way to the entry is one of the tree, or lies above all of it.
      obtain ⟨-, w, hw, -, he⟩ := exists_mem_enclosing.1 ⟨k, hk, rfl⟩
      rw [show q.parts = k.parts from hs]
      rcases List.append_eq_append_iff.1 (hp.symm.trans he) with ⟨z, hz, hmap⟩ | ⟨z, hz, -⟩
      · by_cases hnil : z = []
        · rw [hz, hnil, List.append_nil]
          exact .inr List.prefix_rfl
        · obtain ⟨v, v', rfl, rfl, rfl⟩ := List.map_eq_append_iff.1 hmap
          refine .inl ⟨v, .folder, T.folder_above hl ?_ ?_, hz, rfl⟩
          · exact fun he => hnil (by rw [he]; rfl)
          · exact fun he => hw (by rw [he]; rfl)
      · exact .inr ⟨z, hz.symm⟩

theorem fits_grown (hmade : ∀ x ∈ made, ∃ l, T.Spells x.1 l x.2) : (grown device c made).Fits c T := by
  have hgo (m : Memory) (hm : m.Fits c T) :
      ((made.map fun x => Build.ofContent (c.join x.1) x.2).foldl build m).Fits c T := by
    induction made generalizing m with
    | nil => exact hm
    | cons x made ih =>
        obtain ⟨⟨l, hx⟩, hmade⟩ := List.forall_mem_cons.1 hmade
        refine ih hmade _ ?_
        rw [build_ofContent]
        exact hm.put hx.entry (parts_spelled hx c)
  exact hgo (new device) ⟨fun q n hn => (by cases hn), rfl⟩

theorem contains_foldl_build {calls : List Build} (h : m.nodes.contains q = true) :
    (calls.foldl build m).nodes.contains q = true := by
  induction calls generalizing m with
  | nil => exact h
  | cons c calls ih => exact ih (contains_build h c)

theorem contains_grown {y : List Char × Content} {v : Location} (hy : y ∈ made)
    (hs : T.Spells y.1 l y.2) (hv : v <+: l) (hne : v ≠ []) (hq : q.parts = c.parts ++ v.map .name) :
    (grown device c made).nodes.contains q = true := by
  obtain ⟨before, after, rfl⟩ := List.append_of_mem hy
  rw [grown, built, List.map_append, List.map_cons, List.foldl_append, List.foldl_cons]
  -- Later calls take nothing away.
  refine contains_foldl_build ?_
  rw [build_ofContent]
  obtain ⟨w, rfl⟩ := hv
  have hparts := parts_spelled hs c
  by_cases hw : w = []
  · rw [hw, List.append_nil, ← hq] at hparts
    exact contains_put.2 (.inl hparts.symm)
  · rw [List.map_append, ← List.append_assoc, ← hq] at hparts
    obtain ⟨a, ha, hs⟩ := exists_mem_enclosing.2 ⟨by simp [hq, hne], w.map .name, by simpa using hw,
      by simp, hparts⟩
    exact contains_put.2 (.inr (.inl ⟨a, ha, hs.symm⟩))

theorem map_name_inj {v w : Location} (h : v.map Part.name = w.map Part.name) : v = w :=
  (List.map_inj_right fun _ _ => Part.name.inj).1 h

theorem parts_foldl_join (c : Path) (l : Location) (h : ∀ n ∈ l, Proper n) :
    (l.foldl Path.join c).parts = c.parts ++ l.map .name := by
  induction l generalizing c with
  | nil => exact (List.append_nil _).symm
  | cons n l ih =>
      obtain ⟨hn, hl⟩ := List.forall_mem_cons.1 h
      rw [List.foldl_cons, ih (c.join n) hl, parts_join c hn, List.append_assoc]
      rfl

theorem parts_child {n : List Char} (hp : p.parts = c.parts ++ l.map .name)
    (hn : (l ++ [n], x) ∈ T.entries) : (p.join n).parts = p.parts ++ [.name n] ∧
      (p.join n).parts = c.parts ++ (l ++ [n]).map .name := by
  have hparts := parts_join p ((T.proper _ hn).2 n (by simp))
  refine ⟨hparts, ?_⟩
  rw [hparts, hp, List.map_append, List.append_assoc]
  rfl

theorem Fits.entry (h : m.Fits c T) {n : Node} {v : List Part} (hq : m.nodes.find? q = some n)
    (hparts : q.parts = c.parts ++ v) (hv : v ≠ []) :
    ∃ l x, (l, x) ∈ T.entries ∧ v = l.map .name ∧ n = { content := x } := by
  rcases h.node q n hq with ⟨l, x, hl, he, hn⟩ | hle
  · exact ⟨l, x, hl, List.append_cancel_left (hparts.symm.trans he), hn⟩
  · have hlen := hle.length_le
    have hpos := List.length_pos_of_ne_nil hv
    rw [hparts, List.length_append] at hlen
    omega

theorem Fits.deviceOf (h : m.Fits c T) (p : Path) : m.deviceOf p = m.device := by
  have hnone : p.ancestors.findSome? (Map.empty (α := DeviceId)).find? = none :=
    List.findSome?_eq_none_iff.2 fun _ _ => rfl
  rw [Memory.deviceOf, h.mounts, hnone]
  rfl

/-- All of the tree is in memory, and nothing else but the folders above it. -/
structure Keeps (m : Memory) (c : Path) (T : Outline) : Prop extends m.Fits c T where
  all : ∀ l x q, (l, x) ∈ T.entries → q.parts = c.parts ++ l.map .name → m.nodes.contains q = true

namespace Keeps

variable (h : m.Keeps c T) {n : List Char}
include h

theorem find? (hp : p.parts = c.parts ++ l.map .name) (hl : (l, x) ∈ T.entries) :
    m.nodes.find? p = some { content := x } := by
  obtain ⟨n, hn⟩ := Option.isSome_iff_exists.1 (h.all l x p hl hp)
  have hne : l.map Part.name ≠ [] := by simpa using (T.proper _ hl).1
  obtain ⟨l', x', hl', he, rfl⟩ := h.entry hn hp hne
  obtain rfl := map_name_inj he
  rw [hn, T.eq_of_mem hl' hl]

theorem stat (hp : p.parts = c.parts ++ l.map .name) (hl : (l, x) ∈ T.entries) :
    m.stat p false = .ok (x.told m.device 0) := by
  rw [stat_alone (h.find? hp hl), if_pos rfl, infoOf, h.deviceOf]
  cases x <;> rfl

theorem listed (hp : p.parts = c.parts ++ l.map .name) (hk : k ∈ m.childKeys p) :
    ∃ n x, (l ++ [n], x) ∈ T.entries ∧ k.parts = p.parts ++ [.name n] ∧
      m.listed false k = .ok ⟨n, x.told m.device 0⟩ := by
  obtain ⟨hmem, y, -, hy⟩ := mem_childKeys.1 hk
  obtain ⟨node, hnode⟩ := exists_node hmem
  have hparts : k.parts = c.parts ++ (l.map .name ++ [y]) := by rw [hy, hp, List.append_assoc]
  obtain ⟨l', x, hl', he, -⟩ := h.entry hnode hparts (by simp)
  obtain ⟨v, w, rfl, hv, hw⟩ := List.map_eq_append_iff.1 he.symm
  obtain rfl := map_name_inj hv
  obtain ⟨n, rfl, rfl⟩ := List.map_eq_singleton_iff.1 hw
  refine ⟨n, x, hl', hy, ?_⟩
  rw [Memory.listed, h.stat (he ▸ hparts) hl', fileName?_of_parts hy]
  rfl

theorem listing (hp : p.parts = c.parts ++ l.map .name) :
    ((m.childKeys p).map (m.listed false)).Perm (T.listing m.device (fun _ => 0) l) := by
  refine T.perm_listing ?_ fun e => ?_
  · refine nodup_childKeys.map_on fun k hk k' hk' he => ?_
    obtain ⟨n, x, -, hparts, hlisted⟩ := h.listed hp hk
    obtain ⟨n', x', -, hparts', hlisted'⟩ := h.listed hp hk'
    rw [hlisted, hlisted'] at he
    rw [(Child.mk.inj (Except.ok.inj he)).1, ← hparts'] at hparts
    exact m.nodes.eq_of_same (mem_childKeys.1 hk).1 (mem_childKeys.1 hk').1 hparts
  · rw [List.mem_map]
    constructor
    · rintro ⟨k, hk, rfl⟩
      obtain ⟨n, x, hx, -, hlisted⟩ := h.listed hp hk
      exact ⟨n, x, hx, hlisted⟩
    · rintro ⟨n, x, hx, rfl⟩
      obtain ⟨hjoin, hparts⟩ := parts_child hp hx
      obtain ⟨k, hk, hs⟩ := m.nodes.contains_iff.1 (h.all _ x _ hx hparts)
      have hkparts : k.parts = p.parts ++ [.name n] := hs.symm.trans hjoin
      have hchild := mem_childKeys.2 ⟨hk, .name n, nofun, hkparts⟩
      obtain ⟨n', x', hx', hparts', hlisted⟩ := h.listed hp hchild
      have hn := List.append_cancel_left (hkparts.symm.trans hparts')
      obtain rfl : n = n' := Part.name.inj (List.cons.inj hn).1
      exact ⟨k, hchild, by rw [hlisted, T.eq_of_mem hx' hx]⟩

theorem shownBy : T.ShownBy m.fileSystem m.device (fun _ => 0)
    fun p l => p.parts = c.parts ++ l.map .name := by
  refine ⟨fun p l x hp hl => h.stat hp hl, fun p l hp hl => ?_, fun p l n x hp _ hn => (parts_child hp hn).2⟩
  exact ⟨_, (list_alone (h.find? hp hl) rfl).trans (if_pos rfl), h.listing hp⟩

theorem length_le : T.entries.length ≤ m.nodes.keys.length := by
  have hmap : (T.entries.map fun e => c.parts ++ e.1.map Part.name).Nodup := by
    have hinj : Function.Injective fun l : Location => c.parts ++ l.map Part.name :=
      fun v w he => map_name_inj (List.append_cancel_left he)
    have hnodup := T.apart.map hinj
    rwa [List.map_map] at hnodup
  have hsub : (T.entries.map fun e => c.parts ++ e.1.map Part.name) ⊆ m.nodes.keys.map parts := by
    intro v hv
    obtain ⟨⟨l, x⟩, he, rfl⟩ := List.mem_map.1 hv
    have hparts := parts_foldl_join c l (T.proper _ he).2
    obtain ⟨k, hk, hs⟩ := m.nodes.contains_iff.1 (h.all l x _ he hparts)
    exact List.mem_map.2 ⟨k, hk, hs.symm.trans hparts⟩
  simpa using (List.subperm_of_subset hmap hsub).length_le

end Keeps

theorem keeps_grown (device : DeviceId) (c : Path) (h : T.MadeBy made) : (grown device c made).Keeps c T := by
  refine ⟨fits_grown h.spelled, fun l x q hl hq => ?_⟩
  obtain ⟨y, hy, v, hs, hle⟩ := h.all _ hl
  exact contains_grown hy hs hle (T.proper _ hl).1 hq

end Memory

end TreeTally
