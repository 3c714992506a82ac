import TreeTally.Proofs.Memory.Answers
import TreeTally.Proofs.Memory.Effects
import TreeTally.Proofs.Memory.Link
import TreeTally.Proofs.Text.Order

namespace TreeTally

open List (Forall₂)

namespace Memory

open TreeTally.Path

/-- An item tells how a key looks when it is asked for by itself. -/
def Tells (m : Memory) (follow : Bool) (k : Path) : Listed → Prop
  | .ok c => m.stat k follow = .ok c.info ∧ c.name = k.fileName?.getD []
  | .error f => m.stat k follow = .error f

/-- An item for every child of a folder and none besides, one after the other as the keys are. -/
structure Itemised (m : Memory) (q : Path) (follow : Bool) (ks : List Path)
    (entries : List Listed) : Prop where
  all : ∀ k, k ∈ ks ↔ k ∈ m.nodes.keys ∧ ∃ a, k.parent? = some a ∧ a.Same q
  ordered : ks.Sublist m.nodes.keys
  items : Forall₂ (m.Tells follow) ks entries
  named : m.Tidy → ∀ k ∈ ks, k.fileName? ≠ none
  increasing : m.Tidy →
    (namesOf entries).Pairwise fun a b => Utf8.encoding a < Utf8.encoding b

variable {m : Memory} {c : Build} {p q k a b : Path} {v : List Part} {n n' : List Char}
  {follow : Bool} {entries : List Listed}

theorem key_lt_iff_name (ha : a.parts = v ++ [.name n]) (hb : b.parts = v ++ [.name n']) :
    a.key < b.key ↔ Utf8.encoding n < Utf8.encoding n' := by
  rw [key, key, ha, hb, List.map_append, List.map_append, append_lt_append_iff,
    Utf8.encoding_lt_iff]
  simp [Part.key, List.cons_lt_cons_iff]

theorem reaches_iff :
    c.Reaches q ↔ q.Same c.path ∨ q.chars ≠ [] ∧ q.AtOrAbove c.path := by
  constructor
  · rintro (hs | ⟨a, ha, hs⟩)
    · exact .inl hs
    · obtain ⟨hne, w, -, hw, he⟩ := exists_mem_enclosing.1 ⟨a, ha, rfl⟩
      have hparts : q.parts = a.parts := hs
      refine .inr ⟨fun hnil => hne ?_, atOrAbove_iff.2 ⟨w, hw, hparts ▸ he⟩⟩
      rw [← hparts, show q = ⟨[]⟩ from congrArg Path.mk hnil]
      rfl
  · rintro (hs | ⟨hne, h⟩)
    · exact .inl hs
    · obtain ⟨w, hw, he⟩ := atOrAbove_iff.1 h
      cases w with
      | nil => exact .inl (he.trans (List.append_nil _)).symm
      | cons x w =>
          obtain ⟨a, ha, hs⟩ := exists_mem_enclosing.2 ⟨parts_ne_nil hne, x :: w, by simp, hw, he⟩
          exact .inr ⟨a, ha, hs.symm⟩

theorem contains_build_iff (h : m.Closed) :
    (m.build c).nodes.contains q = true ↔ c.Reaches q ∨ m.nodes.contains q = true := by
  obtain ⟨m₀, ⟨rfl, hp⟩ | ⟨n, rfl⟩, hc⟩ := build_cases m c
  · rw [hc, iff_or_self]
    -- The path is there already, and so is the way to it.
    rintro (hs | ha)
    · exact (m₀.nodes.contains_congr hs).trans hp
    · exact Option.isSome_iff_exists.2 (h.exists_node hp ha)
  · rw [hc, contains_put, Build.Reaches, or_assoc]

theorem contains_foldl_build_iff {calls : List Build} (h : m.Closed) :
    (calls.foldl build m).nodes.contains q = true ↔
      (∃ c ∈ calls, c.Reaches q) ∨ m.nodes.contains q = true := by
  induction calls generalizing m with
  | nil => simp
  | cons c calls ih =>
      rw [List.foldl_cons, ih (h.build c), contains_build_iff h, List.exists_mem_cons_iff, or_assoc,
        or_left_comm]

theorem contains_built_iff (d : DeviceId) (calls : List Build) :
    (built d calls).nodes.contains q = true ↔ ∃ c ∈ calls, c.Reaches q := by
  rw [built, contains_foldl_build_iff fun q hq => by simp [not_contains_new] at hq]
  simp [not_contains_new]

theorem Closed.exists_ancestor (h : m.Closed) (hk : k ∈ m.nodes.keys) (ha : a ∈ k.ancestors)
    (hne : a.chars ≠ []) : ∃ k' ∈ m.nodes.keys, k'.Same a := by
  obtain ⟨w, -, he⟩ := exists_mem_ancestors.1 ⟨a, ha, rfl⟩
  exact h.exists_key hk he (parts_ne_nil hne)

theorem pairwise_keys (m : Memory) : m.nodes.keys.Pairwise fun a b => a.key < b.key :=
  List.pairwise_map.2 m.nodes.ordered

theorem pairwise_not_same (m : Memory) : m.nodes.keys.Pairwise fun a b => ¬a.Same b := by
  apply m.pairwise_keys.imp
  intro a b hlt hs
  exact List.lt_irrefl _ (same_iff_key.1 hs ▸ hlt)

theorem list_ok_iff : m.list p follow = .ok entries ↔ ∃ q, m.resolve p follow = .ok q ∧
    m.isReadable q = true ∧ (m.childKeys q).map (m.listed follow) = entries := by
  rw [list_eq_ok]
  apply exists_congr
  intro q
  rw [isReadable_iff]
  constructor
  · rintro ⟨x, hq, hx, hk, hr, he⟩
    exact ⟨hq, ⟨x, hx, hk, hr⟩, he⟩
  · rintro ⟨hq, ⟨x, hx, hk, hr⟩, he⟩
    exact ⟨x, hq, hx, hk, hr, he⟩

theorem tells_listed (m : Memory) (follow : Bool) (k : Path) :
    m.Tells follow k (m.listed follow k) := by
  rw [listed]
  cases h : m.stat k follow with
  | ok i => exact ⟨h, rfl⟩
  | error f => exact h

theorem Tidy.pairwise_names (hm : m.Tidy) (q : Path) :
    ((m.childKeys q).map fun k => k.fileName?.getD []).Pairwise fun a b =>
      Utf8.encoding a < Utf8.encoding b := by
  have hkeys : (m.childKeys q).Pairwise fun a b => a.key < b.key := m.pairwise_keys.filter _
  -- Keys of one folder differ in their last part alone, and that is a name.
  apply List.pairwise_map.2
  apply hkeys.imp_of_mem
  intro a b ha hb hlt
  obtain ⟨n, -, hname, he⟩ := hm.exists_name ha
  obtain ⟨n', -, hname', he'⟩ := hm.exists_name hb
  rw [hname, hname']
  exact (key_lt_iff_name he he').1 hlt

theorem itemised (m : Memory) (q : Path) (follow : Bool) :
    m.Itemised q follow (m.childKeys q) ((m.childKeys q).map (m.listed follow)) where
  all k := by
    rw [childKeys, List.mem_filter, Option.any_eq_true]
    simp
  ordered := List.filter_sublist
  items := by
    rw [List.forall₂_map_right_iff]
    apply List.forall₂_same.2
    intro k _
    exact m.tells_listed follow k
  named hm k hk := by
    obtain ⟨n, -, hname, -⟩ := hm.exists_name hk
    simp [hname]
  increasing hm := (hm.pairwise_names q).sublist (namesOf_told (m.stat · follow) _)

theorem resolve_readable (h : m.isReadable p = true) (follow : Bool) :
    m.resolve p follow = .ok p := by
  obtain ⟨x, hx, hk, -⟩ := isReadable_iff.1 h
  apply resolve_straight hx
  simp [hk]

theorem list_of_readable (hq : m.resolve p follow = .ok q) (h : m.isReadable q = true) :
    ∃ ks entries, m.list p follow = .ok entries ∧ m.Itemised q follow ks entries :=
  ⟨_, _, list_ok_iff.2 ⟨q, hq, h, rfl⟩, m.itemised q follow⟩

/-- The keys are the called paths and the ancestors of these, save the empty path, each there once.
A listing that succeeds is that of a readable folder and tells of each child once, as it looks when
it is asked for by itself; where all keys end in names, these are in the order of their bytes. And
every folder that can be read is listed, with each key whose parent it is. -/
theorem keys_listed (d : DeviceId) (calls : List Build) :
    let m := built d calls
    (∀ q : Path, (∃ k ∈ m.nodes.keys, q.Same k) ↔
      ∃ c ∈ calls, q.Same c.path ∨ q.chars ≠ [] ∧ q.AtOrAbove c.path) ∧
    (∀ k ∈ m.nodes.keys, ∀ a ∈ k.ancestors, a.chars ≠ [] → ∃ k' ∈ m.nodes.keys, k'.Same a) ∧
    (m.nodes.keys.Pairwise fun a b => a.key < b.key) ∧
    (m.nodes.keys.Pairwise fun a b => ¬a.Same b) ∧
    (∀ p follow entries, m.list p follow = .ok entries → ∃ q ks, m.resolve p follow = .ok q ∧
      m.isReadable q = true ∧ m.Itemised q follow ks entries) ∧
    ∀ q, m.isReadable q = true → ∀ p follow, p = q ∨ m.resolve p follow = .ok q →
      ∃ ks entries, m.list p follow = .ok entries ∧ m.Itemised q follow ks entries ∧
        ∀ k ∈ m.nodes.keys, ∀ a, k.parent? = some a → a.Same q → k ∈ ks := by
  intro m
  refine ⟨fun q => ?_, fun k hk a ha => ?_, m.pairwise_keys, m.pairwise_not_same, ?_, ?_⟩
  · simp only [← reaches_iff]
    rw [← m.nodes.contains_iff]
    exact contains_built_iff d calls
  · exact (closed_built d calls).exists_ancestor hk ha
  · intro p follow entries h
    obtain ⟨q, hq, hread, rfl⟩ := list_ok_iff.1 h
    exact ⟨q, _, hq, hread, m.itemised q follow⟩
  · intro q hread p follow hp
    have hq : m.resolve p follow = .ok q := by
      rcases hp with rfl | hq
      · exact resolve_readable hread follow
      · exact hq
    obtain ⟨ks, entries, hlist, hitems⟩ := list_of_readable hq hread
    refine ⟨ks, entries, hlist, hitems, fun k hk a ha hs => ?_⟩
    exact (hitems.all k).2 ⟨hk, a, ha, hs⟩

def shelf : Memory :=
  built ⟨"disk"⟩ [.link ⟨['/', 'l']⟩ ⟨['/', 'd', '/']⟩, .file ⟨['/', 'd', '/', 'z']⟩ 1,
    .unreadable ⟨['/', 'd', '/', '/', 'é', '/']⟩, .broken ⟨['/', 'd', '/', 'y']⟩,
    .file ⟨['r', '/', 'x']⟩ 2]

theorem keys_listed_shelf :
    let broken : Path := ⟨['/', 'd', '/', 'y']⟩
    shelf.Tidy ∧
    (∃ ks entries, shelf.list ⟨['/', 'l']⟩ true = .ok entries ∧
      shelf.Itemised ⟨['/', 'd', '/']⟩ true ks entries ∧ namesOf entries = [['z'], ['é']] ∧
      Utf8.encoding ['z'] < Utf8.encoding ['é']) ∧
    ∃ ks entries, shelf.list ⟨['/', 'd']⟩ false = .ok entries ∧
      shelf.Itemised ⟨['/', 'd']⟩ false ks entries ∧ broken ∈ ks := by
  intro broken
  obtain ⟨-, -, -, -, hlist, hreadable⟩ := keys_listed ⟨"disk"⟩
    [.link ⟨['/', 'l']⟩ ⟨['/', 'd', '/']⟩, .file ⟨['/', 'd', '/', 'z']⟩ 1,
      .unreadable ⟨['/', 'd', '/', '/', 'é', '/']⟩, .broken ⟨['/', 'd', '/', 'y']⟩,
      .file ⟨['r', '/', 'x']⟩ 2]
  have htidy : shelf.Tidy := by decide
  have hnames : (shelf.list ⟨['/', 'l']⟩ true).toOption.map namesOf = some [['z'], ['é']] := rfl
  refine ⟨htidy, ?_, ?_⟩
  · cases h : shelf.list ⟨['/', 'l']⟩ true with
    | error f =>
        rw [h] at hnames
        cases hnames
    | ok entries =>
        rw [h] at hnames
        obtain ⟨q, ks, hq, -, hitems⟩ := hlist _ _ _ h
        obtain rfl : ⟨['/', 'd', '/']⟩ = q := Except.ok.inj hq
        have hnames' := Option.some.inj hnames
        have hsorted := hitems.increasing htidy
        rw [hnames'] at hsorted
        exact ⟨ks, entries, rfl, hitems, hnames', by simpa using hsorted⟩
  · obtain ⟨ks, entries, h, hitems, hall⟩ :=
      hreadable ⟨['/', 'd']⟩ rfl ⟨['/', 'd']⟩ false (.inl rfl)
    have hkey : broken ∈ shelf.nodes.keys := List.mem_of_getElem? (i := 2) rfl
    exact ⟨ks, entries, h, hitems, hall broken hkey ⟨['/', 'd']⟩ rfl rfl⟩

end Memory

end TreeTally
