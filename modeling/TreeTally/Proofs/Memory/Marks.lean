import TreeTally.Proofs.Memory.Finite
import TreeTally.Proofs.Memory.Count
import TreeTally.Proofs.Walk.Withheld

namespace TreeTally

namespace Memory

open TreeTally.Path

/-- The second entry is the first, perhaps with marks on it. -/
structure Dimmed (n n' : Node) : Prop where
  content : n'.content = n.content
  readable : n'.readable = true → n.readable = true
  queryable : n'.queryable = true → n.queryable = true

theorem Dimmed.refl (n : Node) : Dimmed n n := ⟨rfl, id, id⟩

/-- The second tree is the first, with marks on some of its entries. -/
structure Marked (m m' : Memory) : Prop where
  device : m'.device = m.device
  mounts : m'.mounts = m.mounts
  keys : m'.nodes.keys = m.nodes.keys
  node : ∀ p n', m'.nodes.find? p = some n' → ∃ n, m.nodes.find? p = some n ∧ Dimmed n n'

def Build.Marks (m : Memory) : Build → Prop
  | .unreadable p | .broken p => m.nodes.contains p = true
  | _ => False

variable {m m' m'' : Memory} {p q origin : Path} {follow : Bool} {steps : Nat} {c : Build}

theorem Marked.refl (m : Memory) : Marked m m := ⟨rfl, rfl, rfl, fun _ n' h => ⟨n', h, .refl n'⟩⟩

theorem Marked.trans (h : Marked m m') (h' : Marked m' m'') : Marked m m'' := by
  refine ⟨h'.device.trans h.device, h'.mounts.trans h.mounts, h'.keys.trans h.keys, ?_⟩
  intro p n'' hn''
  obtain ⟨n', hn', hd'⟩ := h'.node p n'' hn''
  obtain ⟨n, hn, hd⟩ := h.node p n' hn'
  exact ⟨n, hn, hd'.content.trans hd.content, hd.readable ∘ hd'.readable,
    hd.queryable ∘ hd'.queryable⟩

theorem Marked.contains (h : Marked m m') (p : Path) : m'.nodes.contains p = m.nodes.contains p := by
  rw [Bool.eq_iff_iff, Map.contains_iff, Map.contains_iff, h.keys]

theorem marked_modify (m : Memory) (p : Path) {f : Node → Node} (hf : ∀ n, Dimmed n (f n)) :
    Marked m { m with nodes := m.nodes.modify p f } := by
  refine ⟨rfl, rfl, Map.keys_modify _ _, fun q n' hn' => ?_⟩
  rw [Map.find?_modify] at hn'
  split at hn'
  · obtain ⟨n, hn, rfl⟩ := Option.map_eq_some_iff.1 hn'
    exact ⟨n, hn, hf n⟩
  · exact ⟨n', hn', .refl n'⟩

theorem marked_build (h : c.Marks m) : Marked m (m.build c) := by
  cases c with
  | unreadable p =>
      have hp : m.nodes.contains p = true := h
      rw [build, markUnreadable, if_pos hp]
      exact marked_modify m p fun n => ⟨rfl, fun h => absurd h Bool.false_ne_true, id⟩
  | broken p =>
      have hp : m.nodes.contains p = true := h
      rw [build, markBroken, if_pos hp]
      exact marked_modify m p fun n => ⟨rfl, id, fun h => absurd h Bool.false_ne_true⟩
  | _ => exact h.elim

theorem Build.Marks.of_marked (h : Marked m m') (hc : c.Marks m) : c.Marks m' := by
  cases c with
  | unreadable p => exact (h.contains p).trans hc
  | broken p => exact (h.contains p).trans hc
  | _ => exact hc.elim

theorem marked_foldl {marks : List Build} (h : ∀ c ∈ marks, c.Marks m) :
    Marked m (marks.foldl build m) := by
  induction marks generalizing m with
  | nil => exact .refl m
  | cons c marks ih =>
      obtain ⟨hc, hmarks⟩ := List.forall_mem_cons.1 h
      have hstep := marked_build hc
      exact hstep.trans (ih fun c' hc' => (hmarks c' hc').of_marked hstep)

theorem Marked.deviceOf (h : Marked m m') (p : Path) : m'.deviceOf p = m.deviceOf p := by
  rw [Memory.deviceOf, Memory.deviceOf, h.device, h.mounts]

theorem Marked.chase (h : Marked m m') : m'.chase origin steps p = m.chase origin steps p := by
  induction steps generalizing p with
  | zero => rfl
  | succ steps ih =>
      rw [Memory.chase, Memory.chase]
      cases hn' : m'.nodes.find? p with
      | none =>
          have hn : m.nodes.find? p = none := by
            rw [← Option.not_isSome_iff_eq_none]
            exact fun hsome => by
              have hmem := (h.contains p).trans hsome
              rw [Map.contains, hn'] at hmem
              cases hmem
          simp [look, hn, hn', bind, Except.bind]
      | some n' =>
          obtain ⟨n, hn, hd⟩ := h.node p n' hn'
          simp only [look, hn, hn', bind, Except.bind, hd.content, h.contains, ih]

theorem Marked.resolve (h : Marked m m') : m'.resolve p follow = m.resolve p follow := by
  rw [Memory.resolve, Memory.resolve, h.chase]

theorem Marked.childKeys (h : Marked m m') (p : Path) : m'.childKeys p = m.childKeys p := by
  rw [Memory.childKeys, Memory.childKeys, h.keys]

theorem Marked.stat (h : Marked m m') {i : EntryInfo} (hi : m'.stat p follow = .ok i) :
    m.stat p follow = .ok i := by
  obtain ⟨n', q, k', hn', hquery, hq, hk', rfl⟩ := stat_eq_ok.1 hi
  obtain ⟨n, hn, hd⟩ := h.node p n' hn'
  obtain ⟨k, hk, hdk⟩ := h.node q k' hk'
  refine stat_eq_ok.2 ⟨n, q, k, hn, hd.queryable hquery, h.resolve ▸ hq, hk, ?_⟩
  rw [hdk.content, h.deviceOf]

theorem Marked.withholds (h : Marked m m') (follow : Bool) :
    m.fileSystem.Withholds m'.fileSystem follow := by
  refine ⟨fun p i => h.stat, fun p entries' hl => ?_⟩
  obtain ⟨q, n', hq, hn', hkind, hread, rfl⟩ := list_eq_ok.1 hl
  obtain ⟨n, hn, hd⟩ := h.node q n' hn'
  refine ⟨_, list_eq_ok.2 ⟨q, n, h.resolve ▸ hq, hn, hd.content ▸ hkind, hd.readable hread, rfl⟩, ?_⟩
  rw [h.childKeys, List.forall₂_map_left_iff, List.forall₂_map_right_iff, List.forall₂_same]
  intro k _
  rw [listed, listed]
  cases hi : m'.stat k follow with
  | error f => exact .failed f _
  | ok i =>
      rw [h.stat hi]
      exact .told _

theorem Tidy.keyed (hm : m.Tidy) (follow : Bool) : m.fileSystem.Keyed follow m.nodes.keys := by
  have hretold := m.amend_eq_retold []
  rw [FileSystem.amend_nil] at hretold
  rw [hretold]
  exact keyed_retold hm _ _ _ follow

/-- Further marks on entries only lower the totals of a count: if it comes to totals with them, then it
does so without them, unless its clock overruns, and to no fewer bytes, files and folders. It comes to
the same if no folder was unreadable with the marks, and no entry of a listing failed. -/
theorem count_marked (hm : m.Tidy) {marks : List Build} (hmarks : ∀ c ∈ marks, c.Marks m)
    {options options' : Options} (hfollow : options'.follow = options.follow)
    (clock : Nat → Instant) {clock' : Nat → Instant} {roots : List Path} {r' : Report} {t' : Tally}
    (hcount : (marks.foldl build m).count [] options' clock' {} roots = some r')
    (hr' : r'.ending = .outcome (.ok t')) :
    ∃ r, m.count [] options clock {} roots = some r ∧
      ((∃ t, r.ending = .outcome (.ok t) ∧ t'.bytes ≤ t.bytes ∧ t'.files ≤ t.files ∧
          t'.folders ≤ t.folders ∧
          (t'.unreadable = 0 → (∀ p f, .event (.bad p f) ∉ r'.signals) → t' = t)) ∨
        r.ending = .clockOverrun ∧ ∃ k, (clock k).add? options.interval = none) := by
  rw [Memory.count, FileSystem.amend_nil] at hcount
  obtain ⟨l, t, hfinds, hbounds, hexact⟩ := finds_of_withheld clock
    ((marked_foldl hmarks).withholds options.follow) hfollow
    (fun p i => ((hm.keyed options.follow).exists_sight p i).imp fun _ h => h.1) hcount hr'
  obtain ⟨r, hrun, hr⟩ := count_ends hm [] options clock roots
  refine ⟨r, hrun, hr.imp_left ?_⟩
  rintro ⟨o, ho⟩
  rw [Memory.count, FileSystem.amend_nil] at hrun
  obtain ⟨n, hn⟩ := hfinds.exists_count
  obtain rfl := Plan.count_unique hrun (hn _ (Nat.lt_succ_self n))
  obtain ⟨-, rfl⟩ := Plan.lasts_of_tells ho
  exact ⟨t, ho, hbounds.bytes, hbounds.files, hbounds.folders, hexact⟩

def crossed : Memory :=
  built ⟨"disk"⟩ [.file ⟨['/', 'r', '/', 'a']⟩ 5, .file ⟨['/', 'r', '/', 'd', '/', 'x']⟩ 7,
    .link ⟨['/', 'r', '/', 'l']⟩ ⟨['/', 'r', '/', 'd']⟩]

/-- With the file broken and the folder unreadable next to nothing is counted. The folder is unreadable
twice, for it is met by way of the link as well. -/
theorem count_marked_crossed :
    let options : Options := { interval := ⟨0⟩, follow := true }
    let roots : List Path := [⟨['/', 'r']⟩]
    let marks : List Build := [.unreadable ⟨['/', 'r', '/', 'd']⟩, .broken ⟨['/', 'r', '/', 'a', '/']⟩]
    crossed.Tidy ∧ (∀ c ∈ marks, c.Marks crossed) ∧
      ∃ r r', crossed.count [] options (fun _ => ⟨0⟩) {} roots = some r ∧
        (marks.foldl build crossed).count [] options (fun _ => ⟨0⟩) {} roots = some r' ∧
        r'.ending = .outcome (.ok ⟨0, 0, 1, 2⟩) ∧ ∃ t, r.ending = .outcome (.ok t) ∧ 1 ≤ t.folders := by
  intro options roots marks
  have htidy : crossed.Tidy := by decide
  have hmarks : ∀ c ∈ marks, c.Marks crossed := by
    refine List.forall_mem_cons.2 ⟨?_, List.forall_mem_singleton.2 ?_⟩ <;> rfl
  have hrun : ((marks.foldl build crossed).count [] options (fun _ => ⟨0⟩) {} roots).bind
      Report.total? = some ⟨0, 0, 1, 2⟩ := by decide +kernel
  have hroom : (⟨0⟩ : Instant).add? ⟨0⟩ ≠ none := by decide
  obtain ⟨r', hcount', ht'⟩ := Option.bind_eq_some_iff.1 hrun
  have hr' := Report.total?_eq_some.1 ht'
  obtain ⟨r, hcount, ⟨t, ht, -, -, hfolders, -⟩ | ⟨-, k, hk⟩⟩ :=
    count_marked htidy hmarks rfl (fun _ => ⟨0⟩) hcount' hr'
  · exact ⟨htidy, hmarks, r, r', hcount, hcount', hr', t, ht, hfolders⟩
  · exact absurd hk hroom

end Memory

end TreeTally
