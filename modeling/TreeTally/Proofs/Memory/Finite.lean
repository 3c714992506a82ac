import Mathlib.Tactic.Linarith
import Mathlib.Tactic.Ring
import TreeTally.Memory.Count
import TreeTally.Proofs.Memory.Answers
import TreeTally.Proofs.Memory.Visible
import TreeTally.Proofs.Walk.Keyed

namespace TreeTally

namespace Memory

open TreeTally.Path

/-- No key ends in a way up or in a leading dot. -/
def Tidy (m : Memory) : Prop :=
  ∀ k ∈ m.nodes.keys, k.parts.getLast? ≠ some .up ∧ k.parts.getLast? ≠ some .here

instance (m : Memory) : Decidable m.Tidy := inferInstanceAs (Decidable (∀ k ∈ m.nodes.keys, _))

def childrenOf (m : Memory) (p : Path) (follow : Bool) : List Path :=
  match m.resolve p follow with
  | .ok q => m.childKeys q
  | .error _ => []

/-- The tree with other answers about metadata: single paths are looked at as `stat` says, and the
metadata of an entry in a listing are what is told of it in that folder. Some folders may refuse to
be listed. -/
def retold (m : Memory) (stat : Path → Bool → Except Fault EntryInfo)
    (tell : Path → Bool → Path → Except Fault EntryInfo) (refuse : Path → Bool → Option Fault) :
    FileSystem where
  stat := stat
  list p follow := match refuse p follow with
    | some f => .error f
    | none => (m.list p follow).map fun _ => (m.childrenOf p follow).map fun k =>
        (tell p follow k).map (⟨k.fileName?.getD [], ·⟩)

variable {m : Memory} {p q c : Path} {follow : Bool} {entries : List Listed}

theorem look_ok {n : Node} : m.look p = .ok n ↔ m.nodes.find? p = some n := by
  rw [look]
  cases m.nodes.find? p <;> simp

theorem contains_of_look {n : Node} (h : m.look p = .ok n) : m.nodes.contains p = true := by
  rw [Map.contains, look_ok.1 h]
  rfl

theorem contains_of_resolve {n : Node} (h : m.resolve p follow = .ok q) (hn : m.look q = .ok n) :
    m.nodes.contains p = true := by
  rw [resolve] at h
  split at h
  · rw [linkLimit, chase] at h
    cases hl : m.look p with
    | error f =>
        rw [hl] at h
        cases h
    | ok n' => exact contains_of_look hl
  · cases h
    exact contains_of_look hn

theorem list_ok (h : m.list p follow = .ok entries) :
    m.nodes.contains p = true ∧ entries = (m.childrenOf p follow).map (m.listed follow) := by
  obtain ⟨q, n, hq, hn, -, -, rfl⟩ := list_eq_ok.1 h
  refine ⟨contains_of_resolve hq (look_ok.2 hn), ?_⟩
  rw [childrenOf, hq]

/-- To amend some answers is to tell something else of some entries. -/
theorem amend_eq_retold (m : Memory) (as : List Amendment) : m.fileSystem.amend as =
    m.retold (m.fileSystem.amend as).stat
      (fun p follow k => (m.stat k follow).bind fun i =>
        Amendment.amendStat as (p.join (k.fileName?.getD [])) (.ok i))
      fun p _ => (Amendment.find? as p).bind (·.listFault) := by
  rw [retold, FileSystem.amend, FileSystem.mk.injEq]
  refine ⟨rfl, ?_⟩
  funext p follow
  rw [Amendment.amendList]
  cases (Amendment.find? as p).bind (·.listFault) with
  | some f => rfl
  | none =>
      show (m.list p follow).map _ = _
      cases hl : m.list p follow with
      | error f => rfl
      | ok entries =>
          obtain ⟨-, rfl⟩ := list_ok hl
          refine congrArg Except.ok ((List.map_map).trans (List.map_congr_left fun k _ => ?_))
          rw [Function.comp, listed]
          cases m.stat k follow <;> rfl

theorem Tidy.exists_name (hm : m.Tidy) (hc : c ∈ m.childKeys q) :
    ∃ n, Proper n ∧ c.fileName? = some n ∧ c.parts = q.parts ++ [.name n] := by
  obtain ⟨hkey, x, hroot, he⟩ := mem_childKeys.1 hc
  have hlast := hm c hkey
  rw [he, List.getLast?_concat] at hlast
  cases x with
  | root => exact absurd rfl hroot
  | here => exact absurd rfl hlast.2
  | up => exact absurd rfl hlast.1
  | name n => exact ⟨n, proper_of_mem_parts (p := c) (by simp [he]), fileName?_of_parts he, he⟩

theorem namesOf_told (tell : Path → Except Fault EntryInfo) (C : List Path) :
    (namesOf (C.map fun k => (tell k).map (⟨k.fileName?.getD [], ·⟩))).Sublist
      (C.map fun k => k.fileName?.getD []) := by
  induction C with
  | nil => exact .slnil
  | cons c C ih =>
      rw [List.map_cons, List.map_cons]
      cases tell c with
      | error f => exact ih.cons _
      | ok i => exact ih.cons_cons _

theorem retold_ok {stat : Path → Bool → Except Fault EntryInfo}
    {tell : Path → Bool → Path → Except Fault EntryInfo} {refuse : Path → Bool → Option Fault}
    (h : (m.retold stat tell refuse).list p follow = .ok entries) :
    m.nodes.contains p = true ∧ entries = (m.childrenOf p follow).map fun k =>
      (tell p follow k).map (⟨k.fileName?.getD [], ·⟩) := by
  simp only [retold] at h
  split at h
  · cases h
  · cases hl : m.list p follow with
    | error f =>
        rw [hl] at h
        cases h
    | ok real =>
        rw [hl] at h
        cases h
        exact ⟨(list_ok hl).1, rfl⟩

theorem childrenOf_sublist (m : Memory) (p : Path) (follow : Bool) :
    ∃ q, (m.childrenOf p follow).Sublist (m.childKeys q) := by
  rw [childrenOf]
  split
  · exact ⟨_, .refl _⟩
  · exact ⟨p, List.nil_sublist _⟩

theorem keyed_retold (hm : m.Tidy) (stat : Path → Bool → Except Fault EntryInfo)
    (tell : Path → Bool → Path → Except Fault EntryInfo) (refuse : Path → Bool → Option Fault)
    (follow : Bool) : (m.retold stat tell refuse).Keyed follow m.nodes.keys := by
  refine ⟨fun p entries hl => ?_, fun p entries hl n hn => ?_, fun p entries hl => ?_,
    fun p entries hl => ?_⟩ <;> obtain ⟨hp, rfl⟩ := retold_ok hl <;>
    obtain ⟨q, hq⟩ := m.childrenOf_sublist p follow
  · exact m.nodes.contains_iff.1 hp
  · obtain ⟨c, hc, rfl⟩ := List.mem_map.1 ((namesOf_told _ _).subset hn)
    obtain ⟨n, hproper, hname, -⟩ := hm.exists_name (hq.subset hc)
    rw [hname]
    exact hproper
  · refine List.Nodup.sublist (namesOf_told _ _) ((nodup_childKeys.sublist hq).map_on ?_)
    intro c hc c' hc' h
    obtain ⟨n, -, hname, he⟩ := hm.exists_name (hq.subset hc)
    obtain ⟨n', -, hname', he'⟩ := hm.exists_name (hq.subset hc')
    obtain rfl : n = n' := by simpa [hname, hname'] using h
    have hkey {k : Path} (hk : k ∈ m.childrenOf p follow) : k ∈ m.nodes.keys :=
      (mem_childKeys.1 (hq.subset hk)).1
    exact m.nodes.eq_of_same (hkey hc) (hkey hc') (he.trans he'.symm)
  · rw [List.length_map]
    exact hq.length_le.trans (List.length_filter_le _ _)

/-- What a count does below a root: it asks for no listing twice, however the paths are spelled, and
nothing is listed but keys at or below the root. -/
structure Tour (m : Memory) (P : Plan) (root : Path) (events : List Event) : Prop where
  no_stat : ∀ p, .stat p ∉ events
  once : (events.filterMap Event.list?).Pairwise fun a b => ¬a.Same b
  below : ∀ p, .list p ∈ events → root.AtOrAbove p
  key : ∀ p entries, .list p ∈ events → P.fs.list p P.options.follow = .ok entries →
    m.nodes.contains p = true

theorem tour_nil (m : Memory) (P : Plan) (r : Path) : m.Tour P r [] :=
  ⟨nofun, .nil, nofun, nofun⟩

theorem tour_of_round {P : Plan} {s : Sight} {x : Path × List Event}
    (hkeyed : P.fs.Keyed P.options.follow m.nodes.keys) (hs : s.Within m.nodes.keys x.1)
    (h : Round s x) : m.Tour P x.1 x.2 := by
  refine ⟨h.no_stat, (s.lists_pairwise x.1 hs.neat).sublist h.lists.sublist, ?_, ?_⟩
  · intro p hp
    have hmem : p ∈ x.2.filterMap Event.list? := List.mem_filterMap.2 ⟨_, hp, rfl⟩
    obtain ⟨ns, he⟩ := s.lists_below hs.neat (h.lists.subset hmem)
    exact atOrAbove_iff.2 ⟨ns.map .name, by simp, he⟩
  · intro p entries _ hlist
    exact m.nodes.contains_iff.2 (hkeyed.key p entries hlist)

theorem effort_ample (m : Memory) (roots : Nat) :
    roots * (m.nodes.keys.length * (6 * m.nodes.keys.length + 4) + 4) + 5 < m.effort roots 0 := by
  rw [effort]
  generalize m.nodes.keys.length = n
  have hroot : n * (6 * n + 4) + 4 ≤ 8 * (n * n + 2) := by
    have hsquare : n * (6 * n + 4) = 6 * (n * n) + 4 * n := by ring
    have hless : 4 * n ≤ 2 * (n * n) + 12 := by nlinarith [Nat.le_mul_self n]
    omega
  have hroots := Nat.mul_le_mul_left roots hroot
  rw [Nat.mul_left_comm roots 8] at hroots
  omega

theorem count_ends (hm : m.Tidy) (amendments : List Amendment) (options : Options)
    (clock : Nat → Instant) (roots : List Path) :
    ∃ r, m.count amendments options clock {} roots = some r ∧
      ((∃ o, r.ending = .outcome o) ∨
        r.ending = .clockOverrun ∧ ∃ k, (clock k).add? options.interval = none) := by
  rw [count, amend_eq_retold]
  obtain ⟨r, hcount, hr⟩ := (keyed_retold hm _ _ _ options.follow).completes clock roots
  exact ⟨r, hcount _ (m.effort_ample roots.length), hr.ending⟩

/-- A count of a tree in memory that is left alone comes to its end, whatever is told of metadata
and whatever the links lead to. Root by root it asks for no listing twice and gets none but those of
keys at or below the root, so that it counts no more folders than there are keys, for each root. -/
theorem count_finite (hm : m.Tidy) (stat : Path → Bool → Except Fault EntryInfo)
    (tell : Path → Bool → Path → Except Fault EntryInfo) (refuse : Path → Bool → Option Fault)
    (options : Options) (clock : Nat → Instant) (roots : List Path) :
    let P := Plan.ofOptions (m.retold stat tell refuse) options clock roots
    ∃ r, (∀ fuel, m.effort roots.length 0 ≤ fuel → P.count fuel {} roots = some r) ∧
      ((∃ o, r.ending = .outcome o) ∨ r.ending = .clockOverrun ∧ P.Overruns) ∧
      (∃ rounds last, r.events = eventsOfRounds rounds ++ last ∧
        (∀ e ∈ last, ∃ t, e = .progress t) ∧ rounds.map Prod.fst <+: roots ∧
        ∀ x ∈ rounds, m.Tour P x.1 x.2) ∧
      ∀ t, r.ending = .outcome (.ok t) → t.folders ≤ roots.length * m.nodes.keys.length := by
  intro P
  have hkeyed := keyed_retold hm stat tell refuse options.follow
  obtain ⟨r, hcount, hend, ⟨rounds, last, hevents, hlast, hprefix, hrounds⟩, htotal⟩ :=
    hkeyed.completes clock roots
  refine ⟨r, fun fuel hfuel => hcount fuel ?_, hend,
    ⟨rounds, last, hevents, hlast, hprefix, fun x hx => ?_⟩, fun t ht => ?_⟩
  · exact Nat.lt_of_lt_of_le (m.effort_ample roots.length) hfuel
  · rcases hrounds x hx with hnil | ⟨s, hs, hround⟩
    · rw [hnil]
      exact tour_nil m P x.1
    · exact tour_of_round hkeyed hs hround
  · obtain ⟨l, rfl, hl, rfl⟩ := htotal t ht
    rw [List.length_map]
    exact folders_rootsTotal_le fun x hx => (hl x hx).folders_le

def roundTrip : Memory :=
  built ⟨"disk"⟩ [.link ⟨['/', 'a', '/', 'b']⟩ ⟨['/', 'a']⟩, .file ⟨['/', 'a', '/', 'x']⟩ 1]

theorem count_finite_sample :
    let everyFolder : EntryInfo := ⟨.folder, 0, ⟨"disk"⟩⟩
    let roots : List Path := [⟨['/', 'a']⟩, ⟨['/', 'z']⟩]
    let options : Options := { interval := ⟨0⟩, follow := true }
    let P := Plan.ofOptions (roundTrip.retold (fun _ _ => .ok everyFolder)
      (fun _ _ _ => .ok everyFolder) fun _ _ => none) options (fun _ => ⟨0⟩) roots
    roundTrip.Tidy ∧ ∃ r, (∀ fuel, roundTrip.effort 2 0 ≤ fuel → P.count fuel {} roots = some r) ∧
      r.snapshots.getLast? = some ⟨0, 0, 2, 4⟩ ∧
      (∃ rounds last, r.events = eventsOfRounds rounds ++ last ∧
        (∀ e ∈ last, ∃ t, e = .progress t) ∧ rounds.map Prod.fst <+: roots ∧
        ∀ x ∈ rounds, roundTrip.Tour P x.1 x.2) ∧
      ∀ t, r.ending = .outcome (.ok t) → t.folders ≤ 2 * roundTrip.nodes.keys.length := by
  intro everyFolder roots options P
  have htidy : roundTrip.Tidy := by decide
  obtain ⟨r, hcount, -, hrounds, hfolders⟩ := count_finite htidy (fun _ _ => .ok everyFolder)
    (fun _ _ _ => .ok everyFolder) (fun _ _ => none) options (fun _ => ⟨0⟩) roots
  have hlast : ((P.count 400 {} roots).bind fun r => r.snapshots.getLast?) = some ⟨0, 0, 2, 4⟩ := by
    decide +kernel
  rw [hcount 400 (by decide)] at hlast
  exact ⟨htidy, r, hcount, hlast, hrounds, hfolders⟩

end Memory

end TreeTally
