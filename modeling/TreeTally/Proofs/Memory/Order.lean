import TreeTally.Proofs.Memory.Effects
import TreeTally.Proofs.Memory.Hops
import TreeTally.Proofs.Memory.Spelling
import TreeTally.Proofs.Walk.Reworded

namespace TreeTally

open List (Forall₂)

namespace Memory

open TreeTally.Path

/-- The same nodes at the same paths, on the same devices. -/
structure Agrees (m m' : Memory) : Prop where
  device : m'.device = m.device
  mounts : ∀ q, m'.mounts.find? q = m.mounts.find? q
  nodes : ∀ q, m'.nodes.find? q = m.nodes.find? q

def spelled (m : Memory) (p : Path) : Path := (m.nodes.keys.find? fun k => p.Same k).getD p

/-- What a listing says of an entry it failed at, with the entry's path as it is kept. -/
def respell (m : Memory) : Fault → Fault
  | .unqueryable p => .unqueryable (m.spelled p)
  | .linkLoop p => .linkLoop (m.spelled p)
  | f => f

/-- The second tree answers as the first, save that it has its own spelling of the paths in the faults of
entries a listing fails at. -/
structure SameAnswers (m m' : Memory) : Prop where
  stat : ∀ p follow, m'.stat p follow = m.stat p follow
  list : ∀ p follow,
    m'.list p follow = (m.list p follow).map (List.map (Except.mapError m'.respell))
  count : ∀ options clock roots fuel interrupt,
    (Plan.ofOptions m'.fileSystem options clock roots).count fuel interrupt roots =
      ((Plan.ofOptions m.fileSystem options clock roots).count fuel interrupt roots).map
        (Report.reword m'.respell)
  respells : ∀ f : Fault, f.Respells (m'.respell f)

variable {m m' : Memory} {p q k origin : Path} {follow : Bool} {f : Fault}

theorem spelled_eq (hk : k ∈ m.nodes.keys) (h : p.Same k) : m.spelled p = k := by
  rw [spelled]
  cases hfound : m.nodes.keys.find? fun k => p.Same k with
  | none => exact absurd h (by simpa using List.find?_eq_none.1 hfound k hk)
  | some k' =>
      have hs : p.Same k' := by simpa using List.find?_some hfound
      exact m.nodes.eq_of_same (List.mem_of_find?_eq_some hfound) hk (hs.symm.trans h)

theorem same_spelled (m : Memory) (p : Path) : p.Same (m.spelled p) := by
  rw [spelled]
  cases hfound : m.nodes.keys.find? fun k => p.Same k with
  | none => rfl
  | some k => simpa using List.find?_some hfound

theorem eq_map_spelled {l l' : List Path} (h : Forall₂ Same l l') (hl' : ∀ k ∈ l', k ∈ m.nodes.keys) :
    l' = l.map m.spelled := by
  induction h with
  | nil => rfl
  | cons hs _ ih =>
      rw [List.forall_mem_cons] at hl'
      rw [List.map_cons, spelled_eq hl'.1 hs, ← ih hl'.2]

theorem respells_respell (m : Memory) (f : Fault) : f.Respells (m.respell f) := by
  cases f with
  | unqueryable p => exact .unqueryable (m.same_spelled p)
  | linkLoop p => exact .linkLoop (m.same_spelled p)
  | _ => exact .refl _

namespace Agrees

theorem respells (h : m.Agrees m') : m.Respells m' :=
  ⟨h.device, .of_find? fun q => (h.mounts q).symm, .of_find? fun q => (h.nodes q).symm⟩

theorem deviceOf (h : m.Agrees m') (p : Path) : m'.deviceOf p = m.deviceOf p :=
  h.respells.deviceOf rfl

theorem contains (h : m.Agrees m') (p : Path) : m'.nodes.contains p = m.nodes.contains p := by
  rw [Map.contains, Map.contains, h.nodes]

theorem look (h : m.Agrees m') (p : Path) : m'.look p = m.look p := by
  rw [Memory.look, Memory.look, h.nodes]

theorem chase (h : m.Agrees m') (steps : Nat) (p : Path) :
    m'.chase origin steps p = m.chase origin steps p := by
  induction steps generalizing p with
  | zero => rfl
  | succ steps ih =>
      rw [Memory.chase, Memory.chase, h.look]
      simp only [h.contains, ih]

theorem resolve (h : m.Agrees m') (p : Path) : m'.resolve p follow = m.resolve p follow := by
  rw [Memory.resolve, Memory.resolve, h.chase]

theorem stat (h : m.Agrees m') (p : Path) (follow : Bool) : m'.stat p follow = m.stat p follow := by
  rw [Memory.stat, Memory.stat, h.look, h.resolve]
  simp only [h.look, h.deviceOf]

theorem childKeys (h : m.Agrees m') (p : Path) :
    m'.childKeys p = (m.childKeys p).map m'.spelled :=
  eq_map_spelled (h.respells.childKeys rfl) fun _ hk => List.mem_of_mem_filter hk

theorem listed (h : m.Agrees m') (hk : m.nodes.contains k = true) :
    m'.listed follow (m'.spelled k) = (m.listed follow k).mapError m'.respell := by
  have hs := m'.same_spelled k
  have hk' : m'.nodes.contains (m'.spelled k) = true := by
    rw [h.contains, ← m.nodes.contains_congr hs, hk]
  have hstat : Alike Fault.Respells Eq (m.stat k follow) (m'.stat (m'.spelled k) follow) :=
    h.respells.stat hs
  rw [Memory.listed, Memory.listed, fileName?_congr hs]
  generalize ha : m.stat k follow = a, hb : m'.stat (m'.spelled k) follow = b at hstat
  cases hstat with
  | ok hi =>
      subst hi
      rfl
  | error hf =>
      -- Both say the same, each of its own spelling.
      rcases stat_error hk ha with rfl | rfl <;> rcases stat_error hk' hb with rfl | rfl
      · rfl
      · cases hf
      · cases hf
      · rfl

theorem list (h : m.Agrees m') (p : Path) (follow : Bool) :
    m'.list p follow = (m.list p follow).map (List.map (Except.mapError m'.respell)) := by
  cases hr : m.resolve p follow with
  | error f =>
      rw [Memory.list, Memory.list, h.resolve, hr]
      rfl
  | ok q =>
      have hr' := (h.resolve p).trans hr
      cases hn : m.nodes.find? q with
      | none =>
          have hlook : m.look q = .error (.missing q) := by rw [Memory.look, hn]
          rw [Memory.list, Memory.list, hr, hr']
          simp [bind, Except.bind, h.look, hlook, Except.map]
      | some n =>
          have hn' := (h.nodes q).trans hn
          by_cases hk : n.content.kind = .folder
          · rw [list_of_resolve hr hn hk, list_of_resolve hr' hn' hk, h.childKeys]
            split
            · refine congrArg Except.ok ?_
              rw [List.map_map, List.map_map]
              refine List.map_congr_left fun k hk => h.listed ?_
              exact m.nodes.contains_iff.2 ⟨k, List.mem_of_mem_filter hk, rfl⟩
            · rfl
          · rw [list_leaf hr hn hk, list_leaf hr' hn' hk]
            rfl

theorem sameAnswers (h : m.Agrees m') : m.SameAnswers m' := by
  refine ⟨h.stat, h.list, fun options clock roots fuel interrupt => ?_, m'.respells_respell⟩
  have hfs : m'.fileSystem = m.fileSystem.reword m'.respell := by
    rw [fileSystem, fileSystem, FileSystem.reword]
    congr 1
    · exact funext fun p => funext (h.stat p)
    · exact funext fun p => funext (h.list p)
  rw [hfs, ← Plan.count_reword]
  rfl

end Agrees

theorem reaches_of_callsAt {calls calls' : List Build}
    (hcalls : ∀ q, callsAt q calls = callsAt q calls') (h : ∃ c ∈ calls, c.Reaches q) :
    ∃ c ∈ calls', c.Reaches q := by
  obtain ⟨c, hc, hq⟩ := h
  have hmem : c ∈ callsAt c.path calls := List.mem_filter.2 ⟨hc, decide_eq_true rfl⟩
  rw [hcalls] at hmem
  exact ⟨c, List.mem_of_mem_filter hmem, hq⟩

theorem agrees_foldl_build {calls calls' : List Build} (h : m.Closed) (hg : Grounded m calls)
    (hg' : Grounded m calls') (hcalls : ∀ q, callsAt q calls = callsAt q calls') :
    (calls.foldl build m).Agrees (calls'.foldl build m) where
  device := by rw [device_foldl_build, device_foldl_build]
  mounts q := by rw [find?_mounts_foldl_build, find?_mounts_foldl_build, hcalls]
  nodes q := by
    have hreach : (∃ c ∈ calls', c.Reaches q) ↔ ∃ c ∈ calls, c.Reaches q :=
      ⟨reaches_of_callsAt fun q => (hcalls q).symm, reaches_of_callsAt hcalls⟩
    rw [find?_foldl_build h hg, find?_foldl_build h hg', hcalls]
    simp only [hreach]

theorem built_append (d : DeviceId) (before calls : List Build) :
    built d (before ++ calls) = calls.foldl build (built d before) := List.foldl_append

/-- Calls at different paths are in no order that can be told at one path. -/
theorem callsAt_perm {calls calls' : List Build} (hp : calls.Perm calls')
    (hne : calls.Pairwise fun c c' => ¬c.path.Same c'.path) (q : Path) :
    callsAt q calls = callsAt q calls' := by
  have hat : (callsAt q calls).Perm (callsAt q calls') := hp.filter _
  cases hcalls : callsAt q calls with
  | nil => exact (List.nil_perm.1 (hcalls ▸ hat)).symm
  | cons c rest =>
      cases rest with
      | nil => exact (List.singleton_perm.1 (hcalls ▸ hat))
      | cons c' rest =>
          have hsame (x : Build) (hx : x ∈ callsAt q calls) : q.Same x.path :=
            of_decide_eq_true (List.mem_filter.1 hx).2
          have hpair : (callsAt q calls).Pairwise fun c c' => ¬c.path.Same c'.path := hne.filter _
          rw [hcalls] at hpair hsame
          have hc := hsame c List.mem_cons_self
          have hc' := hsame c' (List.mem_cons_of_mem _ List.mem_cons_self)
          exact absurd (hc.symm.trans hc') ((List.pairwise_cons.1 hpair).1 c' List.mem_cons_self)

theorem grounded_pair {c c' : Build} (hc : c.Grounded m) (hc' : c'.Grounded m) :
    Grounded m [c, c'] := by
  refine ⟨hc, ?_, trivial⟩
  cases c' with
  | broken p => exact contains_build hc' c
  | _ => trivial

/-- Calls at different paths may be made in any order, two of them or many. -/
theorem built_reordered (d : DeviceId) (before : List Build) :
    (∀ c c', ¬c.path.Same c'.path → c.Grounded (built d before) → c'.Grounded (built d before) →
      (built d (before ++ [c, c'])).SameAnswers (built d (before ++ [c', c]))) ∧
    ∀ calls calls', Grounded (built d before) calls → Grounded (built d before) calls' →
      (∀ q, callsAt q calls = callsAt q calls') →
      (built d (before ++ calls)).SameAnswers (built d (before ++ calls')) := by
  have hmany (calls calls' : List Build) (hg : Grounded (built d before) calls)
      (hg' : Grounded (built d before) calls') (hcalls : ∀ q, callsAt q calls = callsAt q calls') :
      (built d (before ++ calls)).SameAnswers (built d (before ++ calls')) := by
    rw [built_append, built_append]
    exact (agrees_foldl_build (closed_built d before) hg hg' hcalls).sameAnswers
  refine ⟨fun c c' hne hc hc' => ?_, hmany⟩
  exact hmany _ _ (grounded_pair hc hc') (grounded_pair hc' hc)
    (callsAt_perm (.swap ..) (List.pairwise_pair.2 hne))

/-- A link to itself that is first needed as a folder, on the way to an entry below it, or first made as
the link it is; and more calls, in two orders. -/
theorem built_reordered_loop :
    let below : Build := .folder ⟨['/', 'a', '/', '/', 'b', '/', 'c']⟩
    let loop : Build := .link ⟨['/', 'a', '/', 'b']⟩ ⟨['/', 'a', '/', 'b']⟩
    let mark : Build := .broken ⟨['/', 'f']⟩
    let before : List Build := [.file ⟨['/', 'f']⟩ 3]
    ¬below.path.Same loop.path ∧ mark.Grounded (built ⟨"disk"⟩ before) ∧
      (built ⟨"disk"⟩ (before ++ [below, loop])).SameAnswers
        (built ⟨"disk"⟩ (before ++ [loop, below])) ∧
      (built ⟨"disk"⟩ (before ++ [loop, below, mark])).SameAnswers
        (built ⟨"disk"⟩ (before ++ [mark, below, loop])) := by
  intro below loop mark before
  have hmark : mark.Grounded (built ⟨"disk"⟩ before) := rfl
  obtain ⟨htwo, hmany⟩ := built_reordered ⟨"disk"⟩ before
  refine ⟨by decide, hmark, htwo below loop (by decide) trivial trivial, ?_⟩
  refine hmany [loop, below, mark] [mark, below, loop] ⟨trivial, trivial, rfl, trivial⟩
    ⟨hmark, trivial, trivial, trivial⟩ (callsAt_perm (List.reverse_perm _).symm (by decide))

/-- In one order and the other the loop is found under different texts. -/
theorem order_shows : ¬∀ (d : DeviceId) (before : List Build) (c c' : Build),
    ¬c.path.Same c'.path → c.Grounded (built d before) → c'.Grounded (built d before) →
      ∀ p follow, (built d (before ++ [c, c'])).list p follow =
        (built d (before ++ [c', c])).list p follow := by
  intro h
  have hlist := h ⟨"disk"⟩ [] (.folder ⟨['/', 'a', '/', '/', 'b', '/', 'c']⟩)
    (.link ⟨['/', 'a', '/', 'b']⟩ ⟨['/', 'a', '/', 'b']⟩) (by decide) trivial trivial ⟨['/', 'a']⟩ true
  have htexts : Except.ok [Except.error (.linkLoop ⟨['/', 'a', '/', '/', 'b']⟩)] =
      (Except.ok [Except.error (.linkLoop ⟨['/', 'a', '/', 'b']⟩)] : Except Fault (List Listed)) :=
    hlist
  simp at htexts

end Memory

end TreeTally
