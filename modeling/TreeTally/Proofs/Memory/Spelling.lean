import TreeTally.Proofs.Memory.Visible
import TreeTally.Proofs.Walk.Ended
import TreeTally.Proofs.Walk.Respelled

namespace TreeTally

open List (Forall₂)

namespace Memory

open TreeTally.Path

/-- The same call with its path spelled otherwise. What a link leads to keeps its text, which is what
the link's size comes from. -/
inductive Build.Respells : Build → Build → Prop
  | folder {p q : Path} (h : p.Same q) : Respells (.folder p) (.folder q)
  | file {p q : Path} (h : p.Same q) (size : Nat) : Respells (.file p size) (.file q size)
  | link {p q : Path} (h : p.Same q) (target : Path) : Respells (.link p target) (.link q target)
  | mount {p q : Path} (h : p.Same q) (d : DeviceId) : Respells (.mount p d) (.mount q d)
  | unreadable {p q : Path} (h : p.Same q) : Respells (.unreadable p) (.unreadable q)
  | broken {p q : Path} (h : p.Same q) : Respells (.broken p) (.broken q)

structure Respells (m m' : Memory) : Prop where
  device : m'.device = m.device
  mounts : m.mounts.Respells m'.mounts
  nodes : m.nodes.Respells m'.nodes

theorem enclosing_same {p q : Path} (h : p.Same q) : Forall₂ Same (enclosing p) (enclosing q) := by
  have hparts (r : Path) :
      (enclosing r).map parts = (Part.chain r.parts.reverse).filter fun v => v ≠ [] := by
    rw [enclosing_eq_filter, parts, ← map_parts_above (List.append_nil r.marks).symm, List.filter_map]
    rfl
  rw [forall₂_same, hparts, hparts, show p.parts = q.parts from h]

namespace Respells

variable {m m' : Memory} {p q origin origin' : Path} {follow : Bool}

theorem put (hm : m.Respells m') (h : p.Same q) (n : Node) : (m.put p n).Respells (m'.put q n) := by
  have hfolders := List.rel_foldl (P := Map.Respells) (R := Same)
    (fun _ _ hl _ _ hk => hl.insertNew (a := ⟨.folder, true, true⟩) hk) hm.nodes (enclosing_same h)
  exact ⟨hm.device, hm.mounts, hfolders.insert h⟩

theorem putNew (hm : m.Respells m') (h : p.Same q) (n : Node) :
    (if m.nodes.contains p then m else m.put p n).Respells
      (if m'.nodes.contains q then m' else m'.put q n) := by
  rw [hm.nodes.contains h]
  split
  · exact hm
  · exact hm.put h n

theorem modify (hm : m.Respells m') (h : p.Same q) (f : Node → Node) :
    Memory.Respells { m with nodes := m.nodes.modify p f }
      { m' with nodes := m'.nodes.modify q f } :=
  ⟨hm.device, hm.mounts, hm.nodes.modify h f⟩

theorem build {c c' : Build} (hm : m.Respells m') (hc : c.Respells c') :
    (m.build c).Respells (m'.build c') := by
  cases hc with
  | folder h => exact hm.put h _
  | file h n => exact hm.put h _
  | link h target => exact hm.put h _
  | mount h d =>
      have hfolder := hm.put h { content := .folder }
      exact ⟨hfolder.device, hfolder.mounts.insert h, hfolder.nodes⟩
  | unreadable h => exact (hm.putNew h _).modify h _
  | broken h => exact (hm.putNew h _).modify h _

theorem built (d : DeviceId) {calls calls' : List Build} (h : Forall₂ Build.Respells calls calls') :
    (built d calls).Respells (built d calls') := by
  have hnew : (new d).Respells (new d) := ⟨rfl, .nil, .nil⟩
  exact List.rel_foldl (fun _ _ hm _ _ hc => hm.build hc) hnew h

theorem deviceOf (hm : m.Respells m') (h : p.Same q) : m'.deviceOf q = m.deviceOf p := by
  have hmounts : m.mounts.find? = m'.mounts.find? := by
    funext r
    exact hm.mounts.find? rfl
  rw [deviceOf_congr h, Memory.deviceOf, Memory.deviceOf, hmounts, hm.device]

theorem look (hm : m.Respells m') (h : p.Same q) :
    Alike Fault.Respells Eq (m.look p) (m'.look q) := by
  rw [Memory.look, Memory.look, hm.nodes.find? h]
  cases m'.nodes.find? q with
  | none => exact .error (.missing h)
  | some n => exact .ok rfl

theorem chase (hm : m.Respells m') (ho : origin.Same origin') (h : p.Same q) (steps : Nat) :
    Alike Fault.Respells Same (m.chase origin steps p) (m'.chase origin' steps q) := by
  induction steps generalizing p q with
  | zero => exact .error (.linkLoop ho)
  | succ steps ih =>
      rw [Memory.chase, Memory.chase]
      apply (hm.look h).bind
      rintro n _ rfl
      cases n.content with
      | folder => exact .ok h
      | file => exact .ok h
      | link target =>
          dsimp only
          rw [hm.nodes.contains (rfl : target.Same target)]
          split
          · exact ih rfl
          · exact .ok h

theorem resolve (hm : m.Respells m') (h : p.Same q) :
    Alike Fault.Respells Same (m.resolve p follow) (m'.resolve q follow) := by
  cases follow with
  | false => exact .ok h
  | true => exact hm.chase h h _

theorem stat (hm : m.Respells m') (h : p.Same q) :
    Alike Fault.Respells Eq (m.stat p follow) (m'.stat q follow) := by
  rw [Memory.stat, Memory.stat]
  apply (hm.look h).bind
  rintro n _ rfl
  dsimp only
  split
  · apply (hm.resolve h).bind
    intro r r' hr
    apply (hm.look hr).bind
    rintro n' _ rfl
    rw [hm.deviceOf hr]
    exact .ok rfl
  · exact .error (.unqueryable h)

theorem childKeys (hm : m.Respells m') (h : p.Same q) :
    Forall₂ Same (m.childKeys p) (m'.childKeys q) :=
  List.rel_filter (fun _ _ hk => parent?_same_congr h hk) hm.nodes.keys

theorem listed (hm : m.Respells m') (h : p.Same q) :
    Listed.Respells (m.listed follow p) (m'.listed follow q) := by
  have hstat : Alike Fault.Respells Eq (m.stat p follow) (m'.stat q follow) := hm.stat h
  rw [Memory.listed, Memory.listed, fileName?_congr h]
  generalize m.stat p follow = a, m'.stat q follow = b at hstat
  cases hstat with
  | error hf => exact .failed hf
  | @ok i _ hi =>
      subst hi
      exact .told ⟨_, i⟩ q.nameless_or_proper

theorem list (hm : m.Respells m') (h : p.Same q) :
    Alike Fault.Respells (Forall₂ Listed.Respells) (m.list p follow) (m'.list q follow) := by
  rw [Memory.list, Memory.list]
  apply (hm.resolve h).bind
  intro r r' hr
  apply (hm.look hr).bind
  rintro n _ rfl
  dsimp only
  split
  · split
    · apply Alike.ok
      apply List.rel_map _ (hm.childKeys hr)
      exact fun _ _ hk => hm.listed hk
    · exact .error (.denied h)
  · exact .error (.notDirectory h)

theorem fileSystem (hm : m.Respells m') (follow : Bool) :
    m.fileSystem.Respells m'.fileSystem follow :=
  ⟨fun _ _ h => hm.stat h, fun _ _ h => hm.list h⟩

end Respells

/-- However the paths of a tree's calls, of questions and of roots are spelled, all answers and counts are
the same, but for the texts of the paths they were met at. -/
theorem built_respelled (d : DeviceId) {calls calls' : List Build}
    (hcalls : Forall₂ Build.Respells calls calls') :
    let m := built d calls
    let m' := built d calls'
    (∀ (p q : Path) (follow : Bool), p.Same q →
      Alike Fault.Respells Eq (m.stat p follow) (m'.stat q follow)) ∧
    (∀ (p q : Path) (follow : Bool), p.Same q →
      Alike Fault.Respells (Forall₂ (Alike Fault.Respells Eq)) (m.list p follow) (m'.list q follow)) ∧
    (∀ (options : Options) (clock : Nat → Instant) (roots roots' : List Path) (fuel : Nat)
      (interrupt : Interrupt), Forall₂ Same roots roots' →
      Option.Rel (fun r r' => r.Respells r' ∧ r'.snapshots = r.snapshots)
        ((Plan.ofOptions m.fileSystem options clock roots).count fuel interrupt roots)
        ((Plan.ofOptions m'.fileSystem options clock roots').count fuel interrupt roots')) ∧
    ∀ f g : Fault, f.Respells g → g.kind = f.kind := by
  intro m m'
  have hm : m.Respells m' := .built d hcalls
  refine ⟨fun p q follow h => hm.stat h, fun p q follow h => ?_, ?_, fun f g h => h.kind_eq⟩
  · apply (hm.list h).imp
    intro l l' hl
    exact hl.imp fun _ _ he => he.alike
  · intro options clock roots roots' fuel interrupt h
    have hP : (Plan.ofOptions m.fileSystem options clock roots).Respells
        (Plan.ofOptions m'.fileSystem options clock roots') := by
      refine ⟨hm.fileSystem options.follow, rfl, rfl, ?_⟩
      rw [Plan.ofOptions, Plan.ofOptions, h.length_eq]
    have hrel := hP.count h fuel interrupt
    generalize (Plan.ofOptions m.fileSystem options clock roots).count fuel interrupt roots = o,
      (Plan.ofOptions m'.fileSystem options clock roots').count fuel interrupt roots' = o' at hrel
    cases hrel with
    | none => exact .none
    | some hr => exact .some ⟨hr, hr.snapshots_eq⟩

theorem built_respelled_slashes :
    let calls : List Build := [.file ⟨['/', 'r', '/', 'a']⟩ 5, .link ⟨['/', 'r', '/', 'l']⟩ ⟨['/', 'r']⟩,
      .unreadable ⟨['/', 'r', '/', 'd']⟩]
    let calls' : List Build := [.file ⟨['/', 'r', '/', '/', 'a']⟩ 5,
      .link ⟨['/', '/', 'r', '/', 'l', '/']⟩ ⟨['/', 'r']⟩, .unreadable ⟨['/', 'r', '/', '.', '/', 'd']⟩]
    let count (calls : List Build) (r : Path) : Option Report :=
      (Plan.ofOptions (built ⟨"disk"⟩ calls).fileSystem {} (fun _ => ⟨0⟩) [r]).count 60 {} [r]
    Forall₂ Build.Respells calls calls' ∧ ∃ r r', count calls ⟨['/', 'r']⟩ = some r ∧
      count calls' ⟨['/', 'r', '/']⟩ = some r' ∧ r.Respells r' ∧ r.total? = some ⟨7, 2, 1, 1⟩ := by
  intro calls calls' count
  have hcalls : Forall₂ Build.Respells calls calls' :=
    .cons (.file (by decide) 5) (.cons (.link (by decide) _) (.cons (.unreadable (by decide)) .nil))
  have hroots : Forall₂ Same [⟨['/', 'r']⟩] [⟨['/', 'r', '/']⟩] := .cons (by decide) .nil
  have hrun : (count calls ⟨['/', 'r']⟩).bind Report.total? = some ⟨7, 2, 1, 1⟩ := by decide +kernel
  obtain ⟨r, hcount, htotal⟩ := Option.bind_eq_some_iff.1 hrun
  have hboth : Option.Rel (fun r r' => r.Respells r' ∧ r'.snapshots = r.snapshots)
      (count calls ⟨['/', 'r']⟩) (count calls' ⟨['/', 'r', '/']⟩) :=
    (built_respelled ⟨"disk"⟩ hcalls).2.2.1 {} _ _ _ 60 {} hroots
  rw [hcount] at hboth
  generalize hcount' : count calls' ⟨['/', 'r', '/']⟩ = o at hboth
  cases hboth with
  | some hr => exact ⟨hcalls, r, _, hcount, rfl, hr.1, htotal⟩

end Memory

end TreeTally
