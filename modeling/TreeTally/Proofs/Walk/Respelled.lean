import Mathlib.Data.List.Forall2
import TreeTally.Proofs.Path.Parts
import TreeTally.Proofs.Walk.Advance

namespace TreeTally

open List (Forall₂)

/-- Both come to something, or both fail, and alike. -/
inductive Alike {ε α β : Type} (E : ε → ε → Prop) (R : α → β → Prop) :
    Except ε α → Except ε β → Prop
  | ok {a : α} {b : β} (h : R a b) : Alike E R (.ok a) (.ok b)
  | error {e e' : ε} (h : E e e') : Alike E R (.error e) (.error e')

theorem Alike.bind {ε α β α' β' : Type} {E : ε → ε → Prop} {R : α → β → Prop}
    {S : α' → β' → Prop} {x : Except ε α} {y : Except ε β} {f : α → Except ε α'}
    {g : β → Except ε β'} (h : Alike E R x y) (hfg : ∀ a b, R a b → Alike E S (f a) (g b)) :
    Alike E S (x >>= f) (y >>= g) := by
  cases h with
  | ok hab => exact hfg _ _ hab
  | error he => exact .error he

theorem Alike.imp {ε α β : Type} {E : ε → ε → Prop} {R S : α → β → Prop} {x : Except ε α}
    {y : Except ε β} (h : Alike E R x y) (hRS : ∀ a b, R a b → S a b) : Alike E S x y := by
  cases h with
  | ok hab => exact .ok (hRS _ _ hab)
  | error he => exact .error he

inductive Fault.Respells : Fault → Fault → Prop
  | missing {p q : Path} (h : p.Same q) : Respells (.missing p) (.missing q)
  | linkLoop {p q : Path} (h : p.Same q) : Respells (.linkLoop p) (.linkLoop q)
  | unqueryable {p q : Path} (h : p.Same q) : Respells (.unqueryable p) (.unqueryable q)
  | notDirectory {p q : Path} (h : p.Same q) : Respells (.notDirectory p) (.notDirectory q)
  | denied {p q : Path} (h : p.Same q) : Respells (.denied p) (.denied q)
  | system (code : SystemCode) : Respells (.system code) (.system code)
  | nulInName : Respells .nulInName .nulInName
  | visiting {p q : Path} {f g : Fault} (h : p.Same q) (hf : Respells f g) :
      Respells (.visiting p f) (.visiting q g)
  | custom (kind : FaultKind) (message : String) :
      Respells (.custom kind message) (.custom kind message)

theorem Fault.Respells.refl (f : Fault) : f.Respells f := by
  induction f with
  | missing => exact .missing rfl
  | linkLoop => exact .linkLoop rfl
  | unqueryable => exact .unqueryable rfl
  | notDirectory => exact .notDirectory rfl
  | denied => exact .denied rfl
  | system => exact .system _
  | nulInName => exact .nulInName
  | visiting _ _ ih => exact .visiting rfl ih
  | custom => exact .custom _ _

theorem Fault.Respells.kind_eq {f g : Fault} (h : f.Respells g) : g.kind = f.kind := by
  induction h with
  | visiting _ _ ih => exact ih
  | _ => rfl

inductive Failure.Respells : Failure → Failure → Prop
  | cancelled (soFar : Tally) : Respells (.cancelled soFar) (.cancelled soFar)
  | unreadable {p q : Path} {f g : Fault} (h : p.Same q) (hf : f.Respells g) :
      Respells (.unreadable p f) (.unreadable q g)

inductive Event.Respells : Event → Event → Prop
  | stat {p q : Path} (h : p.Same q) : Respells (.stat p) (.stat q)
  | list {p q : Path} (h : p.Same q) : Respells (.list p) (.list q)
  | child {p q : Path} (h : p.Same q) (n : List Char) : Respells (.child p n) (.child q n)
  | bad {p q : Path} {f g : Fault} (h : p.Same q) (hf : f.Respells g) :
      Respells (.bad p f) (.bad q g)
  | finish {p q : Path} (h : p.Same q) : Respells (.finish p) (.finish q)
  | progress (t : Tally) : Respells (.progress t) (.progress t)

inductive LogMessage.Respells : LogMessage → LogMessage → Prop
  | otherDevice {p q : Path} (h : p.Same q) : Respells (.otherDevice p) (.otherDevice q)
  | unreadableFolder {p q : Path} {f g : Fault} (h : p.Same q) (hf : f.Respells g) :
      Respells (.unreadableFolder p f) (.unreadableFolder q g)
  | skippedEntry {p q : Path} {f g : Fault} (h : p.Same q) (hf : f.Respells g) :
      Respells (.skippedEntry p f) (.skippedEntry q g)

inductive Signal.Respells : Signal → Signal → Prop
  | event {e e' : Event} (h : e.Respells e') : Respells (.event e) (.event e')
  | log {m m' : LogMessage} (h : m.Respells m') : Respells (.log m) (.log m')

inductive Ending.Respells : Ending → Ending → Prop
  | outcome {o o' : Outcome} (h : Alike Failure.Respells Eq o o') :
      Respells (.outcome o) (.outcome o')
  | clockOverrun : Respells .clockOverrun .clockOverrun

structure Report.Respells (r r' : Report) : Prop where
  signals : Forall₂ Signal.Respells r.signals r'.signals
  ending : r.ending.Respells r'.ending

/-- An entry of a listing, whose name leads to the same path from any spelling of the folder's. -/
inductive Listed.Respells : Listed → Listed → Prop
  | told (c : Child) (h : c.name = [] ∨ Proper c.name) : Respells (.ok c) (.ok c)
  | failed {f g : Fault} (h : f.Respells g) : Respells (.error f) (.error g)

theorem Listed.Respells.alike {e e' : Listed} (h : Listed.Respells e e') :
    Alike Fault.Respells Eq e e' := by
  cases h with
  | told c _ => exact .ok rfl
  | failed hf => exact .error hf

inductive Frame.Respells : Frame → Frame → Prop
  | mk {p q : Path} {l l' : List Listed} (h : p.Same q) (d : DeviceId)
      (hl : Forall₂ Listed.Respells l l') : Respells ⟨p, d, l⟩ ⟨q, d, l'⟩

inductive Stage.Respells : Stage → Stage → Prop
  | start : Respells .start .start
  | visit {p q : Path} (h : p.Same q) (info : Option EntryInfo) :
      Respells (.visit p info) (.visit q info)
  | inspect {p q : Path} {a b : Except Fault EntryInfo} (h : p.Same q)
      (ha : Alike Fault.Respells Eq a b) : Respells (.inspect p a) (.inspect q b)
  | opened {p q : Path} {a b : Except Fault (List Listed)} (h : p.Same q) (d : DeviceId)
      (ha : Alike Fault.Respells (Forall₂ Listed.Respells) a b) :
      Respells (.opened p d a) (.opened q d b)
  | refused {p q : Path} {f g : Fault} (h : p.Same q) (hf : f.Respells g) :
      Respells (.refused p f) (.refused q g)
  | pull : Respells .pull .pull
  | received {p q : Path} {e e' : Listed} (h : p.Same q) (he : Listed.Respells e e') :
      Respells (.received p e) (.received q e')
  | leave : Respells .leave .leave
  | closing : Respells .closing .closing
  | done {e e' : Ending} (h : e.Respells e') : Respells (.done e) (.done e')

inductive Walk.Respells : Walk → Walk → Prop
  | mk {s s' : Stage} {fs fs' : List Frame} {rs rs' : List Path} (hs : s.Respells s')
      (hfs : Forall₂ Frame.Respells fs fs') (hrs : Forall₂ Path.Same rs rs') (t : Tally)
      (th : Throttle) (n : Nat) : Respells ⟨s, fs, rs, t, th, n⟩ ⟨s', fs', rs', t, th, n⟩

/-- Two file systems that show one tree, each under its own spelling of the paths. -/
structure FileSystem.Respells (fs fs' : FileSystem) (follow : Bool) : Prop where
  stat : ∀ p p', p.Same p' → Alike Fault.Respells Eq (fs.stat p follow) (fs'.stat p' follow)
  list : ∀ p p', p.Same p' →
    Alike Fault.Respells (Forall₂ Listed.Respells) (fs.list p follow) (fs'.list p' follow)

structure Plan.Respells (P P' : Plan) : Prop where
  fs : P.fs.Respells P'.fs P.options.follow
  options : P'.options = P.options
  clock : P'.clock = P.clock
  lone : P'.lone = P.lone

theorem Report.Respells.snapshots_eq {r r' : Report} (h : r.Respells r') :
    r'.snapshots = r.snapshots := by
  have hevents : Forall₂ Event.Respells r.events r'.events := by
    refine List.rel_filterMap (fun s s' hs => ?_) h.signals
    cases hs with
    | event he => exact .some he
    | log _ => exact .none
  have hsnapshots : Forall₂ Eq r.snapshots r'.snapshots := by
    refine List.rel_filterMap (fun e e' he => ?_) hevents
    cases he with
    | progress t => exact .some rfl
    | _ => exact .none
  exact (List.forall₂_eq_eq_eq ▸ hsnapshots).symm

theorem Report.Respells.tell {o o' : Option Report} {s s' : Signal} (hs : s.Respells s')
    (h : Option.Rel Report.Respells o o') :
    Option.Rel Report.Respells (o.map fun r => ⟨s :: r.signals, r.ending⟩)
      (o'.map fun r => ⟨s' :: r.signals, r.ending⟩) := by
  cases h with
  | none => exact .none
  | some hr => exact .some ⟨.cons hs hr.signals, hr.ending⟩

/-- Two steps to walks that go on alike, with signals alike. -/
def StepsAlike (x y : Walk × Option Signal) : Prop :=
  x.1.Respells y.1 ∧ Option.Rel Signal.Respells x.2 y.2

namespace Walk.Respells

variable {P P' : Plan} {w w' : Walk} {p p' : Path}

theorem enter {s s' : Stage} (h : w.Respells w') (hs : s.Respells s') :
    Walk.Respells { w with stage := s } { w' with stage := s' } := by
  obtain ⟨-, hfs, hrs, t, th, n⟩ := h
  exact ⟨hs, hfs, hrs, t, th, n⟩

theorem counting (h : w.Respells w') (add : Tally → Tally) :
    Walk.Respells { w with tally := add w.tally } { w' with tally := add w'.tally } := by
  obtain ⟨hs, hfs, hrs, t, th, n⟩ := h
  exact ⟨hs, hfs, hrs, add t, th, n⟩

theorem resume (h : w.Respells w') : w.resume.Respells w'.resume := by
  obtain ⟨hs, hfs, hrs, t, th, n⟩ := h
  cases hfs with
  | cons hf hfs => exact ⟨.pull, .cons hf hfs, hrs, t, th, n⟩
  | nil =>
      cases hrs with
      | nil => exact ⟨.closing, .nil, .nil, t, th, n⟩
      | cons hr hrs => exact ⟨.visit hr none, .nil, hrs, t, th, n⟩

theorem stop {o o' : Outcome} (h : w.Respells w') (ho : Alike Failure.Respells Eq o o') :
    (w.stop o).Respells (w'.stop o') := h.enter (.done (.outcome ho))

theorem cancel (h : w.Respells w') : w.cancel.Respells w'.cancel := by
  obtain ⟨hs, hfs, hrs, t, th, n⟩ := h
  exact ⟨.done (.outcome (.error (.cancelled t))), hfs, hrs, t, th, n⟩

theorem readsToken (h : w.Respells w') : w'.stage.readsToken = w.stage.readsToken := by
  obtain ⟨hs, -⟩ := h
  cases hs <;> rfl

theorem finished (h : w.Respells w') :
    (∃ e e', w.stage = .done e ∧ w'.stage = .done e' ∧ e.Respells e') ∨
      w.finished? = none ∧ w'.finished? = none := by
  obtain ⟨hs, -⟩ := h
  cases hs with
  | done he => exact .inl ⟨_, _, rfl, rfl, he⟩
  | _ => exact .inr ⟨rfl, rfl⟩

theorem home (h : w.Respells w') (d : DeviceId) :
    (w'.frames.head?.map (·.device)).getD d = (w.frames.head?.map (·.device)).getD d := by
  obtain ⟨-, hfs, -⟩ := h
  cases hfs with
  | nil => rfl
  | cons hf _ =>
      cases hf
      rfl

theorem inspect (hP : P.Respells P') (h : w.Respells w') (hp : p.Same p') (i : EntryInfo) :
    StepsAlike (w.inspect P p i) (w'.inspect P' p' i) := by
  rw [Walk.inspect, Walk.inspect, h.home, hP.options]
  by_cases hd : (w.frames.head?.map (·.device)).getD i.device ≠ i.device
  · rw [if_pos hd, if_pos hd]
    exact ⟨h.resume, .some (.log (.otherDevice hp))⟩
  rw [if_neg hd, if_neg hd]
  by_cases hk : i.kind = .folder
  · rw [if_pos hk, if_pos hk]
    exact ⟨h.enter (.opened hp _ (hP.fs.list p p' hp)), .some (.event (.list hp))⟩
  · rw [if_neg hk, if_neg hk]
    exact ⟨(h.counting (·.addFile i.size)).resume, .none⟩

theorem opened (hP : P.Respells P') (h : w.Respells w') (hp : p.Same p') (d : DeviceId)
    {a b : Except Fault (List Listed)} (ha : Alike Fault.Respells (Forall₂ Listed.Respells) a b) :
    StepsAlike (w.opened P p d a) (w'.opened P' p' d b) := by
  cases ha with
  | ok hl =>
      obtain ⟨-, hfs, hrs, t, th, n⟩ := h
      exact ⟨⟨.pull, .cons ⟨hp, d, hl⟩ hfs, hrs, t.addFolder, th, n⟩, .none⟩
  | error hf =>
      have hcounted := h.counting (·.addUnreadable)
      have hempty : w'.frames.isEmpty = w.frames.isEmpty := by
        obtain ⟨-, hfs, -⟩ := h
        cases hfs <;> rfl
      rw [Walk.opened, Walk.opened, hP.lone]
      simp only [hempty]
      split
      · exact ⟨hcounted.enter (.refused hp hf), .none⟩
      · exact ⟨hcounted.enter .leave, .some (.log (.unreadableFolder hp hf))⟩

theorem pull (h : w.Respells w') : StepsAlike w.pull w'.pull := by
  have hresume := h.resume
  obtain ⟨hs, hfs, hrs, t, th, n⟩ := h
  cases hfs with
  | nil => exact ⟨hresume, .none⟩
  | cons hf hfs =>
      obtain ⟨hp, d, hl⟩ := hf
      cases hl with
      | nil => exact ⟨⟨.leave, hfs, hrs, t, th, n⟩, .some (.event (.finish hp))⟩
      | cons he hl =>
          refine ⟨⟨.received hp he, .cons ⟨hp, d, hl⟩ hfs, hrs, t, th, n⟩, ?_⟩
          cases he with
          | told c _ => exact .some (.event (.child hp c.name))
          | failed hf => exact .some (.event (.bad hp hf))

theorem leave (hP : P.Respells P') (h : w.Respells w') :
    StepsAlike (w.leave P) (w'.leave P') := by
  obtain ⟨hs, hfs, hrs, t, th, n⟩ := h
  rw [Walk.leave, Walk.leave, hP.clock]
  dsimp only
  obtain ⟨answer, th'⟩ := th.ready? (P.clock n)
  cases answer with
  | none => exact ⟨⟨.done .clockOverrun, hfs, hrs, t, th, n⟩, .none⟩
  | some report =>
      refine ⟨resume ⟨hs, hfs, hrs, t, th', n + 1⟩, ?_⟩
      cases report with
      | true => exact .some (.event (.progress t))
      | false => exact .none

theorem proceed (hP : P.Respells P') (h : w.Respells w') :
    StepsAlike (w.proceed P) (w'.proceed P') := by
  have hw := h
  obtain ⟨hs, hfs, hrs, t, th, n⟩ := h
  cases hs with
  | start => exact ⟨hw.resume, .none⟩
  | visit hp info =>
      cases info with
      | none =>
          rw [Walk.proceed, Walk.proceed, hP.options]
          exact ⟨hw.enter (.inspect hp (hP.fs.stat _ _ hp)), .some (.event (.stat hp))⟩
      | some info => exact ⟨hw.enter (.inspect hp (.ok rfl)), .none⟩
  | inspect hp ha =>
      cases ha with
      | ok hi =>
          subst hi
          exact hw.inspect hP hp _
      | error hf => exact ⟨hw.stop (.error (.unreadable hp hf)), .none⟩
  | opened hp d ha => exact hw.opened hP hp d ha
  | refused hp hf => exact ⟨hw.stop (.error (.unreadable hp hf)), .none⟩
  | pull => exact hw.pull
  | received hp he =>
      cases he with
      | told c hc => exact ⟨hw.enter (.visit (Path.join_same hp hc) (some c.info)), .none⟩
      | failed hf => exact ⟨hw.enter .pull, .some (.log (.skippedEntry hp hf))⟩
  | leave => exact hw.leave hP
  | closing => exact ⟨hw.stop (.ok rfl), .some (.event (.progress t))⟩
  | done => exact ⟨hw, .none⟩

theorem step (hP : P.Respells P') (h : w.Respells w') (cancelled : Bool) :
    StepsAlike (w.step P cancelled) (w'.step P' cancelled) := by
  rw [Walk.step, Walk.step, h.readsToken]
  split
  · exact ⟨h.cancel, .none⟩
  · exact h.proceed hP

theorem drive (hP : P.Respells P') (h : w.Respells w') (event fuel : Nat) (cancelled : Bool)
    (seen : Nat) : Option.Rel Report.Respells (w.drive P event fuel cancelled seen)
      (w'.drive P' event fuel cancelled seen) := by
  induction fuel generalizing w w' cancelled seen with
  | zero => exact .none
  | succ fuel ih =>
      obtain ⟨e, e', hd, hd', he⟩ | ⟨hf, hf'⟩ := h.finished
      · rw [drive_done hd, drive_done hd']
        exact .some ⟨.nil, he⟩
      obtain ⟨hv, hsignal⟩ := h.step hP cancelled
      rcases hs : w.step P cancelled with ⟨v, s⟩
      rcases hs' : w'.step P' cancelled with ⟨v', s'⟩
      rw [hs, hs'] at hv hsignal
      cases hsignal with
      | none =>
          rw [drive_silent hf hs, drive_silent hf' hs']
          exact ih hv _ _
      | some hsignal =>
          cases hsignal with
          | log hm =>
              rw [drive_log hf hs, drive_log hf' hs']
              exact Report.Respells.tell (.log hm) (ih hv _ _)
          | event he =>
              rw [drive_event hf hs, drive_event hf' hs']
              exact Report.Respells.tell (.event he) (ih hv _ _)

end Walk.Respells

variable {P P' : Plan} {roots roots' : List Path}

theorem Plan.Respells.count (hP : P.Respells P') (h : Forall₂ Path.Same roots roots') (fuel : Nat)
    (interrupt : Interrupt) : Option.Rel Report.Respells (P.count fuel interrupt roots)
      (P'.count fuel interrupt roots') := by
  have hstart : (Walk.start P.options roots).Respells (Walk.start P'.options roots') := by
    rw [hP.options]
    exact ⟨.start, .nil, h, _, _, _⟩
  exact hstart.drive hP _ _ _ _

end TreeTally
