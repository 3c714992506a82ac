import TreeTally.Proofs.Background.Desk
import TreeTally.Proofs.Background.Edit
import TreeTally.Proofs.Background.Token

namespace TreeTally

variable {α : Type}

inductive Item
  | job (i : Nat) (observer : Option Nat)
  | errand (e : Nat)

def Work.item : Work → Item
  | count job observer _ _ => .job job observer
  | errand e _ => .errand e

namespace Action

def moves (l : Lane) : Action α → Bool
  | move lane _ => decide (lane = l)
  | _ => false

def lifts : Action α → Item → Bool
  | liftBarrier job, .job i _ => decide (job = i)
  | letGo errand, .errand e => decide (errand = e)
  | _, _ => false

/-- No worker but the first of its lane moves. -/
def Lone : Action α → Prop
  | move _ place => place = 0
  | _ => True

end Action

def numbers (p : Item → Bool) (items : List Item) : List Nat :=
  (List.range items.length).filter fun n => (items[n]?).any p

theorem mem_numbers {p : Item → Bool} {items : List Item} {n : Nat} :
    n ∈ numbers p items ↔ (items[n]?).any p = true := by
  rw [numbers, List.mem_filter, List.mem_range]
  refine ⟨And.right, fun h => ⟨?_, h⟩⟩
  cases hx : items[n]? with
  | none =>
      rw [hx] at h
      cases h
  | some x => exact (List.getElem?_eq_some_iff.1 hx).1

namespace Background

variable {b b' : Background α}

def duty (b : Background α) : Work → Option Duty
  | .count i observer seen w => b.jobs[i]?.map fun j =>
      .count j.toJobSpec observer.isSome (b.isCancelled j.token) seen w
  | .errand e first => b.errands[e]?.map fun x => .errand x.held (b.isCancelled x.token) first

def tokenOf (b : Background α) : Item → Option Nat
  | .job i _ => b.jobs[i]?.map (·.token)
  | .errand e => b.errands[e]?.map (·.token)

def stops (b : Background α) (a : Action α) (x : Item) : Bool :=
  (b.tokenOf x).any fun t => !b.isCancelled t && (b.act a).isCancelled t

def enters (b : Background α) (l : Lane) : Action α → Option Work
  | .run job => b.jobs[job]?.bind fun j =>
      if j.state = .created ∧ j.options.lane = l then
        some (.count job j.observer 0 (.start j.options j.roots))
      else none
  | .submit lane _ _ _ => if lane = l then some (.errand b.errands.length none) else none
  | _ => none

/-- What a lane notices of an action, when these items have been handed in to it so far. -/
def notices (b : Background α) (l : Lane) (items : List Item) (a : Action α) : List Notice :=
  (numbers a.lifts items).map .lift ++ (if a.moves l then [.move] else []) ++
    (numbers (b.stops a) items).map .stop ++ ((b.enters l a).bind (b.act a).duty).toList.map .enter

structure Keeps (b b' : Background α) : Prop where
  jobs : ∀ (i : Nat) (j : Job), b.jobs[i]? = some j →
    ∃ j', b'.jobs[i]? = some j' ∧ j'.toJobSpec = j.toJobSpec ∧ j'.token = j.token
  errands : ∀ (e : Nat) (x : Errand α), b.errands[e]? = some x →
    ∃ x', b'.errands[e]? = some x' ∧ x'.held = x.held ∧ x'.token = x.token

theorem Keeps.of_eq (hj : b'.jobs = b.jobs) (he : b'.errands = b.errands) : b.Keeps b' :=
  ⟨fun _ j h => ⟨j, hj ▸ h, rfl, rfl⟩, fun _ x h => ⟨x, he ▸ h, rfl, rfl⟩⟩

theorem Keeps.trans {c : Background α} (h : b.Keeps b') (h' : b'.Keeps c) : b.Keeps c := by
  refine ⟨fun i j hj => ?_, fun e x hx => ?_⟩
  · obtain ⟨j', hj', hspec, htoken⟩ := h.jobs i j hj
    obtain ⟨j'', hj'', hspec', htoken'⟩ := h'.jobs i j' hj'
    exact ⟨j'', hj'', hspec'.trans hspec, htoken'.trans htoken⟩
  · obtain ⟨x', hx', hheld, htoken⟩ := h.errands e x hx
    obtain ⟨x'', hx'', hheld', htoken'⟩ := h'.errands e x' hx'
    exact ⟨x'', hx'', hheld'.trans hheld, htoken'.trans htoken⟩

theorem Keeps.modify {job : Nat} (f : Job → Job)
    (hf : ∀ j, (f j).toJobSpec = j.toJobSpec ∧ (f j).token = j.token)
    (hj : b'.jobs = b.jobs.modify job f) (he : b'.errands = b.errands) : b.Keeps b' := by
  refine ⟨fun i j h => ⟨if job = i then f j else j, ?_, ?_⟩, fun _ x h => ⟨x, he ▸ h, rfl, rfl⟩⟩
  · rw [hj, List.getElem?_modify, h]
    rfl
  · split
    · exact hf j
    · exact ⟨rfl, rfl⟩

theorem Keeps.append {jobs : List Job} {errands : List (Errand α)} (hj : b'.jobs = b.jobs ++ jobs)
    (he : b'.errands = b.errands ++ errands) : b.Keeps b' := by
  refine ⟨fun i j h => ⟨j, ?_, rfl, rfl⟩, fun e x h => ⟨x, ?_, rfl, rfl⟩⟩
  · rw [hj, List.getElem?_append_left (List.getElem?_eq_some_iff.1 h).1]
    exact h
  · rw [he, List.getElem?_append_left (List.getElem?_eq_some_iff.1 h).1]
    exact h

theorem jobs_setLane (b : Background α) (works : List Work) (l : Lane) :
    (b.setLane works l).jobs = b.jobs := by cases l <;> rfl

theorem errands_setLane (b : Background α) (works : List Work) (l : Lane) :
    (b.setLane works l).errands = b.errands := by cases l <;> rfl

theorem keeps_setLane (b : Background α) (works : List Work) (l : Lane) :
    b.Keeps (b.setLane works l) := .of_eq (jobs_setLane b works l) (errands_setLane b works l)

theorem Edits.keeps (h : b.Edits b') : b.Keeps b' := by
  induction h with
  | refl => exact .of_eq rfl rfl
  | tail _ hlast ih =>
      refine ih.trans ?_
      cases hlast with
      | lane works l => exact keeps_setLane _ works l
      | job j hj => exact .append rfl (List.append_nil _).symm
      | errand e he => exact .append (List.append_nil _).symm rfl
      | change job f hf => exact .modify f (fun j => ⟨(hf j).1, (hf j).2.1⟩) rfl rfl
      | _ => exact .of_eq rfl rfl

theorem keeps_warned (b : Background α) (a : Action α) : b.Keeps (b.warned a) := by
  rw [warned]
  split <;> exact .of_eq rfl rfl

theorem keeps_readLetter (b : Background α) (l : Letter α) : b.Keeps (b.readLetter l) := by
  cases l with
  | note n =>
      obtain ⟨label, next⟩ := n
      exact .of_eq rfl rfl
  | progress job o t =>
      rw [readLetter, readProgress]
      split
      · split
        · exact .of_eq rfl rfl
        · dsimp only
          split <;> exact .of_eq rfl rfl
      · exact .of_eq rfl rfl
  | counted job out =>
      rw [readLetter, readCounted_eq]
      split
      · exact .of_eq rfl rfl
      · rename_i j _
        let o := settleOutcome (b.isCancelled j.token) out
        exact .modify (fun j => { j with delivered := true, state := stateAfter o })
          (fun _ => ⟨rfl, rfl⟩) rfl rfl
  | errandDone errand first second =>
      rw [readLetter, readErrand]
      split
      · exact .of_eq rfl rfl
      · rename_i x hx
        refine ⟨fun i j hj => ⟨j, hj, rfl, rfl⟩, fun e y hy => ?_⟩
        show ∃ y', (b.errands.set errand { x with delivered := true })[e]? = some y' ∧ _
        by_cases he : errand = e
        · subst he
          obtain rfl : x = y := Option.some.inj (hx.symm.trans hy)
          have hlt := (List.getElem?_eq_some_iff.1 hy).1
          exact ⟨{ x with delivered := true }, List.getElem?_set_self hlt, rfl, rfl⟩
        · exact ⟨y, (List.getElem?_set_ne he).trans hy, rfl, rfl⟩

theorem keeps_act (b : Background α) {a : Action α} (ha : ∀ x, a.lifts x = false) :
    b.Keeps (b.act a) := by
  have hedits {a : Action α} (hread : a ≠ .read) (hlift : ∀ i, a ≠ .liftBarrier i)
      (hgo : ∀ e, a ≠ .letGo e) : b.Keeps (b.act a) :=
    (keeps_warned b a).trans (edits_act b hread hlift hgo).keeps
  cases a with
  | liftBarrier job => exact absurd (ha (.job job none)) (by simp [Action.lifts])
  | letGo e => exact absurd (ha (.errand e)) (by simp [Action.lifts])
  | read =>
      cases hwaiting : b.mailbox.waiting with
      | nil =>
          rw [act, iterate?_nil hwaiting]
          exact .of_eq rfl rfl
      | cons x rest =>
          let c : Background α := { b with mailbox := { b.mailbox with waiting := rest } }
          have htake : b.Keeps c := .of_eq rfl rfl
          rw [act, iterate?_cons hwaiting]
          exact htake.trans (keeps_readLetter c x)
  | _ => exact hedits (by simp) (by simp) (by simp)

theorem job_act {i : Nat} {j : Job} (hj : b.jobs[i]? = some j) (o : Option Nat) (a : Action α) :
    ∃ j', (b.act a).jobs[i]? = some j' ∧ j'.token = j.token ∧
      j'.toJobSpec = if a.lifts (.job i o) then
        { j.toJobSpec with barrier := { j.barrier with lifted := true } } else j.toJobSpec := by
  by_cases hlift : ∀ x, a.lifts x = false
  · obtain ⟨j', hj', hspec, htoken⟩ := (keeps_act b hlift).jobs i j hj
    exact ⟨j', hj', htoken, by rw [hlift, if_neg Bool.false_ne_true]; exact hspec⟩
  · cases a with
    | liftBarrier job =>
        have hjobs : (b.act (.liftBarrier job)).jobs[i]? = some (if job = i then
            { j with barrier := { j.barrier with lifted := true } } else j) := by
          rw [show (b.act (.liftBarrier job)).jobs = b.jobs.modify job fun j =>
            { j with barrier := { j.barrier with lifted := true } } from rfl,
            List.getElem?_modify, hj]
          rfl
        refine ⟨_, hjobs, ?_⟩
        by_cases hi : job = i <;> simp [Action.lifts, hi]
    | letGo errand => exact ⟨j, hj, rfl, by simp [Action.lifts]⟩
    | _ => exact absurd (fun x => by cases x <;> rfl) hlift

theorem errand_act {e : Nat} {x : Errand α} (hx : b.errands[e]? = some x) (a : Action α) :
    ∃ x', (b.act a).errands[e]? = some x' ∧ x'.token = x.token ∧
      x'.held = if a.lifts (.errand e) then false else x.held := by
  by_cases hlift : ∀ x, a.lifts x = false
  · obtain ⟨x', hx', hheld, htoken⟩ := (keeps_act b hlift).errands e x hx
    exact ⟨x', hx', htoken, by rw [hlift, if_neg Bool.false_ne_true]; exact hheld⟩
  · cases a with
    | letGo errand =>
        have herrands : (b.act (.letGo errand)).errands[e]? =
            some (if errand = e then { x with held := false } else x) := by
          rw [show (b.act (.letGo errand)).errands = b.errands.modify errand fun e =>
            { e with held := false } from rfl, List.getElem?_modify, hx]
          rfl
        refine ⟨_, herrands, ?_⟩
        by_cases he : errand = e <;> simp [Action.lifts, he]
    | liftBarrier job => exact ⟨x, hx, rfl, by simp [Action.lifts]⟩
    | _ => exact absurd (fun x => by cases x <;> rfl) hlift

def renewed (b : Background α) (a : Action α) (x : Item) (y : Duty) : Duty :=
  let y := if a.lifts x then y.lift else y
  if b.stops a x then y.stop else y

theorem duty_act {work : Work} {x : Duty} (h : b.duty work = some x) (a : Action α) :
    (b.act a).duty work = some (b.renewed a work.item x) := by
  have hspares (t : Nat) : (b.act a).isCancelled t =
      (b.isCancelled t || (!b.isCancelled t && (b.act a).isCancelled t)) := by
    cases ht : b.isCancelled t with
    | false => simp
    | true => simp [spares_act b a t ht]
  cases work with
  | count i o seen w =>
      obtain ⟨j, hj, rfl⟩ := Option.map_eq_some_iff.1 h
      obtain ⟨j', hj', htoken, hspec⟩ := job_act hj o a
      have hstops : b.stops a (.job i o) =
          (!b.isCancelled j.token && (b.act a).isCancelled j.token) := by
        rw [stops, tokenOf, hj]
        rfl
      rw [duty, hj', Option.map_some, htoken, hspec, hspares, renewed, Work.item, hstops]
      cases (!b.isCancelled j.token && (b.act a).isCancelled j.token) <;>
        cases a.lifts (.job i o) <;> simp [Duty.stop, Duty.lift]
  | errand e first =>
      obtain ⟨x, hx, rfl⟩ := Option.map_eq_some_iff.1 h
      obtain ⟨x', hx', htoken, hheld⟩ := errand_act hx a
      have hstops : b.stops a (.errand e) =
          (!b.isCancelled x.token && (b.act a).isCancelled x.token) := by
        rw [stops, tokenOf, hx]
        rfl
      rw [duty, hx', Option.map_some, htoken, hheld, hspares, renewed, Work.item, hstops]
      cases (!b.isCancelled x.token && (b.act a).isCancelled x.token) <;>
        cases a.lifts (.errand e) <;> simp [Duty.stop, Duty.lift]

theorem lane_setLane (b : Background α) (works : List Work) (l l' : Lane) :
    (b.setLane works l).lane l' = if l = l' then works else b.lane l' := by
  cases l <;> cases l' <;> rfl

theorem lane_congr {l : Lane} (hd : b'.defaultLane = b.defaultLane)
    (hi : b'.idleLane = b.idleLane) : b'.lane l = b.lane l := by
  cases l
  · exact hd
  · exact hi

theorem lane_cancel (b : Background α) (job : Nat) (l : Lane) :
    (b.cancel job).lane l = b.lane l := by
  rw [cancel]
  split
  · rfl
  · dsimp only
    split <;> exact lane_congr rfl rfl

theorem lane_readLetter (b : Background α) (x : Letter α) (l : Lane) :
    (b.readLetter x).lane l = b.lane l := by
  cases x with
  | note n =>
      obtain ⟨label, next⟩ := n
      exact lane_congr rfl rfl
  | progress job o t =>
      rw [readLetter, readProgress]
      split
      · split
        · rfl
        · dsimp only
          split <;> exact lane_congr rfl rfl
      · rfl
  | counted job out =>
      rw [readLetter, readCounted_eq]
      split <;> exact lane_congr rfl rfl
  | errandDone errand first second =>
      rw [readLetter, readErrand]
      split <;> exact lane_congr rfl rfl

theorem lane_run (b : Background α) (job : Nat) (l : Lane) :
    (b.act (.run job)).lane l = b.lane l ++ (b.enters l (.run job)).toList := by
  rw [act, run, enters]
  cases hj : b.jobs[job]? with
  | none => exact (List.append_nil _).symm
  | some j =>
      dsimp only [Option.bind_some]
      by_cases hstate : j.state = .created
      · have hlane (l : Lane) : ((b.modifyJob job fun j => { j with state := .running }).log
            (.starting j.roots.length)).lane l = b.lane l := lane_congr rfl rfl
        rw [if_neg (by simp [hstate])]
        show (setLane _ _ _).lane l = _
        rw [lane_setLane, hlane, hlane]
        by_cases hl : j.options.lane = l
        · simp [hl, hstate]
        · simp [hl]
      · rw [if_pos hstate, if_neg (fun h => hstate h.1)]
        exact (List.append_nil _).symm

theorem lane_submit (b : Background α) (lane l : Lane) (label : α) (held : Bool) (token : Option Nat) :
    (b.act (.submit lane label held token)).lane l =
      b.lane l ++ (b.enters l (.submit lane label held token)).toList := by
  have hlane (es : List (Errand α)) (works : List Work) (c : Background α)
      (hc : c.lane l = b.lane l) (hc' : c.lane lane = b.lane lane) :
      (({ c with errands := es } : Background α).setLane (c.lane lane ++ works) lane).lane l =
        b.lane l ++ (if lane = l then works else []) := by
    rw [lane_setLane]
    by_cases hl : lane = l
    · simp [hl, hc]
    · rw [if_neg hl, if_neg hl, List.append_nil]
      exact (lane_congr rfl rfl).trans hc
  rw [act, enters, apply_ite Option.toList]
  cases token <;> exact hlane _ [_] _ (lane_congr rfl rfl) (lane_congr rfl rfl)

theorem lane_release (b : Background α) (job : Nat) (l : Lane) : (b.release job).lane l = b.lane l := by
  rw [release]
  split
  · rfl
  split
  · exact (lane_cancel _ job l).trans (lane_congr rfl rfl)
  · rfl

theorem lane_move (b : Background α) {lane l : Lane} (k : Nat) (hl : lane ≠ l) :
    (b.act (.move lane k)).lane l = b.lane l := by
  rw [act]
  cases h : b.moveAt lane k with
  | none => rfl
  | some c =>
      obtain ⟨work, -, hmove⟩ := Option.bind_eq_some_iff.1 h
      obtain ⟨⟨c, left⟩, hc, rfl⟩ := Option.map_eq_some_iff.1 hmove
      obtain ⟨hd, hi⟩ := moveWork_lanes hc
      rw [Option.getD_some, lane_setLane, if_neg hl]
      exact lane_congr hd hi

theorem lane_read (b : Background α) (l : Lane) : (b.act .read).lane l = b.lane l := by
  rw [act]
  cases hwaiting : b.mailbox.waiting with
  | nil =>
      rw [iterate?_nil hwaiting]
      rfl
  | cons x rest =>
      rw [iterate?_cons hwaiting]
      exact (lane_readLetter _ x l).trans (lane_congr rfl rfl)

theorem lane_act (b : Background α) (l : Lane) {a : Action α} (ha : a.moves l = false) :
    (b.act a).lane l = b.lane l ++ (b.enters l a).toList := by
  have hsame {c : Background α} (h : c.lane l = b.lane l) : c.lane l = b.lane l ++ [] :=
    h.trans (List.append_nil _).symm
  cases a with
  | create spec =>
      rw [act, create]
      split <;> exact hsame (lane_congr rfl rfl)
  | observe job label cancelAt => exact hsame (lane_congr rfl rfl)
  | run job => exact lane_run b job l
  | cancel job => exact hsame (lane_cancel b job l)
  | submit lane label held token => exact lane_submit b lane l label held token
  | release job => exact hsame (lane_release b job l)
  | move lane k => exact hsame (lane_move b k (of_decide_eq_false ha))
  | read => exact hsame (lane_read b l)
  | _ => exact hsame (lane_congr rfl rfl)

end Background

end TreeTally
