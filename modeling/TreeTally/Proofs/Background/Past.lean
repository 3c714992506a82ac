import TreeTally.Proofs.Background.View

namespace TreeTally

variable {α : Type}

/-- What an action does for a job and its worker. -/
inductive Deed
  | rest
  | asked (answer : Option Refusal)
  | stepped (s : Option Signal)
  | ended (e : Ending)

namespace Deed

def answer? : Deed → Option (Option Refusal)
  | asked answer => some answer
  | _ => none

def signal? : Deed → Option Signal
  | stepped s => s
  | _ => none

def ending? : Deed → Option Ending
  | ended e => some e
  | _ => none

end Deed

def answersIn (past : List Deed) : List (Option Refusal) := past.filterMap Deed.answer?

def signalsIn (past : List Deed) : List Signal := past.filterMap Deed.signal?

def endingsIn (past : List Deed) : List Ending := past.filterMap Deed.ending?

theorem answersIn_snoc (past : List Deed) (d : Deed) :
    answersIn (past ++ [d]) = answersIn past ++ d.answer?.toList := List.filterMap_append

theorem signalsIn_snoc (past : List Deed) (d : Deed) :
    signalsIn (past ++ [d]) = signalsIn past ++ d.signal?.toList := List.filterMap_append

theorem endingsIn_snoc (past : List Deed) (d : Deed) :
    endingsIn (past ++ [d]) = endingsIn past ++ d.ending?.toList := List.filterMap_append

namespace Background

variable (b : Background α) (i : Nat)

def workDeed : Work → Deed
  | .count job _ _ w =>
      if job = i then
        match w.finished? with
        | some e => .ended e
        | none => .stepped (b.jobs[i]?.bind fun j => (w.step j.plan (b.isCancelled j.token)).2)
      else .rest
  | .errand _ _ => .rest

def deed : Action α → Deed
  | .run job =>
      if job = i ∧ i < b.jobs.length then
        .asked (match b.run i with
          | .ok _ => none
          | .error r => some r)
      else .rest
  | .move l k =>
      if (b.moveAt l k).isSome then ((b.lane l)[k]?.map (b.workDeed i)).getD .rest else .rest
  | _ => .rest

section

variable {b} {i}

theorem workDeed_other {work : Work} (h : work.isFor i = false) : b.workDeed i work = .rest := by
  cases work with
  | count job o seen w => exact if_neg (of_decide_eq_false h)
  | errand errand first => rfl

theorem workDeed_finished {o : Option Nat} {seen : Nat} {w : Walk} {e : Ending}
    (h : w.finished? = some e) : b.workDeed i (.count i o seen w) = .ended e := by
  rw [workDeed, if_pos rfl, h]

theorem workDeed_unfinished {o : Option Nat} {seen : Nat} {w : Walk} {j : Job}
    (h : w.finished? = none) (hj : b.jobs[i]? = some j) : b.workDeed i (.count i o seen w) =
      .stepped (w.step j.plan (b.isCancelled j.token)).2 := by
  rw [workDeed, if_pos rfl, h, hj]
  rfl

theorem deed_move {l : Lane} {k : Nat} {work : Work} {b' : Background α}
    (hwork : (b.lane l)[k]? = some work) (h : b.moveAt l k = some b') :
    b.deed i (.move l k) = b.workDeed i work := by
  rw [deed, h, hwork]
  rfl

theorem deed_stuck {l : Lane} {k : Nat} (h : b.moveAt l k = none) :
    b.deed i (.move l k) = .rest := by
  rw [deed, h]
  rfl

theorem deed_run_other {job : Nat} (h : job ≠ i) : b.deed i (.run job) = .rest :=
  if_neg fun hi => h hi.1

theorem deed_run_missing {job : Nat} (h : b.jobs[job]? = none) : b.deed i (.run job) = .rest := by
  refine if_neg fun hi => ?_
  rw [hi.1] at h
  exact Nat.not_lt.2 (List.getElem?_eq_none_iff.1 h) hi.2

theorem deed_run_started {j : Job} {b' : Background α} (hj : b.jobs[i]? = some j)
    (h : b.run i = .ok b') : b.deed i (.run i) = .asked none := by
  rw [deed, if_pos ⟨rfl, (List.getElem?_eq_some_iff.1 hj).1⟩, h]

theorem deed_run_refused {j : Job} {r : Refusal} (hj : b.jobs[i]? = some j)
    (h : b.run i = .error r) : b.deed i (.run i) = .asked (some r) := by
  rw [deed, if_pos ⟨rfl, (List.getElem?_eq_some_iff.1 hj).1⟩, h]

theorem run_error {job : Nat} {r : Refusal} (h : b.run job = .error r) :
    r = .alreadyStarted ∧ ∃ j, b.jobs[job]? = some j ∧ j.state ≠ .created := by
  rw [run] at h
  split at h
  · cases h
  · rename_i j hj
    split at h
    · rename_i hstate
      cases h
      exact ⟨rfl, j, hj, hstate⟩
    · cases h

end

/-- All that a script does for a job, in order. -/
def past (b : Background α) (i : Nat) : List (Action α) → List Deed
  | [] => []
  | a :: script => b.deed i a :: (b.act a).past i script

theorem past_append (s t : List (Action α)) :
    b.past i (s ++ t) = b.past i s ++ (b.play s).past i t := by
  induction s generalizing b with
  | nil => rfl
  | cons a s ih => exact congrArg (b.deed i a :: ·) (ih (b.act a))

variable {b} {i}

theorem play_past {I : Background α → List Deed → Prop}
    (hstep : ∀ b past a, I b past → I (b.act a) (past ++ [b.deed i a])) {past : List Deed}
    (hb : I b past) (script : List (Action α)) : I (b.play script) (past ++ b.past i script) := by
  induction script generalizing b past with
  | nil =>
      rw [Background.past, List.append_nil]
      exact hb
  | cons a script ih =>
      have hrest := ih (hstep b past a hb)
      rw [List.append_assoc] at hrest
      exact hrest

end Background

end TreeTally
