import TreeTally.Background.Basic

namespace TreeTally.Background

variable {α : Type}

/-- An event that reaches the file system is heard, and may cancel the job; a progress report goes
to the observer the count started with. -/
def hear (b : Background α) (job : Nat) (j : Job) (observer : Option Nat) (seen : Nat) :
    Signal → Background α × Nat
  | .log m => (b.log m, seen)
  | .event (.progress t) =>
      (match observer with
        | some o => b.post (.progress job o t)
        | none => b, seen)
  | .event e =>
      let b := b.modifyJob job fun j => { j with heard := e :: j.heard }
      (if seen + 1 = j.interrupt then b.cancelToken j.token else b, seen + 1)

/-- One move of a worker at a count: what is left of the work, if anything is, and nothing at all
while the worker waits at a barrier.

A clock that overruns ends the whole process, since nothing catches the panic of a worker. Here such a
count is only dropped, its end is never posted, and its lane goes on: what is said of a job with a
clock that overruns is said of the time before that moment. -/
def moveCount (b : Background α) (job : Nat) (observer : Option Nat) (seen : Nat) (w : Walk)
    (j : Job) : Option (Background α × Option Work) :=
  if seen ≠ 0 ∧ seen = j.barrier.event ∧ !j.barrier.lifted then none
  else match w.finished? with
    | some (.outcome o) => some (b.postResult (.counted job o), none)
    | some .clockOverrun => some (b, none)
    | none =>
        let (w, s) := w.step j.plan (b.isCancelled j.token)
        let (b, seen) := match s with
          | some s => b.hear job j observer seen s
          | none => (b, seen)
        some (b, some (.count job observer seen w))

def moveErrand (b : Background α) (errand : Nat) (e : Errand α) :
    Option Bool → Option (Background α × Option Work)
  | none => some (b, some (.errand errand (some (b.isCancelled e.token))))
  | some first =>
      if e.held then none
      else some (b.postResult (.errandDone errand first (b.isCancelled e.token)), none)

def moveWorker (b : Background α) (l : Lane) : Option (Background α) :=
  match b.lane l with
  | [] => none
  | work :: rest =>
      let moved := match work with
        | .count job observer seen w => b.jobs[job]?.bind (b.moveCount job observer seen w)
        | .errand errand first => b.errands[errand]?.bind fun e => b.moveErrand errand e first
      moved.map fun (b, work) => b.setLane (work.toList ++ rest) l

def settleLane (l : Lane) : Nat → Background α → Background α
  | 0, b => b
  | fuel + 1, b => match b.moveWorker l with
    | some b => settleLane l fuel b
    | none => b

def effort (b : Background α) : Work → Nat
  | .count job _ _ _ => ((b.jobs[job]?.map (·.effort)).getD 0) + 1
  | .errand _ _ => 2

def efforts (b : Background α) : List Work → Nat
  | [] => 0
  | work :: rest => b.effort work + b.efforts rest

def settleWorker (b : Background α) (l : Lane) : Background α :=
  settleLane l (b.efforts (b.lane l)) b

def settle (b : Background α) : Background α := (b.settleWorker .default).settleWorker .idle

end TreeTally.Background
