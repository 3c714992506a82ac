import TreeTally.Background.Owner
import TreeTally.Background.Worker

namespace TreeTally

inductive Action (α : Type)
  | create (spec : JobSpec)
  | observe (job : Nat) (label : Option α) (cancelAt : Nat)
  | run (job : Nat)
  | cancel (job : Nat)
  | cancelToken (token : Nat)
  | liftBarrier (job : Nat)
  | submit (lane : Lane) (label : α) (held : Bool) (token : Option Nat)
  | letGo (errand : Nat)
  | postNote (n : Note α)
  | closeMailbox
  | release (job : Nat)
  | move (lane : Lane) (place : Nat)
  | read

namespace Background

variable {α : Type} {b c d : Background α}

def moveWork (b : Background α) : Work → Option (Background α × Option Work)
  | .count job observer seen w => b.jobs[job]?.bind (b.moveCount job observer seen w)
  | .errand errand first => b.errands[errand]?.bind fun e => b.moveErrand errand e first

def moveAt (b : Background α) (l : Lane) (k : Nat) : Option (Background α) :=
  (b.lane l)[k]?.bind fun work => (b.moveWork work).map fun moved =>
    moved.1.setLane ((b.lane l).take k ++ moved.2.toList ++ (b.lane l).drop (k + 1)) l

/-- A job that is given up while it runs gets cancelled. -/
def release (b : Background α) (job : Nat) : Background α :=
  match b.jobs[job]? with
  | none => b
  | some j => if j.state = .running then (b.log .releasedWhileRunning).cancel job else b

def act (b : Background α) : Action α → Background α
  | .create spec => (b.create spec).toOption.getD b
  | .observe job label cancelAt => b.observe job label cancelAt
  | .run job => (b.run job).toOption.getD b
  | .cancel job => b.cancel job
  | .cancelToken token => b.cancelToken token
  | .liftBarrier job => b.liftBarrier job
  | .submit lane label held token => b.submit lane label held token
  | .letGo errand => b.letGo errand
  | .postNote n => b.postNote n
  | .closeMailbox => b.closeMailbox
  | .release job => b.release job
  | .move lane place => (b.moveAt lane place).getD b
  | .read => b.iterate?.getD b

def play (b : Background α) (script : List (Action α)) : Background α := script.foldl act b

theorem play_append (b : Background α) (s t : List (Action α)) :
    b.play (s ++ t) = (b.play s).play t := List.foldl_append

/-- Some script leads from one state to the other. -/
def Reaches (b c : Background α) : Prop := ∃ script, b.play script = c

theorem Reaches.refl (b : Background α) : b.Reaches b := ⟨[], rfl⟩

theorem Reaches.trans (h : b.Reaches c) (h' : c.Reaches d) : b.Reaches d := by
  obtain ⟨s, rfl⟩ := h
  obtain ⟨t, rfl⟩ := h'
  exact ⟨s ++ t, play_append b s t⟩

theorem reaches_act (b : Background α) (a : Action α) : b.Reaches (b.act a) := ⟨[a], rfl⟩

theorem reaches_create {spec : JobSpec} (h : b.create spec = .ok c) : b.Reaches c := by
  have hcreate := reaches_act b (.create spec)
  rwa [act, h] at hcreate

theorem reaches_run {job : Nat} (h : b.run job = .ok c) : b.Reaches c := by
  have hrun := reaches_act b (.run job)
  rwa [act, h] at hrun

theorem Reaches.preserves {I : Background α → Prop} (hstep : ∀ b a, I b → I (b.act a))
    (h : b.Reaches c) (hb : I b) : I c := by
  obtain ⟨script, rfl⟩ := h
  -- The rest of a script sets out from where its first action leads.
  induction script generalizing b with
  | nil => exact hb
  | cons a script ih => exact ih (hstep b a hb)

theorem reaches_iterate? (h : b.iterate? = some c) : b.Reaches c := by
  have hread := reaches_act b .read
  rwa [act, h] at hread

theorem reaches_iterate (b : Background α) : b.Reaches b.iterate.2 := by
  rw [iterate]
  cases h : b.iterate? with
  | none => exact .refl b
  | some c => exact reaches_iterate? h

theorem moveAt_zero (b : Background α) (l : Lane) : b.moveAt l 0 = b.moveWorker l := by
  rw [moveAt, moveWorker]
  cases h : b.lane l with
  | nil => rfl
  | cons work rest =>
      cases work with
      | count job observer seen w => rfl
      | errand errand first => rfl

theorem reaches_settleLane (l : Lane) (fuel : Nat) (b : Background α) :
    b.Reaches (settleLane l fuel b) := by
  induction fuel generalizing b with
  | zero => exact .refl b
  | succ fuel ih =>
      rw [settleLane]
      cases h : b.moveWorker l with
      | none => exact .refl b
      | some c =>
          have hmove := reaches_act b (.move l 0)
          rw [act, moveAt_zero, h] at hmove
          exact hmove.trans (ih c)

theorem reaches_settle (b : Background α) : b.Reaches b.settle :=
  (reaches_settleLane .default _ b).trans (reaches_settleLane .idle _ _)

end Background

end TreeTally
