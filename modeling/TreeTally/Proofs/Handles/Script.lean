import TreeTally.Handles
import TreeTally.Proofs.Background.Breadth
import TreeTally.Proofs.Background.Notices

namespace TreeTally

inductive Step
  | call (q : Request)
  /-- A letter is read within a call that reads, so that the callback may make calls before the next
  letter is read. -/
  | read (mailbox : Nat)
  | move (mailbox : Nat) (lane : Lane) (place : Nat)

def Step.reads (m : Nat) : Step → Bool
  | .call (.iterate p) | .call (.dispatch p) => decide (p = some m)
  | .read k => decide (k = m)
  | .call _ | .move _ _ _ => false

namespace Handles

def step (s : Handles) : Step → Handles
  | .call q => (s.answer q).2
  | .read m => s.modifyWork m (·.iterate.2)
  | .move m l k => s.modifyWork m fun b => (b.moveAt l k).getD b

def play (s : Handles) (script : List Step) : Handles := script.foldl step s

end Handles

namespace Background

variable {α : Type} {b c : Background α}

theorem act_read_eq (b : Background α) : b.act .read = b.iterate.2 := by
  rw [act, iterate]
  cases b.iterate? <;> rfl

theorem exists_reads (fuel : Nat) (b : Background α) :
    ∃ n, (dispatchUpTo fuel b).2 = b.play (List.replicate n .read) := by
  induction fuel generalizing b with
  | zero => exact ⟨0, rfl⟩
  | succ fuel ih =>
      rw [dispatchUpTo]
      cases h : b.iterate? with
      | none => exact ⟨0, rfl⟩
      | some c =>
          obtain ⟨n, hn⟩ := ih c
          have hc : b.act .read = c := by rw [act, h]; rfl
          refine ⟨n + 1, hn.trans ?_⟩
          rw [← hc]
          rfl

theorem jobs_postResult (b : Background α) (l : Letter α) : (b.postResult l).jobs = b.jobs := by
  rw [postResult]
  split <;> rfl

theorem jobs_cancel (b : Background α) (job : Nat) : (b.cancel job).jobs = b.jobs := by
  rw [cancel]
  split
  · rfl
  · dsimp only
    split <;> rfl

theorem length_modifyJob (b : Background α) (job : Nat) (f : Job → Job) :
    (b.modifyJob job f).jobs.length = b.jobs.length := List.length_modify f b.jobs job

theorem length_jobs_hear (b : Background α) (job : Nat) (j : Job) (o : Option Nat) (seen : Nat)
    (s : Signal) : (b.hear job j o seen s).1.jobs.length = b.jobs.length := by
  have hheard (c : Background α) (p : Prop) [Decidable p] :
      (if p then c.cancelToken j.token else c).jobs = c.jobs := by split <;> rfl
  rcases s with e | m
  · cases e with
    | progress t => cases o <;> rfl
    | _ => exact (congrArg List.length (hheard _ _)).trans (length_modifyJob b job _)
  · rfl

theorem length_jobs_moveWork {work : Work} {left : Option Work}
    (h : b.moveWork work = some (c, left)) : c.jobs.length = b.jobs.length := by
  cases work with
  | count job o seen w =>
      obtain ⟨j, -, ⟨out, -, rfl, -⟩ | ⟨-, rfl, -⟩ | ⟨-, w', s, -, hs⟩⟩ := moveWork_count h
      · exact congrArg List.length (jobs_postResult b _)
      · rfl
      · cases s with
        | none => exact hs.1 ▸ rfl
        | some s => exact hs.1 ▸ length_jobs_hear b job j o seen s
  | errand errand first =>
      obtain ⟨rfl | ⟨x, y, rfl⟩, -⟩ := moveWork_errand (i := 0) h
      · rfl
      · exact congrArg List.length (jobs_postResult b _)

theorem length_jobs_readLetter (b : Background α) (l : Letter α) :
    (b.readLetter l).jobs.length = b.jobs.length := by
  cases l with
  | note n =>
      obtain ⟨label, next⟩ := n
      rfl
  | progress job o t =>
      rw [readLetter, readProgress]
      split
      · dsimp only
        split
        · rfl
        split <;> rfl
      · rfl
  | counted job out =>
      rw [readLetter, readCounted_eq]
      split
      · rfl
      · exact length_modifyJob b job _
  | errandDone errand x y =>
      rw [readLetter, readErrand]
      split <;> rfl

theorem length_jobs_act (b : Background α) {a : Action α} (ha : ∀ spec, a ≠ .create spec) :
    (b.act a).jobs.length = b.jobs.length := by
  cases a with
  | create spec => exact absurd rfl (ha spec)
  | observe job label n => exact length_modifyJob _ job _
  | run job =>
      rw [act, run]
      split
      · rfl
      split
      · rfl
      · exact (congrArg List.length (jobs_setLane _ _ _)).trans (length_modifyJob b job _)
  | cancel job => exact congrArg List.length (jobs_cancel b job)
  | cancelToken t => rfl
  | liftBarrier job => exact length_modifyJob b job _
  | submit l label held token => cases token <;> exact congrArg List.length (jobs_setLane _ _ l)
  | letGo e => rfl
  | postNote n => rfl
  | closeMailbox => rfl
  | release job =>
      rw [act, release]
      split
      · rfl
      split
      · exact congrArg List.length (jobs_cancel (b.log .releasedWhileRunning) job)
      · rfl
  | move l k =>
      rw [act]
      cases h : b.moveAt l k with
      | none => rfl
      | some d =>
          obtain ⟨work, -, h⟩ := Option.bind_eq_some_iff.1 h
          obtain ⟨⟨c, left⟩, hmoved, rfl⟩ := Option.map_eq_some_iff.1 h
          exact (congrArg List.length (jobs_setLane c _ l)).trans (length_jobs_moveWork hmoved)
  | read =>
      rw [act]
      cases h : b.iterate? with
      | none => rfl
      | some d =>
          obtain ⟨⟨l, mailbox⟩, -, rfl⟩ := Option.map_eq_some_iff.1 h
          exact length_jobs_readLetter { b with mailbox } l

theorem calls_play_quiet {script : List (Action α)} (h : ∀ a ∈ script, a ≠ .read) :
    (b.play script).calls = b.calls := by
  induction script generalizing b with
  | nil => rfl
  | cons a script ih =>
      have hrest : ((b.act a).play script).calls = (b.act a).calls :=
        ih fun x hx => h x (List.mem_cons_of_mem a hx)
      exact hrest.trans (calls_act b (h a List.mem_cons_self))

theorem length_jobs_play {script : List (Action α)} (h : ∀ a ∈ script, ∀ spec, a ≠ .create spec) :
    (b.play script).jobs.length = b.jobs.length := by
  induction script generalizing b with
  | nil => rfl
  | cons a script ih =>
      have hrest : ((b.act a).play script).jobs.length = (b.act a).jobs.length :=
        ih fun x hx => h x (List.mem_cons_of_mem a hx)
      exact hrest.trans (length_jobs_act b (h a List.mem_cons_self))

theorem closed_play {script : List (Action α)} (h : ∀ a ∈ script, a ≠ .closeMailbox) :
    (b.play script).mailbox.closed = b.mailbox.closed := by
  induction script generalizing b with
  | nil => rfl
  | cons a script ih =>
      have hrest : ((b.act a).play script).mailbox.closed = (b.act a).mailbox.closed :=
        ih fun x hx => h x (List.mem_cons_of_mem a hx)
      refine hrest.trans ?_
      rw [mailbox_act b (h a List.mem_cons_self), Mailbox.postAll_eq]
      split <;> rfl

end Background

end TreeTally
