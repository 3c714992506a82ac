import TreeTally.Proofs.Background.JobStep
import TreeTally.Proofs.Walk.Advance

namespace TreeTally

variable {α : Type}

/-- Where a walk may be that has taken all its steps under tokens that read at most as given, with
all it has sent. -/
inductive Took (P : Plan) (start : Walk) : Bool → Walk → List Signal → Prop
  | start : Took P start false start []
  | step {c : Bool} {w w' : Walk} {sent : List Signal} {s : Option Signal}
      (h : Took P start c w sent) (hs : w.step P c = (w', s)) :
      Took P start c w' (sent ++ s.toList)
  | cancelled {w : Walk} {sent : List Signal} (h : Took P start false w sent) :
      Took P start true w sent

theorem Took.mono {P : Plan} {start w : Walk} {sent : List Signal} {c c' : Bool}
    (h : Took P start c w sent) (hc : c = true → c' = true) : Took P start c' w sent := by
  cases c with
  | true =>
      rw [hc rfl]
      exact h
  | false =>
      cases c' with
      | true => exact .cancelled h
      | false => exact h

/-- A walk that has only seen the token as it was at first has been left alone. -/
theorem Took.alone {P : Plan} {start w : Walk} {sent : List Signal}
    (h : Took P start false w sent) : ∃ k, Walk.advance P k start = (sent, w) := by
  generalize hc : false = c at h
  induction h with
  | start => exact ⟨0, rfl⟩
  | step _ hs ih =>
      subst hc
      obtain ⟨k, hk⟩ := ih rfl
      exact ⟨k + 1, Walk.advance_trans hk (Walk.advance_one hs)⟩
  | cancelled => cases hc

structure Job.SameTask (j j₀ : Job) : Prop where
  roots : j.roots = j₀.roots
  options : j.options = j₀.options
  fs : j.fs = j₀.fs
  clock : j.clock = j₀.clock
  token : j.token = j₀.token

theorem Job.SameTask.plan {j j₀ : Job} (h : j.SameTask j₀) : j.plan = j₀.plan := by
  rw [Job.plan, Job.plan, h.roots, h.options, h.fs, h.clock]

namespace Job

def start (j : Job) : Walk := .start j.options j.roots

def reports (j : Job) (sent : List Signal) : List Tally :=
  if j.observer.isSome then snapshotsOf sent else []

def watch (j : Job) : Nat := j.observer.getD 0

end Job

/-- Of the snapshots sent so far some have been passed on, some are lost and some still wait. None is
lost before the token is cancelled, unless the mailbox is closed, in which none waits. -/
def Told (i : Nat) (j₀ : Job) (label : Option α) (c closed : Bool) (sent : List Signal)
    (letters : List (Letter α)) (calls : List (Call α)) : Prop :=
  ∃ passed lost waiting, passed ++ lost ++ waiting = j₀.reports sent ∧
    calls = passed.map (.progress i label) ∧ letters = waiting.map (.progress i j₀.watch) ∧
    (c = false → closed = false → lost = []) ∧ (closed = true → waiting = [])

namespace Told

variable {i : Nat} {j₀ : Job} {label : Option α} {c c' closed : Bool} {sent : List Signal}
variable {letters : List (Letter α)} {calls : List (Call α)}

theorem mono (h : Told i j₀ label c closed sent letters calls) (hc : c = true → c' = true) :
    Told i j₀ label c' closed sent letters calls := by
  obtain ⟨passed, lost, waiting, hsum, hcalls, hletters, hcalm, hclosed⟩ := h
  refine ⟨passed, lost, waiting, hsum, hcalls, hletters, fun hc' => hcalm ?_, hclosed⟩
  cases c with
  | true =>
      rw [hc rfl] at hc'
      cases hc'
  | false => rfl

theorem quiet (h : Told i j₀ label c closed sent letters calls) {s : List Signal}
    (hs : snapshotsOf s = []) : Told i j₀ label c closed (sent ++ s) letters calls := by
  have hreports : j₀.reports (sent ++ s) = j₀.reports sent := by
    rw [Job.reports, Job.reports, snapshotsOf_append, hs, List.append_nil]
  rw [Told]
  rw [hreports]
  exact h

theorem report (h : Told i j₀ label c closed sent letters calls) (t : Tally) :
    Told i j₀ label c closed (sent ++ [.event (.progress t)])
      (if closed = true ∨ j₀.observer = none then letters
        else letters ++ [.progress i j₀.watch t]) calls := by
  have hsnap : snapshotsOf [.event (.progress t)] = [t] := rfl
  cases ho : j₀.observer with
  | none =>
      rw [if_pos (.inr rfl)]
      have hreports (s : List Signal) : j₀.reports s = [] := by simp [Job.reports, ho]
      rw [Told] at h ⊢
      rw [hreports] at h ⊢
      exact h
  | some x =>
      obtain ⟨passed, lost, waiting, hsum, hcalls, hletters, hcalm, hclosed⟩ := h
      have hreports (s : List Signal) : j₀.reports s = snapshotsOf s := by simp [Job.reports, ho]
      rw [hreports] at hsum
      -- A closed mailbox takes nothing, and the snapshot is lost at once.
      cases closed with
      | true =>
          refine ⟨passed, lost ++ [t], [], ?_, hcalls, ?_, (fun _ h => by cases h), fun _ => rfl⟩
          · rw [hreports, snapshotsOf_append, hsnap, ← hsum, hclosed rfl]
            simp
          · rw [if_pos (.inl rfl), hletters, hclosed rfl]
      | false =>
          refine ⟨passed, lost, waiting ++ [t], ?_, hcalls, ?_, hcalm, fun h => by cases h⟩
          · rw [hreports, snapshotsOf_append, hsnap, ← hsum, List.append_assoc _ waiting]
          · rw [if_neg (by simp), hletters, List.map_append]
            rfl

theorem close (h : Told i j₀ label c closed sent letters calls) :
    Told i j₀ label c true sent [] calls := by
  obtain ⟨passed, lost, waiting, hsum, hcalls, -, -, -⟩ := h
  refine ⟨passed, lost ++ waiting, [], ?_, hcalls, rfl, (fun _ h => by cases h), fun _ => rfl⟩
  rw [← hsum]
  simp

theorem read {o : Nat} {t : Tally}
    (h : Told i j₀ label c closed sent (.progress i o t :: letters) calls) :
    Told i j₀ label c closed sent letters
      (if c then calls else calls ++ [.progress i label t]) := by
  obtain ⟨passed, lost, waiting, hsum, hcalls, hletters, hcalm, hclosed⟩ := h
  cases waiting with
  | nil => cases hletters
  | cons x waiting =>
      have hopen : closed = false := by
        cases closed with
        | true => cases hclosed rfl
        | false => rfl
      obtain ⟨hx, rfl⟩ := List.cons.inj hletters
      obtain ⟨-, rfl⟩ : o = j₀.watch ∧ t = x := by simpa using hx
      cases c with
      | true =>
          refine ⟨passed, lost ++ [t], waiting, ?_, hcalls, rfl, (fun h => by cases h), ?_⟩
          · rw [← hsum]
            simp
          · rw [hopen]
            exact fun h => by cases h
      | false =>
          have hlost : lost = [] := hcalm rfl hopen
          refine ⟨passed ++ [t], [], waiting, ?_, ?_, rfl, fun _ _ => rfl, ?_⟩
          · rw [← hsum, hlost]
            simp
          · rw [if_neg Bool.false_ne_true, hcalls, List.map_append]
            rfl
          · rw [hopen]
            exact fun h => by cases h

theorem mem_letters (h : Told i j₀ label c closed sent letters calls) {l : Letter α}
    (hl : l ∈ letters) : j₀.observer = some j₀.watch ∧ ∃ t, l = .progress i j₀.watch t := by
  obtain ⟨passed, lost, waiting, hsum, -, rfl, -, -⟩ := h
  obtain ⟨t, ht, rfl⟩ := List.mem_map.1 hl
  refine ⟨?_, t, rfl⟩
  cases ho : j₀.observer with
  | some x => simp [Job.watch, ho]
  | none =>
      have hnone : j₀.reports sent = [] := by simp [Job.reports, ho]
      rw [hnone] at hsum
      simp only [List.append_eq_nil_iff] at hsum
      rw [hsum.2] at ht
      cases ht

theorem mem_calls (h : Told i j₀ label c closed sent letters calls) {x : Call α}
    (hx : x ∈ calls) : ∃ t, x = .progress i label t := by
  obtain ⟨passed, lost, waiting, -, rfl, -, -, -⟩ := h
  obtain ⟨t, -, rfl⟩ := List.mem_map.1 hx
  exact ⟨t, rfl⟩

theorem calls_eq (h : Told i j₀ label false false sent [] calls) :
    calls = (j₀.reports sent).map (.progress i label) := by
  obtain ⟨passed, lost, waiting, hsum, hcalls, hletters, hcalm, -⟩ := h
  have hwaiting : waiting = [] := by simpa using hletters.symm
  rw [hcalls, ← hsum, hcalm rfl rfl, hwaiting, List.append_nil, List.append_nil]

end Told

end TreeTally
