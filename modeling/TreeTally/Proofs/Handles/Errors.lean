import TreeTally.Proofs.Handles.Sound

namespace TreeTally

open Background

def Request.asks : Request → Bool
  | .version | .lastError => true
  | _ => false

def Request.onNull : Request → Bool
  | .freeRunner none | .freeMailbox none | .freeJob none | .cancel none => true
  | _ => false

def Reply.Refuses : Reply → Prop
  | .status st => st ≠ .ok
  | .pointer p => p = none
  | _ => False

namespace Handles

/-- The reply has no place for a failure, but there was nothing to reply about. -/
def Lacks (s : Handles) : Request → Prop
  | .iterate m | .dispatch m => s.office? m = none
  | .state j => s.job? j = none
  | _ => False

def Failed (s : Handles) (q : Request) : Prop := (s.answer q).1.Refuses ∨ s.Lacks q

def movesOf (moves : List (Nat × Lane × Nat)) : List Step :=
  moves.map fun (m, l, k) => .move m l k

variable {s : Handles} {q : Request}

/-- What fails leaves its reason, and nothing else; what does not leaves no reason. -/
def Reasons (s : Handles) (fails : Prop) (t : Handles) : Prop :=
  fails ∧ (∃ e, t = s.fail e) ∨ ¬fails ∧ t.lastError = none

section

variable {P Q : Prop} {t : Handles}

theorem Reasons.congr (h : s.Reasons P t) (hQ : Q ↔ P) : s.Reasons Q t := by
  rwa [Reasons, hQ]

theorem reasons_fail (hP : P) (e : HandleError) : s.Reasons P (s.fail e) := .inl ⟨hP, e, rfl⟩

theorem reasons_succeed (hP : ¬P) (t : Handles) : s.Reasons P t.succeed := .inr ⟨hP, rfl⟩

theorem reasons_found {β : Type} {o : Option β} {b : β} (h : o = some b) (t : Handles) :
    s.Reasons (o = none) t.succeed :=
  reasons_succeed (fun hno => Option.some_ne_none b (h.symm.trans hno)) t

theorem reasons_newRunner (s : Handles) (trouble : Option String) :
    s.Reasons ((s.newRunner trouble).1 = none) (s.newRunner trouble).2 := by
  cases trouble with
  | none => exact reasons_succeed (Option.some_ne_none _) _
  | some why => exact reasons_fail rfl _

theorem reasons_newJob (s : Handles) (defaults : JobDefaults) (texts : RootTexts) (follow : Bool) :
    s.Reasons ((s.newJob defaults texts follow).1 = none) (s.newJob defaults texts follow).2 := by
  rw [newJob]
  split
  · exact reasons_fail rfl _
  split
  · exact reasons_fail rfl _
  · exact reasons_succeed (Option.some_ne_none _) _

theorem reasons_refused {st : Status} (h : st ≠ .ok) (e : HandleError) :
    s.Reasons ((st, s.fail e).1 ≠ .ok) (st, s.fail e).2 := reasons_fail h e

theorem reasons_setProgress (s : Handles) (p c : Option Nat) :
    s.Reasons ((s.setProgress p c).1 ≠ .ok) (s.setProgress p c).2 := by
  rw [setProgress]
  split
  · exact reasons_refused (by decide) _
  split
  · exact reasons_refused (by decide) _
  split
  · exact reasons_succeed (not_not_intro rfl) _
  · exact reasons_refused (by decide) _

theorem reasons_run (s : Handles) (p r o c : Option Nat) :
    s.Reasons ((s.run p r o c).1 ≠ .ok) (s.run p r o c).2 := by
  rw [run]
  split
  · exact reasons_refused (by decide) _
  split
  · exact reasons_refused (by decide) _
  split
  · exact reasons_refused (by decide) _
  split
  · exact reasons_refused (by decide) _
  split
  · exact reasons_refused (by decide) _
  · exact reasons_succeed (not_not_intro rfl) _

theorem reasons_iterate (s : Handles) (p : Option Nat) :
    s.Reasons (s.office? p = none) (s.iterate p).2 := by
  rw [iterate]
  split
  · exact reasons_fail ‹_› _
  · exact reasons_found ‹_› _

theorem reasons_dispatch (s : Handles) (p : Option Nat) :
    s.Reasons (s.office? p = none) (s.dispatch p).2 := by
  rw [dispatch]
  split
  · exact reasons_fail ‹_› _
  · exact reasons_found ‹_› _

theorem reasons_state (s : Handles) (p : Option Nat) :
    s.Reasons (s.job? p = none) (s.state p).2 := by
  rw [state]
  split
  · exact reasons_fail ‹_› _
  · exact reasons_found ‹_› _

theorem freeRunner_lastError (s : Handles) (p : Option Nat) : (s.freeRunner p).lastError = none := by
  rw [freeRunner]
  split <;> rfl

theorem freeMailbox_lastError (s : Handles) (p : Option Nat) :
    (s.freeMailbox p).lastError = none := by
  rw [freeMailbox]
  split <;> rfl

theorem freeJob_lastError (s : Handles) (p : Option Nat) : (s.freeJob p).lastError = none := by
  rw [freeJob]
  split <;> rfl

theorem cancel_lastError (s : Handles) (p : Option Nat) : (s.cancel p).lastError = none := by
  rw [cancel]
  split <;> rfl

end

theorem reasons_answer (s : Handles) (hq : q.asks = false) :
    s.Reasons (s.Failed q) (s.answer q).2 := by
  have hreply {P : Prop} : P ∨ False ↔ P := iff_of_eq (or_false P)
  have hlacks {P : Prop} : False ∨ P ↔ P := iff_of_eq (false_or P)
  have hnever {t : Handles} (ht : t.lastError = none) : s.Reasons (False ∨ False) t :=
    .inr ⟨fun h => h.elim id id, ht⟩
  cases q with
  | version | lastError => cases hq
  | newRunner trouble => exact (reasons_newRunner s trouble).congr hreply
  | newJob defaults texts follow => exact (reasons_newJob s defaults texts follow).congr hreply
  | newMailbox => exact reasons_succeed (fun h => h.elim (Option.some_ne_none _) id) _
  | setProgress p c => exact (reasons_setProgress s p c).congr hreply
  | run p r o c => exact (reasons_run s p r o c).congr hreply
  | iterate p => exact (reasons_iterate s p).congr hlacks
  | dispatch p => exact (reasons_dispatch s p).congr hlacks
  | state p => exact (reasons_state s p).congr hlacks
  | freeRunner p => exact hnever (freeRunner_lastError s p)
  | freeMailbox p => exact hnever (freeMailbox_lastError s p)
  | freeJob p => exact hnever (freeJob_lastError s p)
  | cancel p => exact hnever (cancel_lastError s p)

theorem release_lastError (s : Handles) (e : Option HandleError) (p : Place) :
    { s with lastError := e }.release p = { s.release p with lastError := e } := by
  cases p with
  | draft d => rfl
  | started m job =>
      rw [release, release]
      by_cases h : s.stateAt (.started m job) = .running
      · exact (if_pos h).trans (by rw [if_pos h]; rfl)
      · exact (if_neg h).trans (by rw [if_neg h])

theorem answer_lastError (s : Handles) (e : Option HandleError) (hq : q.asks = false) :
    { s with lastError := e }.answer q = s.answer q := by
  cases q with
  | version | lastError => cases hq
  | newRunner trouble => cases trouble <;> rfl
  | freeJob p =>
      have hjob : { s with lastError := e }.job? p = s.job? p := rfl
      rw [answer, answer, freeJob, freeJob, hjob]
      cases s.job? p with
      | none => rfl
      | some a =>
          dsimp only
          rw [release_lastError]
          rfl
  | freeRunner | newMailbox | freeMailbox | iterate | dispatch | newJob | setProgress | run | cancel
  | state => rfl

theorem lastError_play (moves : List (Nat × Lane × Nat)) :
    (s.play (movesOf moves)).lastError = s.lastError := by
  induction moves generalizing s with
  | nil => rfl
  | cons a moves ih => exact ih

theorem Sound.runs (h : s.Sound) {job runner mailbox : Option Nat}
    (hjob : (s.answer (.state job)).1 = .state .created) (hrunner : s.runner? runner ≠ none)
    (hmailbox : s.office? mailbox ≠ none) (callback : Option Nat) :
    (s.answer (.run job runner mailbox callback)).1 = .status .ok := by
  obtain ⟨r, hr⟩ := Option.ne_none_iff_exists'.1 hrunner
  obtain ⟨⟨m, x⟩, hm⟩ := Option.ne_none_iff_exists'.1 hmailbox
  rw [answer, state] at hjob
  cases hp : s.job? job with
  | none =>
      rw [hp] at hjob
      cases hjob
  | some a =>
      obtain ⟨i, p⟩ := a
      obtain ⟨-, hi⟩ := job?_eq_some.1 hp
      rw [hp] at hjob
      have hcreated : s.stateAt p = .created := Reply.state.inj hjob
      cases p with
      | draft d =>
          obtain ⟨work, b₁, j, hwork, -⟩ := Draft.exists_entered (h.drafts i d false hi) x.work
          rw [answer, run, hp, hr, hm]
          dsimp only
          rw [hwork]
          rfl
      | started k n =>
          obtain ⟨y, hy, hruns⟩ := h.started i k n false hi
          obtain ⟨j, hj, hstate⟩ := hruns.exists_job
          rw [stateAt, hy, Option.bind_some, hj] at hcreated
          exact absurd hcreated hstate

structure Exact (s : Handles) (q : Request) (t : Handles) : Prop where
  asked : q.asks = true → t = s
  /-- Whatever workers do before it is asked, the reason is there if and only if the call failed. -/
  noted : q.asks = false → ∀ moves, ∃ text,
    ((t.play (movesOf moves)).answer .lastError).1 = .text text ∧ (text.isSome = true ↔ s.Failed q)
  silent : q.onNull = true → t = s.succeed
  kept : s.Failed q → t = { s with lastError := t.lastError }
  /-- Every later call comes to what it would have come to. -/
  unnoticed : s.Failed q → ∀ later : Request, later.asks = false → t.answer later = s.answer later
  runnable : ∀ job runner mailbox callback, (t.answer (.state job)).1 = .state .created →
    t.runner? runner ≠ none → t.office? mailbox ≠ none →
    (t.answer (.run job runner mailbox callback)).1 = .status .ok

/-- After any calls, moves of workers and callbacks, whether the next call fails is what the caller
can ask for afterwards, and a failure is all that there is to it. -/
theorem failures_exact (script : List Step) (q : Request) :
    (({} : Handles).play script).Exact q ((({} : Handles).play script).answer q).2 := by
  have hsound := sound script
  generalize ({} : Handles).play script = s at hsound ⊢
  have hasks (hq : q.asks = true) : (s.answer q).2 = s ∧ ¬s.Failed q := by
    cases q with
    | version | lastError => exact ⟨rfl, fun h => h.elim id id⟩
    | _ => cases hq
  have hfailed (hq : s.Failed q) : q.asks = false ∧ ∃ e, (s.answer q).2 = s.fail e := by
    cases h : q.asks with
    | true => exact absurd hq (hasks h).2
    | false => exact ⟨rfl, ((s.reasons_answer h).resolve_right fun hno => hno.1 hq).2⟩
  constructor
  · exact fun hq => (hasks hq).1
  · intro hq moves
    refine ⟨_, rfl, ?_⟩
    rw [lastErrorText, lastError_play]
    rcases s.reasons_answer hq with ⟨hfails, e, he⟩ | ⟨hfine, he⟩
    · rw [he]
      exact ⟨fun _ => hfails, fun _ => rfl⟩
    · rw [he]
      exact ⟨fun hno => absurd hno Bool.false_ne_true, fun hno => absurd hno hfine⟩
  · intro hq
    cases q with
    | freeRunner p | freeMailbox p | freeJob p | cancel p =>
        cases p with
        | none => rfl
        | some p => cases hq
    | _ => cases hq
  · intro hq
    obtain ⟨-, e, he⟩ := hfailed hq
    rw [he]
    rfl
  · intro hq later hlater
    obtain ⟨-, e, he⟩ := hfailed hq
    rw [he]
    exact s.answer_lastError (some e) hlater
  · intro job runner mailbox callback hjob hrunner hmailbox
    exact (hsound.step (.call q)).runs hjob hrunner hmailbox callback

end Handles

end TreeTally
