import TreeTally.Proofs.Background.Refine

namespace TreeTally

variable {α : Type}

def Call.end? (i : Nat) : Call α → Option (Outcome × JobState)
  | done job o s => if job = i then some (o, s) else none
  | note _ | progress _ _ _ | errandDone _ _ _ _ => none

variable {i : Nat} {j₀ : Job} {label : Option α} {c : Bool} {v v' : View α} {d : Deed}
variable {sent : List Signal} {e : Option Ending}

theorem Told.no_end {closed : Bool} {letters : List (Letter α)} {calls : List (Call α)}
    (h : Told i j₀ label c closed sent letters calls) : calls.filterMap (Call.end? i) = [] := by
  apply List.filterMap_eq_nil_iff.2
  intro x hx
  obtain ⟨t, rfl⟩ := h.mem_calls hx
  rfl

theorem JobStep.calls_grow (h : JobStep i c v d v') :
    v.calls <+: v'.calls ∧ (v.closed = true → v'.closed = true) := by
  cases h with
  | close => exact ⟨List.prefix_rfl, fun _ => rfl⟩
  | @move j l r o seen w w' s =>
      obtain ⟨hcalls, hclosed⟩ := v.hear?_calls i j o seen s
      exact ⟨hcalls.symm ▸ List.prefix_rfl, fun h => hclosed.trans h⟩
  | @finish l r o seen w e =>
      obtain ⟨hcalls, hclosed⟩ := v.settle_calls i e
      exact ⟨hcalls.symm ▸ List.prefix_rfl, fun h => hclosed.trans h⟩
  | hearProgress =>
      refine ⟨?_, fun h => h⟩
      dsimp only
      split
      · exact List.prefix_rfl
      · exact List.prefix_append _ _
  | hearEnd => exact ⟨List.prefix_append _ _, fun h => h⟩
  | _ => exact ⟨List.prefix_rfl, fun h => h⟩

theorem JobStep.calls_of_no_letters (h : JobStep i c v d v') (hl : v.letters = []) :
    v'.calls = v.calls := by
  have hno {l : Letter α} {rest : List (Letter α)} (hcons : v.letters = l :: rest) : False := by
    rw [hl] at hcons
    cases hcons
  cases h with
  | @move j l r o seen w w' s => exact (v.hear?_calls i j o seen s).1
  | @finish l r o seen w e => exact (v.settle_calls i e).1
  | hearProgress _ hcons => exact (hno hcons).elim
  | hearEnd _ hcons => exact (hno hcons).elim
  | _ => rfl

theorem Stands.deed (h : Stands i j₀ label c sent v e) (hs : JobStep i c v d v') :
    (d.answer? = none ∨ d.answer? = some (some .alreadyStarted)) ∧
      (d.ending? = none ∨ e = none) := by
  cases hs with
  | refuse => exact ⟨.inr rfl, .inl rfl⟩
  | run hj hcreated =>
      obtain ⟨j, hj', -, hstate⟩ := h.exists_job
      obtain rfl := Option.some.inj (hj.symm.trans hj')
      exact absurd hcreated hstate
  | finish hw => exact ⟨.inl rfl, .inr (h.at_work hw).2.2.2.1⟩
  | _ => exact ⟨.inl rfl, .inl rfl⟩

theorem Stands.no_letters_of_closed (h : Stands i j₀ label c sent v e) (hclosed : v.closed = true) :
    v.letters = [] := by
  have hgo {letters : List (Letter α)} (htold : Told i j₀ label c v.closed sent letters v.calls) :
      letters = [] := by
    obtain ⟨passed, lost, waiting, -, -, rfl, -, hwaiting⟩ := htold
    rw [hwaiting hclosed]
    rfl
  cases h with
  | counting _ _ htold => exact hgo htold
  | posted _ _ _ hopen =>
      rw [hclosed] at hopen
      cases hopen
  | lost _ _ _ _ htold => exact hgo htold
  | ended h => exact h.letters

open Background in
/-- Where a job is, by how the calls to run it were answered and by the ends that were heard. -/
inductive JobStatus (answers : List (Option Refusal)) (ends : List (Outcome × JobState))
    (j : Job) : Prop
  | created (hstate : j.state = .created) (hdelivered : j.delivered = false) (ha : answers = [])
      (hends : ends = [])
  | running (hstate : j.state = .running) (hdelivered : j.delivered = false) (ha : none ∈ answers)
      (hends : ends = [])
  | ended (o : Outcome) (hstate : j.state = stateAfter o) (hdelivered : j.delivered = true)
      (ha : none ∈ answers) (hends : ends = [(o, stateAfter o)])

theorem Background.stateAfter_isTerminal (o : Outcome) : (stateAfter o).isTerminal = true := by
  rcases o with (_ | _) | _ <;> rfl

theorem Background.stateAfter_eq_succeeded {o : Outcome} :
    stateAfter o = .succeeded ↔ ∃ t, o = .ok t := by
  rcases o with (_ | _) | _ <;> simp [stateAfter]

theorem Background.stateAfter_eq_failed {o : Outcome} :
    stateAfter o = .failed ↔ ∃ p f, o = .error (.unreadable p f) := by
  rcases o with (_ | _) | _ <;> simp [stateAfter]

theorem Background.stateAfter_eq_cancelled {o : Outcome} :
    stateAfter o = .cancelled ↔ ∃ t, o = .error (.cancelled t) := by
  rcases o with (_ | _) | _ <;> simp [stateAfter]

namespace JobStatus

open Background

variable {answers : List (Option Refusal)} {ends : List (Outcome × JobState)} {j : Job}

theorem created_iff (h : JobStatus answers ends j) : j.state = .created ↔ none ∉ answers := by
  cases h with
  | created hstate _ ha => simp [hstate, ha]
  | running hstate _ ha => simp [hstate, ha]
  | ended o hstate _ ha =>
      have hterminal := stateAfter_isTerminal o
      refine ⟨fun hcreated => ?_, fun hno => absurd ha hno⟩
      rw [← hstate, hcreated] at hterminal
      cases hterminal

theorem running_iff (h : JobStatus answers ends j) :
    j.state = .running ↔ none ∈ answers ∧ ends = [] := by
  cases h with
  | created hstate _ ha => simp [hstate, ha]
  | running hstate _ ha hends => simp [hstate, ha, hends]
  | ended o hstate _ _ hends =>
      have hterminal := stateAfter_isTerminal o
      refine ⟨fun hrunning => ?_, fun h => ?_⟩
      · rw [← hstate, hrunning] at hterminal
        cases hterminal
      · rw [hends] at h
        cases h.2

theorem terminal_iff (h : JobStatus answers ends j) : j.state.isTerminal = true ↔ ends ≠ [] := by
  cases h with
  | created hstate _ _ hends => simp [hstate, hends, JobState.isTerminal]
  | running hstate _ _ hends => simp [hstate, hends, JobState.isTerminal]
  | ended o hstate _ _ hends => simp [hstate, hends, stateAfter_isTerminal]

theorem delivered_iff (h : JobStatus answers ends j) : j.delivered = true ↔ ends ≠ [] := by
  cases h with
  | created _ hdelivered _ hends => simp [hdelivered, hends]
  | running _ hdelivered _ hends => simp [hdelivered, hends]
  | ended o _ hdelivered _ hends => simp [hdelivered, hends]

theorem length_le (h : JobStatus answers ends j) : ends.length ≤ 1 := by
  cases h with
  | created _ _ _ hends => simp [hends]
  | running _ _ _ hends => simp [hends]
  | ended o _ _ _ hends => simp [hends]

theorem state_of_mem (h : JobStatus answers ends j) {o : Outcome} {s : JobState}
    (hx : (o, s) ∈ ends) : s = j.state ∧ j.state = stateAfter o := by
  cases h with
  | created _ _ _ hends =>
      rw [hends] at hx
      cases hx
  | running _ _ _ hends =>
      rw [hends] at hx
      cases hx
  | ended o' hstate _ _ hends =>
      rw [hends] at hx
      obtain ⟨rfl, rfl⟩ := Prod.mk.inj (List.mem_singleton.1 hx)
      exact ⟨hstate.symm, hstate⟩

end JobStatus

theorem Untouched.status (h : Untouched v) {j : Job} (hj : v.job = some j) :
    JobStatus [] (v.calls.filterMap (Call.end? i)) j := by
  obtain ⟨hstate, hdelivered, -, -⟩ := h.job j hj
  refine .created hstate hdelivered rfl ?_
  rw [h.calls]
  rfl

theorem Stands.status (h : Stands i j₀ label c sent v e) {j : Job} (hj : v.job = some j)
    {answers : List (Option Refusal)} (ha : none ∈ answers) :
    JobStatus answers (v.calls.filterMap (Call.end? i)) j := by
  have hrunning {w : Walk} {j' : Job} {letters : List (Letter α)} (hrun : Running j₀ c v w sent j')
      (htold : Told i j₀ label c v.closed sent letters v.calls) :
      JobStatus answers (v.calls.filterMap (Call.end? i)) j := by
    obtain rfl := Option.some.inj (hrun.job.symm.trans hj)
    exact .running hrun.state hrun.delivered ha htold.no_end
  cases h with
  | counting h _ htold => exact hrunning h htold
  | posted h _ _ _ _ htold => exact hrunning h htold
  | lost h _ _ _ htold => exact hrunning h htold
  | @ended j' w out d before h =>
      obtain rfl := Option.some.inj (h.job.symm.trans hj)
      refine .ended _ h.state h.delivered ha ?_
      rw [h.calls, List.filterMap_append, h.told.no_end]
      simp [Call.end?]

theorem Stands.heard {o : Outcome} (h : Stands i j₀ label c sent v (some (.outcome o)))
    (hl : v.letters = []) (hopen : v.closed = false) :
    (v.calls.filterMap (Call.end? i)).length = 1 := by
  cases h with
  | posted _ _ _ _ hletters =>
      rw [hl] at hletters
      simp at hletters
  | lost _ _ _ hlost =>
      rcases hlost with hclosed | he
      · rw [hopen] at hclosed
        cases hclosed
      · cases he
  | ended h =>
      rw [h.calls, List.filterMap_append, h.told.no_end]
      simp [Call.end?]

namespace Background

variable {b b' : Background α}

def ends (b : Background α) (i : Nat) : List (Outcome × JobState) :=
  b.calls.filterMap (Call.end? i)

theorem filterMap_calls {β : Type} {f : Call α → Option β} (b : Background α)
    (hf : ∀ x, x.isFor i = false → f x = none) :
    b.calls.filterMap f = (b.view i).calls.filterMap f := by
  rw [view, List.filterMap_filter]
  congr 1
  funext x
  cases hx : x.isFor i with
  | true => rfl
  | false => exact hf x hx

theorem ends_eq (b : Background α) (i : Nat) :
    b.ends i = (b.view i).calls.filterMap (Call.end? i) := by
  refine filterMap_calls b fun x hx => ?_
  cases x with
  | done job o s => exact if_neg (of_decide_eq_false hx)
  | _ => rfl

def Follows (b : Background α) (i : Nat) (j₀ : Job) (label : Option α) (past : List Deed) : Prop :=
  Labelled j₀ label (b.view i) ∧ ∃ e, endingsIn past = e.toList ∧
    Stands i j₀ label (b.stopped i) (signalsIn past) (b.view i) e

theorem follows_act {past : List Deed} (a : Action α) (h : b.Follows i j₀ label past) :
    (b.act a).Follows i j₀ label (past ++ [b.deed i a]) ∧
      ((b.deed i a).answer? = none ∨ (b.deed i a).answer? = some (some .alreadyStarted)) := by
  obtain ⟨hlabel, e, he, h⟩ := h
  have hstep := jobStep_act b a i
  obtain ⟨hanswer, hending⟩ := h.deed hstep
  have hends : e.toList ++ (b.deed i a).ending?.toList = (e.or (b.deed i a).ending?).toList := by
    rcases hending with hnone | rfl
    · rw [hnone, Option.or_none]
      exact List.append_nil _
    · rfl
  refine ⟨⟨hlabel.step hstep, e.or (b.deed i a).ending?, ?_, ?_⟩, hanswer⟩
  · rw [endingsIn_snoc, he, hends]
  · rw [signalsIn_snoc]
    exact (h.step hlabel hstep).mono (stopped_act b a)

def Accords (b : Background α) (i : Nat) (past : List Deed) : Prop :=
  (Untouched (b.view i) ∧ answersIn past = [] ∧ signalsIn past = [] ∧ endingsIn past = []) ∨
    ∃ j₀ label n, b.Follows i j₀ label past ∧
      answersIn past = none :: List.replicate n (some .alreadyStarted)

theorem accords_act {past : List Deed} (a : Action α) (h : b.Accords i past) :
    (b.act a).Accords i (past ++ [b.deed i a]) := by
  rcases h with ⟨huntouched, ha, hs, he⟩ | ⟨j₀, label, n, hfollows, ha⟩
  · rw [Accords, answersIn_snoc, signalsIn_snoc, endingsIn_snoc, ha, hs, he]
    rcases huntouched.step (jobStep_act b a i) with ⟨hd, h⟩ | ⟨hd, j, label, -, hlabel, h⟩
    · rw [hd]
      exact .inl ⟨h, rfl, rfl, rfl⟩
    · refine .inr ⟨j, label, 0, ⟨hlabel, none, ?_, ?_⟩, ?_⟩
      · rw [endingsIn_snoc, he, hd]
        rfl
      · rw [signalsIn_snoc, hs, hd]
        exact h.mono (stopped_act b a)
      · rw [hd]
        rfl
  · obtain ⟨hafter, hanswer⟩ := follows_act a hfollows
    rcases hanswer with h | h
    · refine .inr ⟨j₀, label, n, hafter, ?_⟩
      rw [answersIn_snoc, ha, h]
      exact List.append_nil _
    · refine .inr ⟨j₀, label, n + 1, hafter, ?_⟩
      rw [answersIn_snoc, ha, h]
      exact congrArg (none :: ·) List.replicate_succ'.symm

theorem accords_play (script : List (Action α)) (i : Nat) :
    (({} : Background α).play script).Accords i (({} : Background α).past i script) := by
  have hempty : ({} : Background α).Accords i [] :=
    .inl ⟨⟨rfl, rfl, rfl, fun j hj => by cases hj⟩, rfl, rfl, rfl⟩
  exact play_past (I := fun b past => b.Accords i past) (fun _ _ a h => accords_act a h) hempty
    script

theorem Accords.status {past : List Deed} (h : b.Accords i past) {j : Job}
    (hj : b.jobs[i]? = some j) : JobStatus (answersIn past) (b.ends i) j := by
  rw [ends_eq]
  rcases h with ⟨h, ha, -, -⟩ | ⟨j₀, label, n, ⟨-, e, -, h⟩, ha⟩
  · rw [ha]
    exact h.status hj
  · exact h.status hj (ha ▸ List.mem_cons_self)

theorem calls_play (script : List (Action α)) :
    (b.view i).calls <+: ((b.play script).view i).calls :=
  Reaches.preserves (I := fun d => (b.view i).calls <+: (d.view i).calls)
    (fun d a h => h.trans (jobStep_act d a i).calls_grow.1) ⟨script, rfl⟩ List.prefix_rfl

theorem calls_closed (hb : ({} : Background α).Reaches b) (hclosed : b.mailbox.closed = true)
    (script : List (Action α)) : ((b.play script).view i).calls = (b.view i).calls := by
  let I (d : Background α) : Prop :=
    d.Lives i ∧ (d.view i).closed = true ∧ (d.view i).calls = (b.view i).calls
  have hact (d : Background α) (a : Action α) (h : I d) : I (d.act a) := by
    obtain ⟨hlives, hd, hcalls⟩ := h
    have hletters : (d.view i).letters = [] := by
      rcases hlives with h | ⟨j₀, label, -, sent, e, h⟩
      · exact h.letters
      · exact h.no_letters_of_closed hd
    have hstep := jobStep_act d a i
    exact ⟨lives_act a hlives, hstep.calls_grow.2 hd,
      (hstep.calls_of_no_letters hletters).trans hcalls⟩
  exact (Reaches.preserves hact ⟨script, rfl⟩ ⟨lives hb i, hclosed, rfl⟩).2.2

theorem exists_job_play {j : Job} (hj : b.jobs[i]? = some j) (script : List (Action α)) :
    ∃ j', (b.play script).jobs[i]? = some j' := by
  have hsome : ∃ j', ((b.play script).view i).job = some j' :=
    Reaches.preserves (I := fun d : Background α => ∃ j', (d.view i).job = some j')
      (fun d a h => by
        obtain ⟨j', hj'⟩ := h
        obtain ⟨j'', hj'', -⟩ := (jobStep_act d a i).keeps_task hj'
        exact ⟨j'', hj''⟩) ⟨script, rfl⟩ ⟨j, hj⟩
  exact hsome

/-- What is known at any time of a job with such a past. -/
structure Lifecycle (b : Background α) (i : Nat) (past : List Deed) (j : Job) : Prop where
  created : j.state = .created ↔ none ∉ answersIn past
  running : j.state = .running ↔ none ∈ answersIn past ∧ b.ends i = []
  terminal : j.state.isTerminal = true ↔ b.ends i ≠ []
  delivered : j.delivered = true ↔ b.ends i ≠ []
  told : ∀ o s, (o, s) ∈ b.ends i → s = j.state ∧
    ((∃ t, o = .ok t) ↔ j.state = .succeeded) ∧
    ((∃ p f, o = .error (.unreadable p f)) ↔ j.state = .failed) ∧
    ((∃ t, o = .error (.cancelled t)) ↔ j.state = .cancelled)
  answers : answersIn past = [] ∨
    ∃ n, answersIn past = none :: List.replicate n (some .alreadyStarted)
  again : none ∈ answersIn past → b.run i = .error .alreadyStarted ∧ b.act (.run i) = b
  once : (b.ends i).length ≤ 1
  /-- The worker has finished when there is nothing left of its work. -/
  finished : none ∈ answersIn past → (b.defaultLane ++ b.idleLane).filter (·.isFor i) = [] →
    ∃ e, endingsIn past = [e]
  heard : ∀ o, .outcome o ∈ endingsIn past → b.mailbox.waiting = [] → b.mailbox.closed = false →
    (b.ends i).length = 1
  final : j.state.isTerminal = true → ∀ script, ∃ j', (b.play script).jobs[i]? = some j' ∧
    j'.state = j.state ∧ (b.play script).ends i = b.ends i
  abandoned : j.state = .running → b.mailbox.closed = true → ∀ script, ∃ j',
    (b.play script).jobs[i]? = some j' ∧ j'.state = .running ∧ j'.delivered = false ∧
      (b.play script).ends i = []

theorem status_play (script : List (Action α)) {j : Job}
    (hj : (({} : Background α).play script).jobs[i]? = some j) :
    JobStatus (answersIn (({} : Background α).past i script))
      ((({} : Background α).play script).ends i) j :=
  (accords_play script i).status hj

theorem answers_play (script : List (Action α)) (i : Nat) :
    answersIn (({} : Background α).past i script) = [] ∨
      ∃ n, answersIn (({} : Background α).past i script) =
        none :: List.replicate n (some .alreadyStarted) := by
  rcases accords_play script i with ⟨-, h, -⟩ | ⟨_, _, n, -, h⟩
  · exact .inl h
  · exact .inr ⟨n, h⟩

theorem run_started {j : Job} (hj : b.jobs[i]? = some j) (hstate : j.state ≠ .created) :
    b.run i = .error .alreadyStarted ∧ b.act (.run i) = b := by
  have hrun : b.run i = .error .alreadyStarted := by
    rw [run, hj]
    exact if_pos hstate
  refine ⟨hrun, ?_⟩
  rw [act, hrun]
  rfl

theorem Accords.finished {past : List Deed} (h : b.Accords i past) (ha : none ∈ answersIn past)
    (hw : (b.view i).works = []) : ∃ e, endingsIn past = [e] := by
  rcases h with ⟨-, hno, -⟩ | ⟨j₀, label, n, ⟨-, e, he, h⟩, -⟩
  · rw [hno] at ha
    cases ha
  · cases h with
    | counting _ hworks =>
        rw [hw] at hworks
        cases hworks
    | _ => exact ⟨_, he⟩

theorem Accords.heard {past : List Deed} (h : b.Accords i past) {o : Outcome}
    (ho : .outcome o ∈ endingsIn past) (hl : (b.view i).letters = [])
    (hopen : b.mailbox.closed = false) : (b.ends i).length = 1 := by
  rcases h with ⟨-, -, -, hno⟩ | ⟨j₀, label, n, ⟨-, e, he, h⟩, -⟩
  · rw [hno] at ho
    cases ho
  · rw [he] at ho
    obtain rfl := Option.mem_toList.1 ho
    rw [ends_eq]
    exact h.heard hl hopen

theorem ended_play (s : List (Action α)) {j : Job}
    (hj : (({} : Background α).play s).jobs[i]? = some j) (hterminal : j.state.isTerminal = true)
    (t : List (Action α)) : ∃ j', ((({} : Background α).play s).play t).jobs[i]? = some j' ∧
      j'.state = j.state ∧
        ((({} : Background α).play s).play t).ends i = (({} : Background α).play s).ends i := by
  obtain ⟨j', hj'⟩ := exists_job_play hj t
  have hlater := hj'
  rw [← play_append] at hlater
  have hstatus := status_play s hj
  have hstatus' := status_play (s ++ t) hlater
  rw [play_append] at hstatus'
  have hgrow : (({} : Background α).play s).ends i <+:
      ((({} : Background α).play s).play t).ends i := by
    rw [ends_eq, ends_eq]
    exact (calls_play t).filterMap _
  -- One end has been heard, and there is never more than one.
  have hsame := hgrow.eq_of_length_le (Nat.le_trans hstatus'.length_le
    (List.length_pos_iff.2 (hstatus.terminal_iff.1 hterminal)))
  obtain ⟨⟨o, x⟩, hx⟩ := List.exists_mem_of_ne_nil _ (hstatus.terminal_iff.1 hterminal)
  refine ⟨j', hj', ?_, hsame.symm⟩
  rw [(hstatus'.state_of_mem (hsame ▸ hx)).2, (hstatus.state_of_mem hx).2]

theorem abandoned_play (s : List (Action α)) {j : Job}
    (hj : (({} : Background α).play s).jobs[i]? = some j) (hrunning : j.state = .running)
    (hclosed : (({} : Background α).play s).mailbox.closed = true) (t : List (Action α)) :
    ∃ j', ((({} : Background α).play s).play t).jobs[i]? = some j' ∧ j'.state = .running ∧
      j'.delivered = false ∧ ((({} : Background α).play s).play t).ends i = [] := by
  obtain ⟨j', hj'⟩ := exists_job_play hj t
  have hlater := hj'
  rw [← play_append] at hlater
  obtain ⟨ha, hends⟩ := (status_play s hj).running_iff.1 hrunning
  have hstatus' := status_play (s ++ t) hlater
  rw [play_append, past_append, answersIn, List.filterMap_append] at hstatus'
  have hnone : ((({} : Background α).play s).play t).ends i = [] := by
    rw [ends_eq, calls_closed ⟨s, rfl⟩ hclosed t, ← ends_eq, hends]
  refine ⟨j', hj', hstatus'.running_iff.2 ⟨List.mem_append_left _ ha, hnone⟩, ?_, hnone⟩
  exact Bool.eq_false_iff.2 fun h => hstatus'.delivered_iff.1 h hnone

/-- Every job there is at some point of a script has come there in good order. -/
theorem lifecycle (script : List (Action α)) (i : Nat) {j : Job}
    (hj : (({} : Background α).play script).jobs[i]? = some j) :
    Lifecycle (({} : Background α).play script) i (({} : Background α).past i script) j := by
  have hstatus := status_play script hj
  have haccords := accords_play script i
  refine ⟨hstatus.created_iff, hstatus.running_iff, hstatus.terminal_iff, hstatus.delivered_iff,
    ?_, answers_play script i, ?_, hstatus.length_le, haccords.finished, ?_,
    ended_play script hj, abandoned_play script hj⟩
  · intro o s ho
    obtain ⟨hs, hstate⟩ := hstatus.state_of_mem ho
    refine ⟨hs, ?_, ?_, ?_⟩
    · rw [hstate, stateAfter_eq_succeeded]
    · rw [hstate, stateAfter_eq_failed]
    · rw [hstate, stateAfter_eq_cancelled]
  · intro ha
    exact run_started hj fun hcreated => hstatus.created_iff.1 hcreated ha
  · intro o ho hwaiting hopen
    have hletters : (({} : Background α).play script).mailbox.waiting.filter (·.isFor i) = [] := by
      rw [hwaiting]
      rfl
    exact haccords.heard ho hletters hopen

def sampleLife : List (Action Unit) :=
  [.create (sampleSpec ['/', 'a']), .run 0, .run 0] ++ List.replicate 12 (.move .idle 0) ++
    [.cancel 0, .read, .cancel 0, .run 0]

theorem lifecycle_sample :
    let b := ({} : Background Unit).play sampleLife
    let past := ({} : Background Unit).past 0 sampleLife
    ∃ j, b.jobs[0]? = some j ∧
      (past.filterMap Deed.answer?).map Option.isNone = [true, false, false] ∧
      j.state = .cancelled ∧ Lifecycle b 0 past j := by
  intro b past
  have hend : b.jobs[0]?.map (·.state) = some .cancelled := by decide +kernel
  obtain ⟨j, hj, hstate⟩ := Option.map_eq_some_iff.1 hend
  refine ⟨j, hj, by decide +kernel, hstate, lifecycle sampleLife 0 hj⟩

end Background

end TreeTally
