import TreeTally.Proofs.Handles.Sound
import TreeTally.Proofs.Background.Delivery
import TreeTally.Proofs.Background.Cancel

namespace TreeTally

open Background

namespace Callback

def totals? : Callback → Option Tally
  | progress _ t => some t
  | done _ _ => none

def notice? : Callback → Option DoneNotice
  | done _ notice => some notice
  | progress _ _ => none

end Callback

/-- The calls back of a job that has reported so much and has come to such ends. -/
def callbacksOf (progress : Option Nat) (done : Nat) (totals : List Tally) (ends : List Outcome) :
    List Callback :=
  (progress.toList.flatMap fun f => totals.map (.progress f)) ++ ends.map (.done done ∘ noticeOf)

theorem notices_callbacksOf (p : Option Nat) (c : Nat) (totals : List Tally) (ends : List Outcome) :
    (callbacksOf p c totals ends).filterMap Callback.notice? = ends.map noticeOf := by
  have hnone : (p.toList.flatMap fun f => totals.map (.progress f)).filterMap Callback.notice? = [] := by
    cases p <;> simp [Callback.notice?]
  have hsome : Callback.notice? ∘ (.done c ∘ noticeOf) = some ∘ noticeOf := rfl
  rw [callbacksOf, List.filterMap_append, hnone, List.filterMap_map, hsome, List.filterMap_eq_map]
  rfl

theorem totals_callbacksOf (p : Option Nat) (c : Nat) (totals : List Tally) (ends : List Outcome) :
    (callbacksOf p c totals ends).filterMap Callback.totals? = p.toList.flatMap fun _ => totals := by
  have hnone : (ends.map (.done c ∘ noticeOf)).filterMap Callback.totals? = [] := by
    simp [Callback.totals?]
  have hsome (f : Nat) : (totals.map (.progress f)).filterMap Callback.totals? = totals := by
    rw [List.filterMap_map]
    exact List.filterMap_some
  rw [callbacksOf, List.filterMap_append, hnone, List.append_nil]
  cases p with
  | none => rfl
  | some f =>
      simp only [Option.toList_some, List.flatMap_cons, List.flatMap_nil, List.append_nil, hsome]

theorem mem_callbacksOf {p : Option Nat} {c : Nat} {totals : List Tally} {ends : List Outcome}
    {notice : DoneNotice} (h : .done c notice ∈ callbacksOf p c totals ends) :
    ∃ o ∈ ends, notice = noticeOf o := by
  have hnotice : notice ∈ (callbacksOf p c totals ends).filterMap Callback.notice? :=
    List.mem_filterMap.2 ⟨_, h, rfl⟩
  rw [notices_callbacksOf] at hnotice
  obtain ⟨o, ho, rfl⟩ := List.mem_map.1 hnotice
  exact ⟨o, ho, rfl⟩

namespace Background

variable {α : Type} {b c : Background α} {i : Nat}

theorem trouble?_release (b : Background α) (i : Nat) : (b.release i).trouble? i = b.trouble? i := by
  rw [release]
  split
  · rfl
  split
  · rw [cancel]
    split
    · rfl
    · dsimp only
      split <;> rfl
  · rfl

theorem jobs_release (b : Background α) (i : Nat) : (b.release i).jobs = b.jobs := by
  rw [release]
  split
  · rfl
  split
  · exact jobs_cancel (b.log .releasedWhileRunning) i
  · rfl

theorem end_stopped (hb : ({} : Background α).Reaches b) (hstop : b.stopped i = true)
    (hopen : ∀ j, b.jobs[i]? = some j → j.delivered = false) (hc : b.Reaches c) {o : Outcome}
    {st : JobState} (ho : .done i o st ∈ (c.view i).calls) :
    match b.trouble? i with
    | none => ∃ t, o = .error (.cancelled t)
    | some f => o = .error f ∧ f.isCancelled = false := by
  cases htrouble : b.trouble? i with
  | none =>
      have hnot (o : Outcome) (s : JobState) : Call.done i o s ∉ (b.view i).calls := by
        rcases lives hb i with h | ⟨j₀, label, -, h⟩
        · rw [h.calls]
          exact List.not_mem_nil
        · exact h.not_done hopen o s
      exact ((tends_cancelled hc hstop htrouble hnot).call o st ho).1
  | some f =>
      rcases lives hb i with h | ⟨j₀, label, hlabel, h⟩
      · rw [trouble?, View.trouble?, h.works, h.letters] at htrouble
        cases htrouble
      · obtain ⟨hreal, htends⟩ := h.tends_troubled htrouble hopen
        exact ⟨((tends_failed hc hstop hlabel h htends).call o st ho).1, hreal⟩

end Background

namespace Office

def told (x : Office) (n : Nat) : List Callback :=
  x.called.filterMap fun a => if a.1 = n then some a.2 else none

def callbackOf (n c : Nat) : Call Nat → Option Callback
  | .progress job (some f) t => if job = n then some (.progress f t) else none
  | .done job o _ => if job = n then some (.done c (noticeOf o)) else none
  | _ => none

variable {x y : Office} {n c : Nat} {p label : Option Nat} {j₀ : Job} {r : Prop}

theorem told_eq (h : x.callbacks[n]? = some (some c)) :
    x.told n = (x.work.view n).calls.filterMap (callbackOf n c) := by
  have hcall : (fun a => (x.callback? a).bind fun a => if a.1 = n then some a.2 else none) =
      callbackOf n c := by
    funext a
    cases a with
    | progress job f t => cases f <;> rfl
    | done job o st =>
        rw [callback?, callbackOf]
        by_cases hn : job = n
        · rw [hn, h, if_pos rfl]
          exact if_pos rfl
        · rw [if_neg hn]
          cases x.callbacks[job]?.join with
          | none => rfl
          | some c' => exact if_neg hn
    | note | errandDone => rfl
  rw [told, called, List.filterMap_filterMap, hcall]
  refine filterMap_calls x.work fun a ha => ?_
  cases a with
  | progress job f t =>
      cases f with
      | none => rfl
      | some f => exact if_neg (of_decide_eq_false ha)
  | done job o st => exact if_neg (of_decide_eq_false ha)
  | note | errandDone => rfl

/-- The job was run here with a callback for its end, and one for its progress if it is observed. -/
structure Serves (x : Office) (n : Nat) (p : Option Nat) (c : Nat) (j₀ : Job)
    (label : Option Nat) : Prop where
  reached : ({} : Background Nat).Reaches x.work
  callback : x.callbacks[n]? = some (some c)
  observed : j₀.observer.isSome = true → p.isSome = true ∧ label = p
  labelled : Labelled j₀ label (x.work.view n)
  begun : Begun n j₀ label (x.work.stopped n) (x.work.view n)

theorem Serves.onward (h : x.Serves n p c j₀ label) (hxy : x.Onward r y) :
    y.Serves n p c j₀ label := by
  obtain ⟨hlabel, hbegun⟩ := hxy.begun h.labelled h.begun
  obtain ⟨more, hmore, -⟩ := hxy.callbacks
  refine ⟨h.reached.trans hxy.reaches, ?_, h.observed, hlabel, hbegun⟩
  rw [hmore, List.getElem?_append_left (List.getElem?_eq_some_iff.1 h.callback).1]
  exact h.callback

theorem serves_entered {d : Draft} {work b₁ : Background Nat} {j : Job}
    (hx : ({} : Background Nat).Reaches x.work) (hlength : x.callbacks.length = x.work.jobs.length)
    (h : d.Entered x.work work b₁ j) (c : Nat) : ∃ label,
      Serves ⟨work, x.callbacks ++ [some c]⟩ x.work.jobs.length d.callback c j label ∧
        told ⟨work, x.callbacks ++ [some c]⟩ x.work.jobs.length = [] := by
  obtain ⟨label, hbefore, hlabel, hbegun⟩ := begun_run (hx.trans h.reaches) h.job h.run
  have hcallback : (x.callbacks ++ [some c])[x.work.jobs.length]? = some (some c) := by
    rw [← hlength]
    exact List.getElem?_concat_length
  refine ⟨label, ⟨hx.trans h.reaches_all, hcallback, fun hsome => ?_, hlabel, hbegun⟩, ?_⟩
  · obtain ⟨k, hk⟩ := Option.isSome_iff_exists.1 hsome
    obtain ⟨f, hf, hobserver⟩ := h.observer k hk
    rw [hf, label_eq hbefore hk, hobserver]
    exact ⟨rfl, rfl⟩
  · -- Of a job that is not there yet nothing has been heard.
    have hnone : (x.work.view x.work.jobs.length).calls = [] := by
      rcases lives hx x.work.jobs.length with hlives | ⟨j₁, label₁, -, hlives⟩
      · exact hlives.calls
      · obtain ⟨j', hj', -⟩ := hlives.exists_job
        exact absurd (List.getElem?_eq_some_iff.1 hj').1 (Nat.lt_irrefl _)
    have hcalls : (work.view x.work.jobs.length).calls = (x.work.view x.work.jobs.length).calls :=
      congrArg (List.filter (Call.isFor x.work.jobs.length)) h.calls
    rw [told_eq hcallback, hcalls, hnone]
    rfl

namespace Serves

theorem tells (h : x.Serves n p c j₀ label) :
    x.told n = callbacksOf p c (x.work.snapshots n) ((x.work.ends n).map (·.1)) ∧
      (x.work.ends n).length ≤ 1 := by
  obtain ⟨sent, e, hstands⟩ := h.begun
  obtain ⟨passed, ends, hheard⟩ := hstands.all_heard
  obtain ⟨hpassed, hends⟩ := hheard.filterMap_eq
  have hprogress : (passed.map (.progress n label)).filterMap (callbackOf n c) =
      p.toList.flatMap fun f => passed.map (.progress f) := by
    cases ho : j₀.observer.isSome with
    | false =>
        rw [hheard.silent ho]
        cases p <;> rfl
    | true =>
        obtain ⟨hp, rfl⟩ := h.observed ho
        obtain ⟨f, rfl⟩ := Option.isSome_iff_exists.1 hp
        simp [List.filterMap_map, Function.comp_def, callbackOf]
  have hdone : (ends.map fun a => Call.done n a.1 a.2).filterMap (callbackOf n c) =
      (ends.map (·.1)).map (.done c ∘ noticeOf) := by
    simp [List.filterMap_map, Function.comp_def, callbackOf]
  rw [snapshots_eq, ends_eq, hpassed, hends, told_eq h.callback, hheard.calls,
    List.filterMap_append, hprogress, hdone]
  exact ⟨rfl, hheard.once⟩

theorem told_prefix (h : x.Serves n p c j₀ label) (hxy : x.Onward r y) : x.told n <+: y.told n := by
  obtain ⟨script, hscript⟩ := hxy.reaches
  rw [told_eq h.callback, told_eq (h.onward hxy).callback, ← hscript]
  exact (calls_play script).filterMap _

theorem told_quiet (h : x.Serves n p c j₀ label) (hxy : x.Onward r y) (hr : ¬r) :
    y.told n = x.told n := by
  have hcalls : (y.work.view n).calls = (x.work.view n).calls :=
    congrArg (List.filter (Call.isFor n)) (hxy.quiet hr)
  rw [told_eq h.callback, told_eq (h.onward hxy).callback, hcalls]

theorem told_closed (h : x.Serves n p c j₀ label) (hxy : x.Onward r y)
    (hclosed : x.work.mailbox.closed = true) : y.told n = x.told n := by
  obtain ⟨script, hscript⟩ := hxy.reaches
  rw [told_eq h.callback, told_eq (h.onward hxy).callback, ← hscript,
    calls_closed h.reached hclosed script]

theorem state_of_end (h : x.Serves n p c j₀ label) {o : Outcome}
    (ho : o ∈ (x.work.ends n).map (·.1)) :
    ∃ j, x.work.jobs[n]? = some j ∧ j.state = stateAfter o := by
  obtain ⟨⟨o, st⟩, hend, rfl⟩ := List.mem_map.1 ho
  obtain ⟨sent, e, hstands⟩ := h.begun
  obtain ⟨j, hj, -, -⟩ := hstands.exists_job
  have hstatus := hstands.status hj (List.mem_singleton.2 rfl : none ∈ [none])
  rw [ends_eq] at hend
  exact ⟨j, hj, (hstatus.state_of_mem hend).2⟩

theorem ends_posted (h : x.Serves n p c j₀ label) (hxy : x.Onward r y) {out : Outcome}
    (hposted : .counted n out ∈ x.work.mailbox.waiting) (hempty : y.work.mailbox.waiting = [])
    (hopen : y.work.mailbox.closed = false) : (y.work.ends n).length = 1 := by
  have hletter : Letter.counted n out ∈ (x.work.view n).letters :=
    List.mem_filter.2 ⟨hposted, decide_eq_true rfl⟩
  obtain ⟨sent, e, hstands⟩ := h.begun
  have hno {c' closed : Bool} {s : List Signal} {letters : List (Letter Nat)}
      {calls : List (Call Nat)} (htold : Told n j₀ label c' closed s letters calls) :
      Letter.counted n out ∉ letters := by
    intro hm
    obtain ⟨-, t, ht⟩ := htold.mem_letters hm
    cases ht
  obtain ⟨o, rfl⟩ : ∃ o, e = some (.outcome o) := by
    cases hstands with
    | counting _ _ htold => exact absurd hletter (hno htold)
    | posted => exact ⟨_, rfl⟩
    | lost _ _ _ _ htold => exact absurd hletter (hno htold)
    | ended => exact ⟨_, rfl⟩
  -- A walk that has ended has ended for good.
  let I (d : Background Nat) : Prop := Labelled j₀ label (d.view n) ∧
    ∃ sent, Stands n j₀ label (d.stopped n) sent (d.view n) (some (.outcome o))
  have hact (d : Background Nat) (a : Action Nat) (hd : I d) : I (d.act a) := by
    obtain ⟨hlabel, sent, hd⟩ := hd
    have hstep := jobStep_act d a n
    exact ⟨hlabel.step hstep, _, (hd.step hlabel hstep).mono (stopped_act d a)⟩
  obtain ⟨-, sent', hlater⟩ := hxy.reaches.preserves hact ⟨h.labelled, sent, hstands⟩
  rw [ends_eq]
  refine hlater.heard ?_ hopen
  show y.work.mailbox.waiting.filter _ = []
  rw [hempty]
  rfl

theorem released (h : x.Serves n p c j₀ label) {j : Job} (hj : x.work.jobs[n]? = some j)
    (hrunning : j.state = .running)
    (hxy : Onward r { x with work := x.work.release n } y) :
    y.work.snapshots n = x.work.snapshots n ∧ ∀ o ∈ (y.work.ends n).map (·.1),
      match x.work.trouble? n with
      | none => ∃ t, o = .error (.cancelled t)
      | some f => o = .error f ∧ f.isCancelled = false := by
  have hstop : (x.work.release n).stopped n = true := stopped_release h.reached hj hrunning
  obtain ⟨sent, e, hstands⟩ := h.begun
  have hstatus := hstands.status hj (List.mem_singleton.2 rfl : none ∈ [none])
  have hdelivered : j.delivered = false := by
    rw [← ends_eq] at hstatus
    exact Bool.eq_false_iff.2 fun hno =>
      hstatus.delivered_iff.1 hno (hstatus.running_iff.1 hrunning).2
  have hopen (j' : Job) (hj' : (x.work.release n).jobs[n]? = some j') : j'.delivered = false := by
    rw [jobs_release, hj] at hj'
    exact Option.some.inj hj' ▸ hdelivered
  obtain ⟨script, hscript⟩ := hxy.reaches
  constructor
  · have hcalls : (x.work.release n).calls = x.work.calls := calls_act x.work (a := .release n) nofun
    rw [← hscript, snapshots_stopped hstop, snapshots, snapshots, hcalls]
  · intro o ho
    obtain ⟨⟨o, st⟩, hend, rfl⟩ := List.mem_map.1 ho
    have hcall : Call.done n o st ∈ (y.work.view n).calls := by
      rw [ends_eq] at hend
      obtain ⟨a, ha, hsome⟩ := List.mem_filterMap.1 hend
      cases a with
      | done job o' st' =>
          rw [Call.end?] at hsome
          split at hsome
          · rename_i hjob
            cases hsome
            exact hjob ▸ ha
          · cases hsome
      | note | progress | errandDone => cases hsome
    rw [← trouble?_release]
    exact end_stopped (h.reached.trans (reaches_act x.work (.release n))) hstop hopen hxy.reaches
      hcall

end Serves

end Office

end TreeTally
