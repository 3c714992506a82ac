import TreeTally.Proofs.Handles.Served

namespace TreeTally

open Background

/-- What goes with a status is there, and nothing else is. -/
def DoneNotice.Complete (notice : DoneNotice) : Prop :=
  match notice.status with
  | .ok | .cancelled => notice.totals.isSome = true ∧ notice.message = none
  | .error => notice.totals = none ∧ notice.message.isSome = true
  | .invalidArgument | .nullPointer | .alreadyStarted => False

def Status.stateAfter : Status → JobState
  | ok => .succeeded
  | cancelled => .cancelled
  | error | invalidArgument | nullPointer | alreadyStarted => .failed

theorem complete_noticeOf (o : Outcome) : (noticeOf o).Complete := by
  rcases o with (_ | _) | t
  · exact ⟨rfl, rfl⟩
  · exact ⟨rfl, rfl⟩
  · exact ⟨rfl, rfl⟩

theorem stateAfter_noticeOf (o : Outcome) : (noticeOf o).status.stateAfter = stateAfter o := by
  rcases o with (_ | _) | t <;> rfl

namespace Handles

def service? (s : Handles) (i : Nat) : Option (Office × Nat) :=
  match s.jobs[i]? with
  | some ⟨.started m n, _⟩ => s.offices[m]?.map (·, n)
  | _ => none

def told (s : Handles) (i : Nat) : List Callback := (s.service? i).elim [] fun (x, n) => x.told n

/-- How often the callback for the end of a job has been called, and with what. -/
def notices (s : Handles) (i : Nat) : List DoneNotice := (s.told i).filterMap Callback.notice?

def trouble? (s : Handles) (i : Nat) : Option Failure :=
  (s.service? i).bind fun (x, n) => x.work.trouble? n

/-- The worker has posted the end of the job, and nobody has read it. -/
def Posted (s : Handles) (i : Nat) : Prop :=
  ∃ x n out, s.service? i = some (x, n) ∧ .counted n out ∈ x.work.mailbox.waiting

/-- The mailbox was not freed, and one more iteration finds nothing in it. -/
def Drained (s : Handles) (m : Nat) : Prop :=
  s.office? (some m) ≠ none ∧ (s.answer (.iterate (some m))).1 = .flag false

/-- What is promised at any time to the caller who has run the job at the mailbox, with a callback
for its end and maybe one for its progress. -/
structure Promised (t : Handles) (i m : Nat) (progress : Option Nat) (done : Nat) : Prop where
  shape : ∃ totals ends, t.told i = callbacksOf progress done totals ends ∧ ends.length ≤ 1
  reading : ∀ more, t.told i <+: (t.play more).told i ∧
    ((∀ e ∈ more, e.reads m = false) → (t.play more).told i = t.told i)
  notice : ∀ notice, .done done notice ∈ t.told i → notice.Complete ∧
    (t.job? (some i) ≠ none →
      (t.answer (.state (some i))).1 = .state notice.status.stateAfter)
  /-- Who reads the mailbox until it is empty has read the end. -/
  posted : t.Posted i → ∀ more, (t.play more).Drained m → ((t.play more).notices i).length = 1
  drained : t.office? (some m) ≠ none → (t.answer (.dispatch (some m))).2.Drained m
  mailboxFreed : t.office? (some m) = none → ∀ more, (t.play more).told i = t.told i
  /-- A job that is freed while it runs reports no more, and ends cancelled unless its worker has
  ended by then on a failure. -/
  jobFreed : (t.answer (.state (some i))).1 = .state .running →
    ∀ more, let u := (t.answer (.freeJob (some i))).2.play more
      (u.told i).filterMap Callback.totals? = (t.told i).filterMap Callback.totals? ∧
      ∀ notice, .done done notice ∈ u.told i → match t.trouble? i with
        | none => notice.status = .cancelled
        | some f => notice = noticeOf (.error f) ∧ notice.status = .error

/-- Where a job stands that was started. -/
structure Reports (t : Handles) (i m n : Nat) (x : Office) : Prop where
  job : ∃ f, t.jobs[i]? = some ⟨.started m n, f⟩
  office : t.offices[m]? = some x

variable {s t : Handles} {i m n c : Nat} {x y : Office} {p : Option Nat} {j₀ : Job}
variable {label : Option Nat}

namespace Reports

theorem play (h : t.Reports i m n x) (script : List Step) : ∃ y, (t.play script).Reports i m n y ∧
    x.Onward (∃ e ∈ script, e.reads m = true) y := by
  obtain ⟨⟨f, hf⟩, hx⟩ := h
  obtain ⟨g, hg, -⟩ := play_started script hf
  obtain ⟨y, hy, hxy⟩ := play_office script hx
  exact ⟨y, ⟨⟨g, hg⟩, hy⟩, hxy⟩

theorem service (h : t.Reports i m n x) : t.service? i = some (x, n) := by
  obtain ⟨⟨f, hf⟩, hx⟩ := h
  rw [service?, hf]
  dsimp only
  rw [hx]
  rfl

theorem told (h : t.Reports i m n x) : t.told i = x.told n := by
  rw [Handles.told, h.service]
  rfl

theorem trouble? (h : t.Reports i m n x) : t.trouble? i = x.work.trouble? n := by
  rw [Handles.trouble?, h.service]
  rfl

theorem posted (h : t.Reports i m n x) (hp : t.Posted i) :
    ∃ out, .counted n out ∈ x.work.mailbox.waiting := by
  obtain ⟨y, k, out, hservice, hout⟩ := hp
  rw [h.service] at hservice
  cases hservice
  exact ⟨out, hout⟩

theorem office?_eq (h : t.Reports i m n x) :
    t.office? (some m) = if x.work.mailbox.closed then none else some (m, x) := by
  rw [office?]
  simp only [Option.bind_some, Option.pure_def, Option.bind_eq_bind, h.office, Office.open?]
  split <;> rfl

theorem stateAt (h : t.Reports i m n x) :
    t.stateAt (.started m n) = ((x.work.jobs[n]?).map (·.state)).getD .failed := by
  rw [Handles.stateAt, h.office]
  rfl

theorem job? (h : t.Reports i m n x) (hfree : t.job? (some i) ≠ none) :
    t.job? (some i) = some (i, .started m n) := by
  obtain ⟨⟨k, q⟩, hq⟩ := Option.ne_none_iff_exists'.1 hfree
  obtain ⟨hk, hjob⟩ := job?_eq_some.1 hq
  obtain rfl := Option.some.inj hk
  obtain ⟨f, hf⟩ := h.job
  rw [hf] at hjob
  cases hjob
  exact hq

theorem state (h : t.Reports i m n x) (hfree : t.job? (some i) ≠ none) :
    (t.answer (.state (some i))).1 =
      .state (((x.work.jobs[n]?).map (·.state)).getD .failed) := by
  rw [answer, Handles.state, h.job? hfree, ← h.stateAt]
  rfl

theorem running (h : t.Reports i m n x) (hstate : (t.answer (.state (some i))).1 = .state .running) :
    t.job? (some i) ≠ none ∧ ∃ j, x.work.jobs[n]? = some j ∧ j.state = .running := by
  have hfree : t.job? (some i) ≠ none := by
    intro hnone
    rw [answer, Handles.state, hnone] at hstate
    cases hstate
  have hrunning := Reply.state.inj ((h.state hfree).symm.trans hstate)
  cases hj : x.work.jobs[n]? with
  | none =>
      rw [hj] at hrunning
      cases hrunning
  | some j =>
      rw [hj] at hrunning
      exact ⟨hfree, j, rfl, hrunning⟩

theorem drained_iff (h : t.Reports i m n x) :
    t.Drained m ↔ x.work.mailbox.waiting = [] ∧ x.work.mailbox.closed = false := by
  rw [Drained, answer, Handles.iterate, h.office?_eq]
  cases x.work.mailbox.closed with
  | true => exact ⟨fun hno => absurd rfl hno.1, fun hno => absurd hno.2.symm Bool.false_ne_true⟩
  | false =>
      have hflag : x.work.iterate.1 = false ↔ x.work.mailbox.waiting = [] := by
        cases hwaiting : x.work.mailbox.waiting with
        | nil => simp [Background.iterate, iterate?_nil hwaiting]
        | cons a rest => simp [Background.iterate, iterate?_cons hwaiting]
      refine ⟨fun hd => ⟨hflag.1 (Reply.flag.inj hd.2), rfl⟩, fun hd => ⟨Option.some_ne_none _, ?_⟩⟩
      exact congrArg Reply.flag (hflag.2 hd.1)

theorem freed (h : t.Reports i m n x) (hfree : t.job? (some i) ≠ none) :
    (t.answer (.freeJob (some i))).2.Reports i m n { x with work := x.work.release n } := by
  have heq : (t.answer (.freeJob (some i))).2 = { t.release (.started m n) with
      jobs := (t.release (.started m n)).jobs.modify i fun h => { h with freed := true }
      lastError := none } := by
    rw [answer, freeJob, h.job? hfree]
    rfl
  rw [heq]
  constructor
  · obtain ⟨f, hf⟩ := h.job
    refine ⟨true, ?_⟩
    dsimp only
    rw [jobs_release, List.getElem?_modify_eq, hf]
    rfl
  · exact (offices_release (.started m n) h.office).trans (congrArg some (if_pos rfl))

theorem drained_dispatch (h : t.Reports i m n x) (hreached : ({} : Background Nat).Reaches x.work)
    (hopen : t.office? (some m) ≠ none) : (t.answer (.dispatch (some m))).2.Drained m := by
  have heq := h.office?_eq
  split at heq
  · exact absurd heq hopen
  rename_i hclosed
  have hafter : (t.answer (.dispatch (some m))).2 = (t.modifyWork m (·.dispatch.2)).succeed := by
    rw [answer, Handles.dispatch, heq]
    rfl
  have hreports : (t.answer (.dispatch (some m))).2.Reports i m n
      { x with work := x.work.dispatch.2 } := by
    have hoffice := offices_modifyWork t m m (·.dispatch.2)
    rw [h.office, Option.map_some, if_pos rfl] at hoffice
    rw [hafter]
    exact ⟨h.job, hoffice⟩
  refine hreports.drained_iff.2 ⟨(drains (emptied hreached)).emptied, ?_⟩
  obtain ⟨k, hk⟩ := exists_reads x.work.backlog x.work
  have hread (a : Action Nat) (ha : a ∈ List.replicate k .read) : a ≠ .closeMailbox := by
    obtain rfl := List.eq_of_mem_replicate ha
    intro hno
    cases hno
  rw [Background.dispatch, hk, closed_play hread]
  exact Bool.eq_false_iff.2 hclosed

end Reports

theorem run_eq_ok {job runner mailbox callback : Option Nat}
    (h : (s.run job runner mailbox callback).1 = .ok) :
    ∃ i d m x work, s.job? job = some (i, .draft d) ∧ s.office? mailbox = some (m, x) ∧
      d.enter x.work = .ok work ∧ (s.run job runner mailbox callback).2 =
        ({ s with offices := s.offices.set m ⟨work, x.callbacks ++ [callback]⟩ }.setPlace i
          (.started m x.work.jobs.length)).succeed := by
  rw [run] at h ⊢
  cases hjob : s.job? job with
  | none =>
      rw [hjob] at h
      cases h
  | some a =>
      rw [hjob] at h
      cases hrunner : s.runner? runner with
      | none =>
          rw [hrunner] at h
          cases h
      | some r =>
          rw [hrunner] at h
          cases hmailbox : s.office? mailbox with
          | none =>
              rw [hmailbox] at h
              cases h
          | some b =>
              rw [hmailbox] at h
              obtain ⟨i, q⟩ := a
              obtain ⟨m, x⟩ := b
              cases q with
              | started => cases h
              | draft d =>
                  dsimp only at h ⊢
                  cases hwork : d.enter x.work with
                  | error e =>
                      rw [hwork] at h
                      cases h
                  | ok work => exact ⟨i, d, m, x, work, rfl, rfl, hwork, rfl⟩

theorem reports_run {runner : Option Nat} (hs : s.Sound)
    (h : (s.answer (.run (some i) runner (some m) (some c))).1 = .status .ok) :
    ∃ d n x j₀ label, s.jobs[i]? = some ⟨.draft d, false⟩ ∧
      (s.answer (.run (some i) runner (some m) (some c))).2.Reports i m n x ∧
      x.Serves n d.callback c j₀ label ∧ x.told n = [] := by
  obtain ⟨k, d, l, x, work, hjob, hmailbox, hwork, hafter⟩ := run_eq_ok (Reply.status.inj h)
  obtain ⟨hk, hi⟩ := job?_eq_some.1 hjob
  obtain ⟨hl, hx, -⟩ := office?_eq_some.1 hmailbox
  obtain rfl := Option.some.inj hk
  obtain rfl := Option.some.inj hl
  obtain ⟨b₁, j₀, hentered⟩ := Draft.entered_of_ok hwork
  obtain ⟨label, hserves, htold⟩ :=
    Office.serves_entered (hs.reached m x hx) (hs.callbacks m x hx) hentered c
  refine ⟨d, _, _, j₀, label, hi, ?_, hserves, htold⟩
  show (s.run _ _ _ _).2.Reports i m _ _
  rw [hafter]
  constructor
  · refine ⟨false, ?_⟩
    show (s.jobs.modify i _)[i]? = _
    rw [List.getElem?_modify_eq, hi]
    rfl
  · show (s.offices.set m _)[m]? = _
    rw [List.getElem?_set, if_pos rfl, if_pos (List.getElem?_eq_some_iff.1 hx).1]

namespace Reports

theorem notices (h : t.Reports i m n x) (hx : x.Serves n p c j₀ label) :
    t.notices i = ((x.work.ends n).map (·.1)).map noticeOf := by
  rw [Handles.notices, h.told, hx.tells.1, notices_callbacksOf]

theorem promised (h : t.Reports i m n x) (hx : x.Serves n p c j₀ label) : t.Promised i m p c := by
  constructor
  · refine ⟨_, _, h.told.trans hx.tells.1, ?_⟩
    rw [List.length_map]
    exact hx.tells.2
  · intro more
    obtain ⟨y, hy, hxy⟩ := h.play more
    rw [h.told, hy.told]
    refine ⟨hx.told_prefix hxy, fun hquiet => hx.told_quiet hxy ?_⟩
    rintro ⟨e, he, hreads⟩
    rw [hquiet e he] at hreads
    cases hreads
  · intro notice hnotice
    rw [h.told, hx.tells.1] at hnotice
    obtain ⟨o, ho, rfl⟩ := mem_callbacksOf hnotice
    obtain ⟨j, hj, hstate⟩ := hx.state_of_end ho
    refine ⟨complete_noticeOf o, fun hfree => ?_⟩
    rw [h.state hfree, hj, stateAfter_noticeOf, ← hstate]
    rfl
  · intro hposted more hdrained
    obtain ⟨out, hout⟩ := h.posted hposted
    obtain ⟨y, hy, hxy⟩ := h.play more
    obtain ⟨hempty, hopen⟩ := hy.drained_iff.1 hdrained
    rw [hy.notices (hx.onward hxy), List.length_map, List.length_map]
    exact hx.ends_posted hxy hout hempty hopen
  · exact h.drained_dispatch hx.reached
  · intro hclosed more
    obtain ⟨y, hy, hxy⟩ := h.play more
    rw [h.told, hy.told]
    refine hx.told_closed hxy ?_
    have heq := h.office?_eq.symm.trans hclosed
    split at heq
    · assumption
    · cases heq
  · intro hstate more
    obtain ⟨hfree, j, hj, hrunning⟩ := h.running hstate
    obtain ⟨y, hy, hxy⟩ := (h.freed hfree).play more
    have hxy' : x.Onward False { x with work := x.work.release n } :=
      (Office.Onward.of_act x (a := .release n) nofun).mono nofun
    obtain ⟨hsnapshots, hends⟩ := hx.released hj hrunning hxy
    have htold := ((hx.onward hxy').onward hxy).tells.1
    dsimp only
    rw [hy.told, h.told, htold, hx.tells.1, totals_callbacksOf, totals_callbacksOf, hsnapshots]
    refine ⟨rfl, fun notice hnotice => ?_⟩
    obtain ⟨o, ho, rfl⟩ := mem_callbacksOf hnotice
    have hend := hends o ho
    rw [h.trouble?]
    cases htrouble : x.work.trouble? n with
    | none =>
        rw [htrouble] at hend
        obtain ⟨t, rfl⟩ := hend
        rfl
    | some f =>
        rw [htrouble] at hend
        obtain ⟨rfl, hreal⟩ := hend
        cases f with
        | cancelled t => cases hreal
        | unreadable q e => exact ⟨rfl, rfl⟩

end Reports

/-- Whatever has been done before, and whatever is done afterwards, the caller who runs a job gets what
is promised. -/
theorem promised_run (before after : List Step) {runner : Option Nat}
    (h : ((({} : Handles).play before).answer (.run (some i) runner (some m) (some c))).1 =
      .status .ok) :
    let s := (({} : Handles).play before).answer (.run (some i) runner (some m) (some c))
    ∃ d : Draft, (({} : Handles).play before).jobs[i]? = some ⟨.draft d, false⟩ ∧
      s.2.told i = [] ∧ (s.2.play after).Promised i m d.callback c := by
  obtain ⟨d, n, x, j₀, label, hd, hreports, hserves, htold⟩ := reports_run (sound before) h
  obtain ⟨y, hy, hxy⟩ := hreports.play after
  exact ⟨d, hd, hreports.told.trans htold, hy.promised (hserves.onward hxy)⟩

def sampleBefore : List Step :=
  let defaults : JobDefaults :=
    { fs := { stat _ _ := .ok ⟨.folder, 0, ⟨""⟩⟩, list _ _ := .ok [] }
      clock := fun _ => ⟨0⟩
      effort := fun _ => 20 }
  [.call (.newRunner none), .call .newMailbox,
    .call (.newJob defaults (.array [some [47, 97]]) false), .call (.setProgress (some 0) (some 7))]

def sampleAfter : List Step :=
  List.replicate 3 (.move 0 .idle 0) ++ [.call (.freeJob (some 0)), .call (.freeRunner (some 0))] ++
    List.replicate 9 (.move 0 .idle 0) ++ [.call (.dispatch (some 0))]

theorem promised_run_sample :
    let s := ({} : Handles).play sampleBefore
    let a := s.answer (.run (some 0) (some 0) (some 0) (some 8))
    a.1 = .status .ok ∧ ((a.2.play sampleAfter).notices 0).map (·.status) = [.cancelled] ∧
      ∃ d : Draft, s.jobs[0]? = some ⟨.draft d, false⟩ ∧ a.2.told 0 = [] ∧
        (a.2.play sampleAfter).Promised 0 0 d.callback 8 := by
  intro s a
  have hstatus : a.1 = .status .ok := by decide +kernel
  exact ⟨hstatus, by decide +kernel, promised_run sampleBefore sampleAfter hstatus⟩

end Handles

end TreeTally
