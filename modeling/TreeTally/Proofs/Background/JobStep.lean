import TreeTally.Proofs.Background.Past

namespace TreeTally

variable {α : Type}

open Background in
/-- All that an action can do to a job, under a token that reads as given before the action, and what
it does for the job by that. -/
inductive JobStep (i : Nat) (c : Bool) (v : View α) : Deed → View α → Prop
  | other {labels : List (Option α)} {tokens : Nat} (h : v.labels <+: labels)
      (ht : v.tokens ≤ tokens) : JobStep i c v .rest { v with labels, tokens }
  | refuse {j : Job} (h : v.job = some j) (hs : j.state ≠ .created) :
      JobStep i c v (.asked (some .alreadyStarted)) v
  | create {spec : JobSpec} (h : v.job = none) :
      JobStep i c v .rest { v with
        job := some { toJobSpec := spec, token := v.tokens }, tokens := v.tokens + 1 }
  | observe {j : Job} {label : Option α} (h : v.job = some j) :
      JobStep i c v .rest { v with
        job := some { j with observer := some v.labels.length }, labels := v.labels ++ [label] }
  | lift {j : Job} (h : v.job = some j) :
      JobStep i c v .rest
        { v with job := some { j with barrier := { j.barrier with lifted := true } } }
  | run {j : Job} {l r : List Work} (h : v.job = some j) (hs : j.state = .created)
      (hw : v.works = l ++ r) :
      JobStep i c v (.asked none) { v with
        job := some { j with state := .running }
        works := l ++ .count i j.observer 0 (.start j.options j.roots) :: r }
  | close : JobStep i c v .rest { v with letters := [], closed := true }
  | move {j : Job} {l r : List Work} {o : Option Nat} {seen : Nat} {w w' : Walk}
      {s : Option Signal} (h : v.job = some j) (hw : v.works = l ++ .count i o seen w :: r)
      (hf : w.finished? = none) (hs : w.step j.plan c = (w', s)) :
      JobStep i c v (.stepped s) { (v.hear? i j o seen s).1 with
        works := l ++ .count i o (v.hear? i j o seen s).2 w' :: r }
  | finish {l r : List Work} {o : Option Nat} {seen : Nat} {w : Walk} {e : Ending}
      (hw : v.works = l ++ .count i o seen w :: r) (hf : w.finished? = some e) :
      JobStep i c v (.ended e) { v.settle i e with works := l ++ r }
  | hearProgress {j : Job} {o : Nat} {t : Tally} {label : Option α} {rest : List (Letter α)}
      (h : v.job = some j) (hl : v.letters = .progress i o t :: rest) (ho : v.labels[o]? = some label) :
      JobStep i c v .rest { v with
        letters := rest, calls := if c then v.calls else v.calls ++ [.progress i label t] }
  | hearEnd {j : Job} {o : Outcome} {rest : List (Letter α)} (h : v.job = some j)
      (hl : v.letters = .counted i o :: rest) :
      JobStep i c v .rest { v with
        job := some { j with delivered := true, state := stateAfter (settleOutcome c o) }
        letters := rest
        calls := v.calls ++ [.done i (settleOutcome c o) (stateAfter (settleOutcome c o))] }
  | ignore {l : Letter α} {rest : List (Letter α)} (hl : v.letters = l :: rest)
      (h : v.job = none ∨ ∃ o t, l = .progress i o t ∧ v.labels[o]? = none) :
      JobStep i c v .rest { v with letters := rest }

theorem JobStep.refl (i : Nat) (c : Bool) (v : View α) : JobStep i c v .rest v :=
  .other List.prefix_rfl (Nat.le_refl _)

theorem JobStep.of_eq {i : Nat} {c : Bool} {v v' : View α} (h : v' = v) : JobStep i c v .rest v' :=
  h ▸ .refl i c v

theorem JobStep.grows {i : Nat} {c : Bool} {d : Deed} {v v' : View α} (h : JobStep i c v d v') :
    v.labels <+: v'.labels ∧ v.tokens ≤ v'.tokens := by
  cases h with
  | other hlabels htokens => exact ⟨hlabels, htokens⟩
  | create => exact ⟨List.prefix_rfl, Nat.le_succ _⟩
  | observe => exact ⟨List.prefix_append _ _, Nat.le_refl _⟩
  | @move j l r o seen w w' s =>
      obtain ⟨hlabels, htokens, -⟩ := v.hear?_fields i j o seen s
      exact ⟨hlabels.symm ▸ List.prefix_rfl, htokens.symm ▸ Nat.le_refl _⟩
  | @finish l r o seen w e =>
      obtain ⟨hlabels, htokens, -⟩ := v.settle_fields i e
      exact ⟨hlabels.symm ▸ List.prefix_rfl, htokens.symm ▸ Nat.le_refl _⟩
  | _ => exact ⟨List.prefix_rfl, Nat.le_refl _⟩

namespace Background

variable {b : Background α} {i : Nat}

theorem step_create {spec : JobSpec} {c : Bool} {b' : Background α} (h : b.create spec = .ok b') :
    JobStep i c (b.view i) .rest (b'.view i) := by
  rw [create] at h
  split at h
  · cases h
  · obtain rfl := Except.ok.inj h
    let j : Job := { toJobSpec := spec, token := b.tokens.length }
    have hview : (b.newToken.view i).tokens = (b.view i).tokens + 1 := by rw [view_newToken]
    show JobStep i c (b.view i) .rest
      { b.view i with job := (b.jobs ++ [j])[i]?, tokens := (b.newToken.view i).tokens }
    rw [hview]
    -- The new job is the last one, so that only the job after all others comes about.
    rcases Nat.lt_trichotomy i b.jobs.length with hlt | rfl | hgt
    · have hjob : (b.jobs ++ [j])[i]? = b.jobs[i]? := List.getElem?_append_left hlt
      rw [hjob]
      exact .other List.prefix_rfl (Nat.le_succ _)
    · have hjob : (b.jobs ++ [j])[b.jobs.length]? = some j := List.getElem?_concat_length
      rw [hjob]
      exact .create (List.getElem?_eq_none (Nat.le_refl _))
    · have hjob : (b.jobs ++ [j])[i]? = b.jobs[i]? := by
        rw [List.getElem?_eq_none (Nat.le_of_lt hgt),
          List.getElem?_eq_none (by rw [List.length_append]; exact hgt)]
      rw [hjob]
      exact .other List.prefix_rfl (Nat.le_succ _)

theorem step_observe {job cancelAt : Nat} {label : Option α} {c : Bool} :
    JobStep i c (b.view i) .rest ((b.observe job label cancelAt).view i) := by
  let o : Observer α := { label, cancelAt }
  have hlabels : ({ b with observers := b.observers ++ [o] } : Background α).view i =
      { b.view i with labels := (b.view i).labels ++ [label] } := by
    rw [view, List.map_append]
    rfl
  have hview := view_modifyJob { b with observers := b.observers ++ [o] } i job
    fun j => { j with observer := some b.observers.length }
  rw [hlabels] at hview
  rw [observe, hview]
  have hlength : (b.view i).labels.length = b.observers.length := List.length_map _
  by_cases hi : job = i
  · rw [if_pos hi, ← hlength]
    cases hj : b.jobs[i]? with
    | none =>
        have hnone : (b.view i).job = none := hj
        rw [Option.map_none, ← hnone]
        exact .other (List.prefix_append _ _) (Nat.le_refl _)
    | some j => exact .observe hj
  · rw [if_neg hi]
    exact .other (List.prefix_append _ _) (Nat.le_refl _)

theorem step_run {job : Nat} {c : Bool} {b' : Background α} (h : b.run job = .ok b') :
    JobStep i c (b.view i) (b.deed i (.run job)) (b'.view i) := by
  have hok := h
  rw [run] at h
  split at h
  · rename_i hnone
    obtain rfl := Except.ok.inj h
    rw [deed_run_missing hnone]
    exact .refl i c _
  · rename_i j hj
    split at h
    · cases h
    · rename_i hstate
      obtain rfl := Except.ok.inj h
      let d := (b.modifyJob job fun j => { j with state := .running }).log (.starting j.roots.length)
      let work : Work := .count job j.observer 0 (.start j.options j.roots)
      show JobStep i c (b.view i) (b.deed i (.run job))
        ((d.setLane (d.lane j.options.lane ++ [work]) j.options.lane).view i)
      have hlane : d.lane j.options.lane = b.lane j.options.lane := by cases j.options.lane <;> rfl
      have hbefore : d.worksBefore i j.options.lane = b.worksBefore i j.options.lane := rfl
      have hafter : d.worksAfter i j.options.lane = b.worksAfter i j.options.lane := rfl
      have hworks := works_eq b i j.options.lane
      rw [view_setLane, hlane, hbefore, hafter, List.filter_append, view_log, view_modifyJob]
      by_cases hi : job = i
      · subst hi
        have hwork : [work].filter (·.isFor job) = [work] := by simp [work, Work.isFor]
        have hcreated : j.state = .created := Classical.not_not.1 hstate
        rw [deed_run_started hj hok, if_pos rfl, hj, hwork, ← List.append_assoc,
          List.append_assoc _ [work]]
        exact .run hj hcreated hworks
      · have hwork : [work].filter (·.isFor i) = [] := by simp [work, Work.isFor, hi]
        rw [deed_run_other hi, if_neg hi, hwork, List.append_nil, ← hworks]
        exact .refl i c _

theorem step_refused {job : Nat} {c : Bool} {r : Refusal} (h : b.run job = .error r) :
    JobStep i c (b.view i) (b.deed i (.run job)) (b.view i) := by
  obtain ⟨rfl, j, hj, hstate⟩ := run_error h
  by_cases hi : job = i
  · subst hi
    rw [deed_run_refused hj h]
    exact .refuse hj hstate
  · rw [deed_run_other hi]
    exact .refl i c _

theorem view_cancel (job : Nat) : (b.cancel job).view i = b.view i := by
  rw [cancel]
  split
  · rfl
  · dsimp only
    split <;> simp

theorem view_release (job : Nat) : (b.release job).view i = b.view i := by
  rw [release]
  split
  · rfl
  split
  · rw [view_cancel, view_log]
  · rfl

theorem step_liftBarrier {job : Nat} {c : Bool} :
    JobStep i c (b.view i) .rest ((b.liftBarrier job).view i) := by
  rw [liftBarrier, view_modifyJob]
  by_cases hi : job = i
  · rw [if_pos hi]
    cases hj : b.jobs[i]? with
    | none =>
        have hnone : (b.view i).job = none := hj
        rw [Option.map_none, ← hnone]
        exact .refl i c _
    | some j => exact .lift hj
  · rw [if_neg hi]
    exact .refl i c _

theorem step_submit {lane : Lane} {label : α} {held : Bool} {token : Option Nat} {c : Bool} :
    JobStep i c (b.view i) .rest ((b.submit lane label held token).view i) := by
  have hgo (d : Background α) (es : List (Errand α)) (n : Nat) :
      ({ d with errands := es }.setLane (d.lane lane ++ [Work.errand n none]) lane).view i =
        d.view i := by
    rw [view_setLane, List.filter_append]
    have hworks : d.worksBefore i lane ++ ((d.lane lane).filter (·.isFor i) ++ []) ++
        d.worksAfter i lane = (d.view i).works := by rw [List.append_nil, ← works_eq]
    exact congrArg (fun works => { d.view i with works }) hworks
  cases token with
  | none =>
      refine (hgo b.newToken _ _).symm ▸ ?_
      rw [view_newToken]
      exact .other List.prefix_rfl (Nat.le_succ _)
  | some t => exact .of_eq (hgo b _ _)

theorem moveWork_count {job seen : Nat} {o : Option Nat} {w : Walk} {d : Background α}
    {left : Option Work} (h : b.moveWork (.count job o seen w) = some (d, left)) :
    ∃ j, b.jobs[job]? = some j ∧
      ((∃ out, w.finished? = some (.outcome out) ∧ d = b.postResult (.counted job out) ∧
          left = none) ∨
        (w.finished? = some .clockOverrun ∧ d = b ∧ left = none) ∨
        (w.finished? = none ∧ ∃ w' s, w.step j.plan (b.isCancelled j.token) = (w', s) ∧
          match s with
          | none => d = b ∧ left = some (.count job o seen w')
          | some s => d = (b.hear job j o seen s).1 ∧
              left = some (.count job o (b.hear job j o seen s).2 w'))) := by
  obtain ⟨j, hj, hmove⟩ := Option.bind_eq_some_iff.1 h
  refine ⟨j, hj, ?_⟩
  rw [moveCount] at hmove
  split at hmove
  · cases hmove
  split at hmove
  · rename_i out hfin
    obtain ⟨rfl, rfl⟩ := Prod.mk.inj (Option.some.inj hmove)
    exact .inl ⟨out, hfin, rfl, rfl⟩
  · rename_i hfin
    obtain ⟨rfl, rfl⟩ := Prod.mk.inj (Option.some.inj hmove)
    exact .inr (.inl ⟨hfin, rfl, rfl⟩)
  · rename_i hfin
    rcases hs : w.step j.plan (b.isCancelled j.token) with ⟨w', _ | s⟩
    · simp only [hs] at hmove
      obtain ⟨rfl, rfl⟩ := Prod.mk.inj (Option.some.inj hmove)
      exact .inr (.inr ⟨hfin, w', none, rfl, rfl, rfl⟩)
    · simp only [hs] at hmove
      obtain ⟨rfl, rfl⟩ := Prod.mk.inj (Option.some.inj hmove)
      exact .inr (.inr ⟨hfin, w', some s, rfl, rfl, rfl⟩)

theorem moveWork_errand {errand : Nat} {first : Option Bool} {d : Background α}
    {left : Option Work} (h : b.moveWork (.errand errand first) = some (d, left)) :
    (d = b ∨ ∃ x y, d = b.postResult (.errandDone errand x y)) ∧
      ∀ work ∈ left, work.isFor i = false := by
  obtain ⟨e, -, hmove⟩ := Option.bind_eq_some_iff.1 h
  cases first with
  | none =>
      obtain ⟨rfl, rfl⟩ := Prod.mk.inj (Option.some.inj hmove)
      refine ⟨.inl rfl, ?_⟩
      intro work hw
      obtain rfl := Option.some.inj hw
      rfl
  | some x =>
      rw [moveErrand] at hmove
      split at hmove
      · cases hmove
      · obtain ⟨rfl, rfl⟩ := Prod.mk.inj (Option.some.inj hmove)
        exact ⟨.inr ⟨x, _, rfl⟩, fun work hw => by cases hw⟩

theorem moveWork_lanes {work : Work} {d : Background α} {left : Option Work}
    (h : b.moveWork work = some (d, left)) :
    d.defaultLane = b.defaultLane ∧ d.idleLane = b.idleLane := by
  cases work with
  | count job o seen w =>
      obtain ⟨j, -, ⟨out, -, rfl, -⟩ | ⟨-, rfl, -⟩ | ⟨-, w', s, -, hs⟩⟩ := moveWork_count h
      · exact lanes_postResult b _
      · exact ⟨rfl, rfl⟩
      · cases s with
        | none => exact hs.1 ▸ ⟨rfl, rfl⟩
        | some s => exact hs.1 ▸ lanes_hear b job j o seen s
  | errand errand first =>
      obtain ⟨rfl | ⟨x, y, rfl⟩, -⟩ := moveWork_errand (i := 0) h
      · exact ⟨rfl, rfl⟩
      · exact lanes_postResult b _

theorem moveWork_other {work : Work} {d : Background α} {left : Option Work}
    (h : b.moveWork work = some (d, left)) (hw : work.isFor i = false) :
    d.view i = b.view i ∧ left.toList.filter (·.isFor i) = [] := by
  cases work with
  | count job o seen w =>
      have hi : job ≠ i := of_decide_eq_false hw
      obtain ⟨j, hj, ⟨out, -, rfl, rfl⟩ | ⟨-, rfl, rfl⟩ | ⟨-, w', s, -, hs⟩⟩ := moveWork_count h
      · refine ⟨?_, rfl⟩
        rw [view_postResult, Letter.isFor, decide_eq_false hi]
        rfl
      · exact ⟨rfl, rfl⟩
      · cases s with
        | none =>
            obtain ⟨rfl, rfl⟩ := hs
            exact ⟨rfl, by simp [Work.isFor, hi]⟩
        | some s =>
            obtain ⟨rfl, rfl⟩ := hs
            refine ⟨?_, by simp [Work.isFor, hi]⟩
            rw [view_hear b i hj, if_neg hi]
  | errand errand first =>
      obtain ⟨hd, hleft⟩ := moveWork_errand (i := i) h
      refine ⟨?_, List.filter_eq_nil_iff.2 fun a ha => ?_⟩
      · obtain rfl | ⟨x, y, rfl⟩ := hd
        · rfl
        · rw [view_postResult]
          rfl
      · rw [hleft a (Option.mem_toList.1 ha)]
        exact Bool.false_ne_true

theorem stopped_eq {j : Job} (h : b.jobs[i]? = some j) : b.stopped i = b.isCancelled j.token := by
  rw [stopped, h]
  rfl

theorem moveWork_own {o : Option Nat} {seen : Nat} {w : Walk} {d : Background α}
    {left : Option Work} {x y : List Work} (h : b.moveWork (.count i o seen w) = some (d, left))
    (hworks : (b.view i).works = x ++ .count i o seen w :: y) :
    JobStep i (b.stopped i) (b.view i) (b.workDeed i (.count i o seen w))
      { d.view i with works := x ++ left.toList.filter (·.isFor i) ++ y } := by
  obtain ⟨j, hj, ⟨out, hfin, rfl, rfl⟩ | ⟨hfin, rfl, rfl⟩ | ⟨hfin, w', s, hstep, hs⟩⟩ :=
    moveWork_count h
  · rw [workDeed_finished hfin]
    have hfor : (Letter.counted i out : Letter α).isFor i = true := decide_eq_true rfl
    rw [view_postResult, if_pos hfor, Option.toList_none, List.filter_nil, List.append_nil]
    exact .finish hworks hfin
  · rw [workDeed_finished hfin, Option.toList_none, List.filter_nil, List.append_nil]
    exact .finish hworks hfin
  · rw [workDeed_unfinished hfin hj, hstep]
    rw [← stopped_eq hj] at hstep
    have hmove := JobStep.move hj hworks hfin hstep
    have hfor (n : Nat) : [Work.count i o n w'].filter (·.isFor i) = [Work.count i o n w'] := by
      simp [Work.isFor]
    cases s with
    | none =>
        obtain ⟨rfl, rfl⟩ := hs
        rw [Option.toList_some, hfor, List.append_assoc]
        exact hmove
    | some s =>
        obtain ⟨rfl, rfl⟩ := hs
        rw [Option.toList_some, hfor, List.append_assoc, view_hear b i hj, if_pos rfl,
          hear_seen b i o seen s]
        exact hmove

theorem step_move {l : Lane} {k : Nat} {b' : Background α} (h : b.moveAt l k = some b') :
    JobStep i (b.stopped i) (b.view i) (b.deed i (.move l k)) (b'.view i) := by
  obtain ⟨work, hwork, hmove⟩ := Option.bind_eq_some_iff.1 h
  rw [deed_move hwork h]
  obtain ⟨⟨d, left⟩, hmoved, rfl⟩ := Option.map_eq_some_iff.1 hmove
  obtain ⟨x, y, hworks, hset⟩ := exists_works_split b i hwork
  obtain ⟨hdefault, hidle⟩ := moveWork_lanes hmoved
  rw [hset d left hdefault hidle]
  cases hfor : work.isFor i with
  | false =>
      obtain ⟨hview, hleft⟩ := moveWork_other hmoved hfor
      have hnone : [work].filter (·.isFor i) = [] := by simp [hfor]
      rw [hnone] at hworks
      rw [workDeed_other hfor, hview, hleft, ← hworks]
      exact .refl i _ _
  | true =>
      cases work with
      | errand errand first => cases hfor
      | count job o seen w =>
          obtain rfl : job = i := of_decide_eq_true hfor
          apply moveWork_own hmoved
          rw [hworks, List.append_assoc, List.filter_cons_of_pos hfor]
          rfl

theorem view_postNotes (next : List (Note α)) (b : Background α) :
    ({ b with mailbox := b.mailbox.postAll (next.map .note) } : Background α).view i = b.view i := by
  induction next generalizing b with
  | nil => rfl
  | cons n next ih =>
      have hpost : (b.post (.note n)).view i = b.view i := by
        rw [view_post]
        rfl
      exact (ih (b.post (.note n))).trans hpost

theorem labels_set {l : List (Observer α)} {k : Nat} {o : Observer α} (h : l[k]? = some o)
    (n : Nat) : (l.set k { o with calls := n }).map (·.label) = l.map (·.label) := by
  apply List.ext_getElem?
  intro x
  rw [List.getElem?_map, List.getElem?_map, List.getElem?_set]
  split
  · rename_i hx
    subst hx
    obtain ⟨hk, -⟩ := List.getElem?_eq_some_iff.1 h
    rw [if_pos hk, h]
    rfl
  · rfl

theorem view_readProgress {job o : Nat} {t : Tally} {j : Job} {obs : Observer α}
    (hj : b.jobs[job]? = some j) (ho : b.observers[o]? = some obs) :
    (b.readProgress job o t).view i =
      { b.view i with
        calls :=
          if b.isCancelled j.token then (b.view i).calls
          else (b.view i).calls ++ [Call.progress job obs.label t].filter (·.isFor i) } := by
  rw [readProgress, hj, ho]
  dsimp only
  split
  · rfl
  · let d : Background α :=
      { b with observers := b.observers.set o { obs with calls := obs.calls + 1 } }
    have hd : d.view i = b.view i :=
      congrArg (fun labels => { b.view i with labels }) (labels_set ho _)
    have hcall : (d.record (.call (.progress job obs.label t))).view i = { b.view i with
        calls := (b.view i).calls ++ [Call.progress job obs.label t].filter (·.isFor i) } := by
      rw [view_call, hd]
    split
    · exact (view_cancelToken _ i _).trans hcall
    · exact hcall

theorem view_readCounted {job : Nat} {out : Outcome} {j : Job} (hj : b.jobs[job]? = some j) :
    (b.readCounted job out).view i =
      let out := settleOutcome (b.isCancelled j.token) out
      { b.view i with
        job :=
          if job = i then b.jobs[i]?.map fun j => { j with delivered := true, state := stateAfter out }
          else b.jobs[i]?
        calls := (b.view i).calls ++ [Call.done job out (stateAfter out)].filter (·.isFor i) } := by
  rw [readCounted_eq, hj]
  dsimp only
  rw [view_call, view_log, view_modifyJob]

theorem view_readLetter {l : Letter α} (h : l.isFor i = false) :
    (b.readLetter l).view i = b.view i := by
  have hcalls (c : Call α) (hc : c.isFor i = false) :
      (b.view i).calls ++ [c].filter (·.isFor i) = (b.view i).calls := by
    rw [List.filter_cons_of_neg (by simp [hc]), List.filter_nil, List.append_nil]
  cases l with
  | note n =>
      obtain ⟨label, next⟩ := n
      apply (view_postNotes next (b.record (.call (.note label)))).trans
      rw [view_call, hcalls _ rfl]
  | progress job o t =>
      cases hj : b.jobs[job]? with
      | none =>
          rw [readLetter, readProgress, hj]
      | some j =>
          cases ho : b.observers[o]? with
          | none => rw [readLetter, readProgress, hj, ho]
          | some obs =>
              have hfor : (Call.progress job obs.label t).isFor i = false := h
              rw [readLetter, view_readProgress hj ho, hcalls _ hfor, ite_self]
  | counted job out =>
      cases hj : b.jobs[job]? with
      | none => rw [readLetter, readCounted_eq, hj]
      | some j =>
          have hi : job ≠ i := of_decide_eq_false h
          have hfor (x : Outcome) (s : JobState) : (Call.done (α := α) job x s).isFor i = false := h
          rw [readLetter, view_readCounted hj]
          dsimp only
          rw [if_neg hi, hcalls _ (hfor _ _)]
          rfl
  | errandDone errand x y =>
      rw [readLetter, readErrand]
      split
      · rfl
      · rw [view_call]
        exact congrArg (fun calls => { b.view i with calls }) (List.append_nil _)

section

variable {mailbox : Mailbox (Letter α)} {d : Background α}

theorem step_readProgress {o : Nat} {t : Tally} (hd : d = { b with mailbox })
    (hl : (b.view i).letters = .progress i o t :: (d.view i).letters)
    (hview : d.view i = { b.view i with letters := (d.view i).letters }) :
    JobStep i (b.stopped i) (b.view i) .rest ((d.readProgress i o t).view i) := by
  subst hd
  cases hj : b.jobs[i]? with
  | none =>
      rw [readProgress, show ({ b with mailbox } : Background α).jobs[i]? = none from hj]
      dsimp only
      rw [hview]
      exact .ignore hl (.inl hj)
  | some j =>
      cases ho : b.observers[o]? with
      | none =>
          have hlabel : (b.view i).labels[o]? = none := by
            rw [view, List.getElem?_map, ho]
            rfl
          rw [readProgress, show ({ b with mailbox } : Background α).jobs[i]? = some j from hj,
            show ({ b with mailbox } : Background α).observers[o]? = none from ho]
          dsimp only
          rw [hview]
          exact .ignore hl (.inr ⟨o, t, rfl, hlabel⟩)
      | some obs =>
          have hlabel : (b.view i).labels[o]? = some obs.label := by
            rw [view, List.getElem?_map, ho]
            rfl
          have hcall : [Call.progress i obs.label t].filter (·.isFor i) =
              [Call.progress i obs.label t] := by simp [Call.isFor]
          rw [view_readProgress (b := { b with mailbox }) hj ho, hcall, hview,
            show ({ b with mailbox } : Background α).isCancelled j.token = b.stopped i from
              (stopped_eq hj).symm]
          exact .hearProgress hj hl hlabel

theorem step_readCounted {out : Outcome} (hd : d = { b with mailbox })
    (hl : (b.view i).letters = .counted i out :: (d.view i).letters)
    (hview : d.view i = { b.view i with letters := (d.view i).letters }) :
    JobStep i (b.stopped i) (b.view i) .rest ((d.readCounted i out).view i) := by
  subst hd
  cases hj : b.jobs[i]? with
  | none =>
      rw [readCounted_eq, show ({ b with mailbox } : Background α).jobs[i]? = none from hj]
      dsimp only
      rw [hview]
      exact .ignore hl (.inl hj)
  | some j =>
      have hcall (x : Outcome) (s : JobState) :
          [Call.done (α := α) i x s].filter (·.isFor i) = [Call.done i x s] := by
        simp [Call.isFor]
      rw [view_readCounted (b := { b with mailbox }) hj,
        show ({ b with mailbox } : Background α).isCancelled j.token = b.stopped i from
          (stopped_eq hj).symm]
      dsimp only
      rw [if_pos rfl, hcall, show ({ b with mailbox } : Background α).jobs[i]? = some j from hj,
        hview]
      exact .hearEnd hj hl

end

theorem step_read {b' : Background α} (h : b.iterate? = some b') :
    JobStep i (b.stopped i) (b.view i) .rest (b'.view i) := by
  obtain ⟨⟨l, mailbox⟩, htake, rfl⟩ := Option.map_eq_some_iff.1 h
  obtain ⟨rest, hwaiting, rfl⟩ : ∃ rest, b.mailbox.waiting = l :: rest ∧
      mailbox = { b.mailbox with waiting := rest } := by
    rw [Mailbox.take?] at htake
    split at htake
    · cases htake
    · rename_i a rest hw
      obtain ⟨rfl, rfl⟩ := Prod.mk.inj (Option.some.inj htake)
      exact ⟨rest, hw, rfl⟩
  let d : Background α := { b with mailbox := { b.mailbox with waiting := rest } }
  show JobStep i (b.stopped i) (b.view i) .rest ((d.readLetter l).view i)
  have hview : d.view i = { b.view i with letters := (d.view i).letters } := rfl
  have hletters : (b.view i).letters = [l].filter (·.isFor i) ++ (d.view i).letters := by
    show b.mailbox.waiting.filter (·.isFor i) = [l].filter (·.isFor i) ++ rest.filter (·.isFor i)
    rw [hwaiting, ← List.filter_append, List.singleton_append]
  cases hfor : l.isFor i with
  | false =>
      rw [List.filter_cons_of_neg (by simp [hfor])] at hletters
      rw [view_readLetter hfor]
      exact .of_eq (congrArg (fun letters => { b.view i with letters }) hletters.symm)
  | true =>
      rw [List.filter_cons_of_pos hfor] at hletters
      cases l with
      | note n => cases hfor
      | errandDone errand x y => cases hfor
      | progress job o t =>
          obtain rfl : job = i := of_decide_eq_true hfor
          exact step_readProgress rfl hletters hview
      | counted job out =>
          obtain rfl : job = i := of_decide_eq_true hfor
          exact step_readCounted rfl hletters hview

theorem jobStep_act (b : Background α) (a : Action α) (i : Nat) :
    JobStep i (b.stopped i) (b.view i) (b.deed i a) ((b.act a).view i) := by
  cases a with
  | create spec =>
      rw [act]
      cases h : b.create spec with
      | error r => exact .refl i _ _
      | ok b' => exact step_create h
  | observe job label cancelAt => exact step_observe
  | run job =>
      rw [act]
      cases h : b.run job with
      | error r => exact step_refused h
      | ok b' => exact step_run h
  | cancel job => exact .of_eq (view_cancel job)
  | cancelToken token => exact .of_eq (view_cancelToken b i token)
  | liftBarrier job => exact step_liftBarrier
  | submit lane label held token => exact step_submit
  | letGo errand => exact .of_eq rfl
  | postNote n =>
      refine .of_eq ((view_post b i (.note n)).trans ?_)
      rfl
  | closeMailbox => exact .close
  | release job => exact .of_eq (view_release job)
  | move l k =>
      rw [act]
      cases h : b.moveAt l k with
      | none =>
          rw [deed_stuck h]
          exact .refl i _ _
      | some b' => exact step_move h
  | read =>
      rw [act]
      cases h : b.iterate? with
      | none => exact .refl i _ _
      | some b' => exact step_read h

end Background

end TreeTally
