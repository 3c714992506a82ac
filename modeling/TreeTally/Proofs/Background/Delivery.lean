import TreeTally.Proofs.Background.Lifecycle
import TreeTally.Proofs.Walk.Growth

namespace TreeTally

open Background

variable {α : Type}

def Call.snapshot? (i : Nat) : Call α → Option Tally
  | progress job _ t => if job = i then some t else none
  | note _ | done _ _ _ | errandDone _ _ _ _ => none

variable {i : Nat} {j₀ : Job} {label : Option α} {c : Bool} {v v' : View α} {d : Deed}
variable {sent : List Signal} {e : Option Ending}

theorem Took.tracks {P : Plan} {options : Options} {roots : List Path} {w : Walk}
    (h : Took P (.start options roots) c w sent) : w.Tracks (snapshotsOf sent) := by
  induction h with
  | start => exact Walk.tracks_start options roots
  | step _ hs ih =>
      rw [snapshotsOf_append]
      exact ih.step hs
  | cancelled _ ih => exact ih

theorem filterMap_snapshot? (passed : List Tally) :
    (passed.map (Call.progress i label)).filterMap (Call.snapshot? i) = passed := by
  rw [List.filterMap_map]
  have hsome : Call.snapshot? i ∘ Call.progress i label = some := funext fun _ => if_pos rfl
  rw [hsome, List.filterMap_some]

theorem JobStep.snapshots_stopped (h : JobStep i true v d v') :
    v'.calls.filterMap (Call.snapshot? i) = v.calls.filterMap (Call.snapshot? i) := by
  cases h with
  | @move j l r o seen w w' s => exact congrArg _ (v.hear?_calls i j o seen s).1
  | @finish l r o seen w e => exact congrArg _ (v.settle_calls i e).1
  | hearEnd =>
      rw [List.filterMap_append]
      exact List.append_nil _
  | _ => rfl

/-- What was heard of a job since it was run: the snapshots that were passed on and the end, if it
was heard, when its walk has sent so much and has come to such an end. -/
structure Heard (i : Nat) (observed : Bool) (label : Option α) (emitted : List Tally)
    (endings : List Ending) (passed : List Tally) (ends : List (Outcome × JobState))
    (calls : List (Call α)) : Prop where
  calls : calls = passed.map (.progress i label) ++ ends.map fun x => .done i x.1 x.2
  once : ends.length ≤ 1
  silent : observed = false → passed = []
  sent : passed <+: emitted
  rising : passed.Pairwise (· ≤ ·)
  counted : ∀ t s, (.ok t, s) ∈ ends → observed = true →
    passed = emitted ∧ passed.getLast? = some t
  cancelled : ∀ t s, (.error (.cancelled t), s) ∈ ends →
    (∀ u ∈ passed, u ≤ t) ∧ ∀ u, .outcome (.ok u) ∈ endings → t = u

namespace Job

theorem reports_observed {j : Job} (h : j.observer.isSome = true) (sent : List Signal) :
    j.reports sent = snapshotsOf sent := if_pos h

theorem reports_prefix (j : Job) (sent : List Signal) :
    j.reports sent <+: snapshotsOf sent ∧ (j.observer.isSome = false → j.reports sent = []) := by
  rw [reports]
  split
  · rename_i h
    exact ⟨List.prefix_rfl, fun hno => by rw [h] at hno; cases hno⟩
  · exact ⟨List.nil_prefix, fun _ => rfl⟩

end Job

theorem Told.heard {w : Walk} {closed : Bool} {letters : List (Letter α)} {calls : List (Call α)}
    (h : Told i j₀ label c closed sent letters calls) (hw : w.Tracks (snapshotsOf sent))
    (endings : List Ending) :
    ∃ passed, Heard i j₀.observer.isSome label (snapshotsOf sent) endings passed [] calls := by
  obtain ⟨passed, lost, waiting, hsum, hcalls, -, -, -⟩ := h
  obtain ⟨hreports, hsilent⟩ := j₀.reports_prefix sent
  have hpassed : passed <+: j₀.reports sent := by
    rw [← hsum, List.append_assoc]
    exact List.prefix_append _ _
  refine ⟨passed, ?_, Nat.zero_le _, ?_, hpassed.trans hreports, ?_, nofun, nofun⟩
  · rw [hcalls]
    exact (List.append_nil _).symm
  · intro hno
    rw [hsilent hno] at hpassed
    exact List.prefix_nil.1 hpassed
  · exact hw.rising.sublist (hpassed.trans hreports).sublist

namespace Background

theorem settleOutcome_eq_ok {out : Outcome} {t : Tally} {stopped : Bool} :
    settleOutcome stopped out = .ok t ↔ stopped = false ∧ out = .ok t := by
  cases stopped <;> rcases out with _ | _ <;> simp [settleOutcome]

theorem settleOutcome_eq_cancelled {out : Outcome} {t : Tally} {stopped : Bool}
    (h : settleOutcome stopped out = .error (.cancelled t)) :
    out = .ok t ∨ out = .error (.cancelled t) := by
  cases stopped <;> rcases out with _ | _ <;> simp_all [settleOutcome]

end Background

/-- The end of a job is heard behind all that its walk has sent, unless the token was cancelled;
what it is cancelled with are the totals of the walk. -/
theorem Ended.heard {d : Bool} {w : Walk} {out : Outcome} {before : List (Call α)} {j : Job}
    (h : Ended i j₀ label c d v w sent out before j) : ∃ passed ends,
      Heard i j₀.observer.isSome label (snapshotsOf sent) [.outcome out] passed ends
        v.calls := by
  have htracks : w.Tracks (snapshotsOf sent) := h.took.tracks
  have hstage := Walk.finished?_eq_some.1 h.finished
  obtain ⟨passed, hheard⟩ := h.told.heard htracks [.outcome out]
  have hbefore : before = passed.map (.progress i label) := hheard.calls.trans (List.append_nil _)
  refine ⟨passed, [(settleOutcome d out, stateAfter (settleOutcome d out))], ?_, Nat.le_refl _,
    hheard.silent, hheard.sent, hheard.rising, ?_, ?_⟩
  · rw [h.calls, hbefore]
    rfl
  · intro t s hmem hobserved
    have hok := (Prod.mk.inj (List.mem_singleton.1 hmem)).1
    obtain ⟨rfl, rfl⟩ := settleOutcome_eq_ok.1 hok.symm
    -- Nothing is lost as long as the token is not cancelled.
    have hall : passed = snapshotsOf sent := by
      have hkept : (passed.map (Call.progress i label)).filterMap (Call.snapshot? i) = passed :=
        filterMap_snapshot? passed
      rw [← Job.reports_observed hobserved, ← hkept, ← hbefore, h.told.calls_eq,
        filterMap_snapshot?]
    rw [hall]
    exact ⟨rfl, (htracks.counted t hstage).2⟩
  · intro t s hmem
    have hcancelled := (Prod.mk.inj (List.mem_singleton.1 hmem)).1
    have ht : t = w.tally := by
      rcases settleOutcome_eq_cancelled hcancelled.symm with rfl | rfl
      · exact (htracks.counted t hstage).1
      · exact htracks.cancelled t hstage
    refine ⟨fun u hu => ht ▸ htracks.le u (hheard.sent.subset hu), ?_⟩
    intro u hu
    have hout : out = .ok u := (Ending.outcome.inj (List.mem_singleton.1 hu)).symm
    rw [hout] at hstage
    exact ht.trans (htracks.counted u hstage).1.symm

theorem Stands.all_heard (h : Stands i j₀ label c sent v e) : ∃ passed ends,
    Heard i j₀.observer.isSome label (snapshotsOf sent) e.toList passed ends v.calls := by
  have hgo {w : Walk} {j : Job} {letters : List (Letter α)} (hrun : Running j₀ c v w sent j)
      (htold : Told i j₀ label c v.closed sent letters v.calls) : ∃ passed ends,
        Heard i j₀.observer.isSome label (snapshotsOf sent) e.toList passed ends v.calls := by
    obtain ⟨passed, h⟩ := htold.heard hrun.took.tracks e.toList
    exact ⟨passed, [], h⟩
  cases h with
  | counting h _ htold => exact hgo h htold
  | posted h _ _ _ _ htold => exact hgo h htold
  | lost h _ _ _ htold => exact hgo h htold
  | ended h => exact h.heard

theorem Heard.filterMap_eq {observed : Bool} {emitted passed : List Tally}
    {endings : List Ending} {ends : List (Outcome × JobState)} {calls : List (Call α)}
    (h : Heard i observed label emitted endings passed ends calls) :
    calls.filterMap (Call.snapshot? i) = passed ∧ calls.filterMap (Call.end? i) = ends := by
  have hends : (ends.map fun x => Call.done (α := α) i x.1 x.2).filterMap (Call.end? i) = ends := by
    rw [List.filterMap_map]
    have hsome : (Call.end? i ∘ fun x => Call.done (α := α) i x.1 x.2) = some :=
      funext fun _ => if_pos rfl
    rw [hsome, List.filterMap_some]
  have hno :
      (ends.map fun x => Call.done (α := α) i x.1 x.2).filterMap (Call.snapshot? i) = [] := by
    simp [Call.snapshot?]
  have hno' : (passed.map (Call.progress i label)).filterMap (Call.end? i) = [] := by
    simp [Call.end?]
  rw [h.calls, List.filterMap_append, List.filterMap_append, filterMap_snapshot?, hends, hno, hno']
  exact ⟨List.append_nil _, rfl⟩

namespace Background

variable {b b' : Background α}

def snapshots (b : Background α) (i : Nat) : List Tally :=
  b.calls.filterMap (Call.snapshot? i)

theorem snapshots_eq (b : Background α) (i : Nat) :
    b.snapshots i = (b.view i).calls.filterMap (Call.snapshot? i) := by
  refine filterMap_calls b fun x hx => ?_
  cases x with
  | progress job label t => exact if_neg (of_decide_eq_false hx)
  | _ => rfl

theorem snapshots_stopped (hb : b.stopped i = true) (script : List (Action α)) :
    (b.play script).snapshots i = b.snapshots i := by
  have hact (d : Background α) (a : Action α)
      (h : d.stopped i = true ∧ d.snapshots i = b.snapshots i) :
      (d.act a).stopped i = true ∧ (d.act a).snapshots i = b.snapshots i := by
    have hstep := jobStep_act d a i
    rw [h.1] at hstep
    refine ⟨stopped_act d a h.1, Eq.trans ?_ h.2⟩
    rw [snapshots_eq, snapshots_eq, hstep.snapshots_stopped]
  exact (Reaches.preserves hact ⟨script, rfl⟩ ⟨hb, rfl⟩).2

theorem label_eq {x : Nat} (h : Labelled j₀ label (b.view i)) (hx : j₀.observer = some x) :
    label = b.observers[x]?.bind (·.label) := by
  have hlabel := h x hx
  rw [view, List.getElem?_map] at hlabel
  obtain ⟨o, ho, rfl⟩ := Option.map_eq_some_iff.1 hlabel
  rw [ho]
  rfl

/-- Whatever is done after a job was run, its observer hears a first part of what the walk sent, in
order, and after it the end may be heard; once the job is cancelled, no more snapshots are heard. -/
theorem delivery (hb : ({} : Background α).Reaches b) {j : Job} (hj : b.jobs[i]? = some j)
    (hrun : b.run i = .ok b') (script : List (Action α)) :
    Heard i j.observer.isSome ((j.observer.bind (b.observers[·]?)).bind (·.label))
        (snapshotsOf (signalsIn (b'.past i script))) (endingsIn (b'.past i script))
        ((b'.play script).snapshots i) ((b'.play script).ends i)
        ((b'.play script).calls.filter (·.isFor i)) ∧
      ((b'.play script).stopped i = true →
        ∀ more, ((b'.play script).play more).snapshots i = (b'.play script).snapshots i) := by
  obtain ⟨label, hlabel, hlabel', hstands⟩ := stands_run hb hj hrun
  have hfollows : b'.Follows i j label [] := ⟨hlabel', none, rfl, hstands⟩
  obtain ⟨-, e, he, h⟩ := play_past (I := fun d past => d.Follows i j label past)
    (fun _ _ a h => (follows_act a h).1) hfollows script
  rw [List.nil_append] at he h
  obtain ⟨passed, ends, hheard⟩ := h.all_heard
  obtain ⟨hpassed, hends⟩ := hheard.filterMap_eq
  refine ⟨?_, fun hstopped more => snapshots_stopped hstopped more⟩
  rw [snapshots_eq, ends_eq, hpassed, hends, he]
  refine { hheard with calls := hheard.calls.trans ?_ }
  congr 1
  cases ho : j.observer with
  | none =>
      rw [hheard.silent (by rw [ho]; rfl)]
      rfl
  | some x =>
      rw [label_eq hlabel ho]
      rfl

def sampleDelivery : List (Action Unit) :=
  List.replicate 12 (.move .idle 0) ++ [.read, .cancel 0, .read]

theorem delivery_sample :
    let b' := sampleState.act (.run 0)
    let c := b'.play sampleDelivery
    ∃ j, sampleState.jobs[0]? = some j ∧ sampleState.run 0 = .ok b' ∧
      c.snapshots 0 = [⟨0, 0, 1, 0⟩] ∧ (c.ends 0).map (·.2) = [.cancelled] ∧
      Heard 0 j.observer.isSome ((j.observer.bind (sampleState.observers[·]?)).bind (·.label))
        (snapshotsOf (signalsIn (b'.past 0 sampleDelivery))) (endingsIn (b'.past 0 sampleDelivery))
        (c.snapshots 0) (c.ends 0) (c.calls.filter (·.isFor 0)) ∧
      (c.play [.read]).snapshots 0 = c.snapshots 0 := by
  intro b' c
  obtain ⟨j, hj⟩ : ∃ j, sampleState.jobs[0]? = some j := ⟨_, rfl⟩
  have hrun : sampleState.run 0 = .ok b' := rfl
  have hstopped : c.stopped 0 = true := by decide +kernel
  obtain ⟨hheard, hquiet⟩ := delivery ⟨_, rfl⟩ hj hrun sampleDelivery
  exact ⟨j, hj, hrun, by decide +kernel, by decide +kernel, hheard, hquiet hstopped [.read]⟩

end Background

end TreeTally
