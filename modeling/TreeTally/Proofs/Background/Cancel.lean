import TreeTally.Proofs.Background.Token
import TreeTally.Proofs.Walk.Interrupt

namespace TreeTally

variable {α : Type} {i : Nat}

def troubleOf : Outcome → Option Failure
  | .error (.unreadable p f) => some (.unreadable p f)
  | _ => none

def Walk.trouble? (w : Walk) : Option Failure :=
  match w.finished? with
  | some (.outcome o) => troubleOf o
  | _ => none

def Work.trouble? : Work → Option Failure
  | count _ _ _ w => w.trouble?
  | errand _ _ => none

def Letter.trouble? : Letter α → Option Failure
  | counted _ o => troubleOf o
  | _ => none

/-- The failure on which the walk of a job has ended while its end has not been heard. -/
def View.trouble? (v : View α) : Option Failure :=
  (v.works.findSome? Work.trouble?).or (v.letters.findSome? Letter.trouble?)

theorem troubleOf_eq_some {o : Outcome} {f : Failure} :
    troubleOf o = some f ↔ o = .error f ∧ f.isCancelled = false := by
  cases o with
  | ok t => simp [troubleOf]
  | error g =>
      cases g with
      | cancelled t =>
          simp only [troubleOf, reduceCtorEq, Except.error.injEq, false_iff, not_and]
          rintro rfl
          simp [Failure.isCancelled]
      | unreadable p x =>
          simp only [troubleOf, Option.some.injEq, Except.error.injEq]
          constructor
          · rintro rfl
            exact ⟨rfl, rfl⟩
          · exact fun h => h.1

namespace Walk

variable {P : Plan} {w : Walk}

theorem trouble?_unfinished (h : w.finished? = none) : w.trouble? = none := by
  rw [trouble?, h]

theorem trouble?_outcome {o : Outcome} (h : w.finished? = some (.outcome o)) :
    w.trouble? = troubleOf o := by
  rw [trouble?, h]

theorem trouble?_step (h : w.finished? = none) : (w.step P true).1.trouble? = none := by
  cases hr : w.stage.readsToken with
  | true =>
      have hstep : w.step P true = (w.cancel, none) := by
        rw [step, hr]
        rfl
      rw [hstep]
      rfl
  | false =>
      -- Only a listing is asked without a look at the token, and its answer ends no walk.
      have hpull : w.stage = .pull := by
        cases hs : w.stage with
        | pull => rfl
        | done e =>
            rw [finished?_eq_some.2 hs] at h
            cases h
        | _ => rw [hs] at hr; cases hr
      have hstep : w.step P true = w.pull := by
        rw [step, proceed, hpull]
        rfl
      apply trouble?_unfinished
      rw [hstep]
      cases hf : w.frames with
      | nil =>
          rw [pull, hf]
          exact resume_unfinished w
      | cons f fs =>
          obtain ⟨v, e, hv, -, -, ha⟩ := pull_frame hf
          rw [hv]
          exact ha.1

end Walk

structure Tends (W : Walk → Prop) (Q R : Outcome → Prop) (i : Nat) (v : View α) : Prop where
  work : ∀ o seen w, Work.count i o seen w ∈ v.works → W w
  letter : ∀ o, Letter.counted i o ∈ v.letters → Q o
  call : ∀ o s, Call.done i o s ∈ v.calls → R o ∧ s = Background.stateAfter o

theorem mem_letters_post {v : View α} {l x : Letter α} (h : x ∈ (v.post l).letters) :
    x ∈ v.letters ∨ x = l := by
  rw [View.post] at h
  split at h
  · exact .inl h
  · rcases List.mem_append.1 h with h | h
    · exact .inl h
    · exact .inr (List.mem_singleton.1 h)

theorem mem_letters_hear? {v : View α} {j : Job} {x : Option Nat} {seen : Nat} {s : Option Signal}
    {o : Outcome} (h : Letter.counted i o ∈ (v.hear? i j x seen s).1.letters) :
    Letter.counted i o ∈ v.letters := by
  rcases s with _ | e | m
  · exact h
  · cases e with
    | progress t =>
        cases x with
        | none => exact h
        | some x =>
            rcases mem_letters_post h with h | h
            · exact h
            · cases h
    | _ => exact h
  · exact h

section

variable {W : Walk → Prop} {Q R : Outcome → Prop} {v v' : View α}

theorem Tends.less (h : Tends W Q R i v) (hw : v'.works ⊆ v.works)
    (hl : ∀ o, Letter.counted i o ∈ v'.letters → Letter.counted i o ∈ v.letters)
    (hc : v'.calls = v.calls) : Tends W Q R i v' := by
  constructor
  · intro o seen w hm
    exact h.work o seen w (hw hm)
  · intro o hm
    exact h.letter o (hl o hm)
  · intro o s hm
    rw [hc] at hm
    exact h.call o s hm

theorem Tends.add_work {l r : List Work} {x : Option Nat} {n : Nat} {u : Walk}
    (h : Tends W Q R i v) (hw : v.works = l ++ r) (hu : W u) :
    Tends W Q R i { v with works := l ++ .count i x n u :: r } := by
  constructor
  · intro o seen w hm
    rcases List.mem_append.1 hm with hm | hm
    · exact h.work o seen w (hw ▸ List.mem_append_left _ hm)
    rcases List.mem_cons.1 hm with hm | hm
    · cases hm
      exact hu
    · exact h.work o seen w (hw ▸ List.mem_append_right _ hm)
  · exact h.letter
  · exact h.call

theorem Tends.add_letter {out : Outcome} (h : Tends W Q R i v) (hout : Q out) :
    Tends W Q R i (v.post (.counted i out)) := by
  rw [View.post]
  split
  · exact h
  · constructor
    · exact h.work
    · intro o hm
      rcases List.mem_append.1 hm with hm | hm
      · exact h.letter o hm
      · cases List.mem_singleton.1 hm
        exact hout
    · exact h.call

theorem Tends.add_call {out : Outcome} (h : Tends W Q R i v) (hout : R out) :
    Tends W Q R i { v with calls := v.calls ++ [.done i out (Background.stateAfter out)] } := by
  constructor
  · exact h.work
  · exact h.letter
  · intro o s hm
    rcases List.mem_append.1 hm with hm | hm
    · exact h.call o s hm
    · cases List.mem_singleton.1 hm
      exact ⟨hout, rfl⟩

theorem Tends.step {d : Deed} (h : Tends W Q R i v) (hs : JobStep i true v d v')
    (hstart : ∀ j, v.job = some j → j.state = .created → W (.start j.options j.roots))
    (hmove : ∀ P w, W w → w.finished? = none → W (w.step P true).1)
    (hfinish : ∀ w o, W w → w.finished? = some (.outcome o) → Q o)
    (hend : ∀ o, Q o → R (Background.settleOutcome true o)) : Tends W Q R i v' := by
  have hless (a : Work) (l r : List Work) (hw : v.works = l ++ a :: r) : l ++ r ⊆ v.works := by
    intro x hx
    rw [hw]
    rcases List.mem_append.1 hx with hx | hx
    · exact List.mem_append_left _ hx
    · exact List.mem_append_right _ (List.mem_cons_of_mem _ hx)
  have htail (a : Letter α) (rest : List (Letter α)) (hl : v.letters = a :: rest) (o : Outcome)
      (hm : Letter.counted i o ∈ rest) : Letter.counted i o ∈ v.letters := by
    rw [hl]
    exact List.mem_cons_of_mem _ hm
  cases hs with
  | other | refuse | create | observe | lift => exact ⟨h.work, h.letter, h.call⟩
  | @run j l r hj hcreated hw =>
      have hrun := h.add_work (x := j.observer) (n := 0) hw (hstart j hj hcreated)
      exact ⟨hrun.work, hrun.letter, hrun.call⟩
  | close => exact h.less (List.Subset.refl _) (fun o hm => by cases hm) rfl
  | @move j l r x seen w w' s hj hw hf hstep =>
      have hwalk : W w' := by
        have hgo := hmove j.plan w (h.work x seen w (hw ▸ by simp)) hf
        rwa [hstep] at hgo
      have hrest : Tends W Q R i { (v.hear? i j x seen s).1 with works := l ++ r } :=
        h.less (hless _ l r hw) (fun _ => mem_letters_hear?) (v.hear?_calls i j x seen s).1
      exact hrest.add_work rfl hwalk
  | @finish l r x seen w e hw hf =>
      have hrest : Tends W Q R i { v with works := l ++ r } :=
        h.less (hless _ l r hw) (fun _ hm => hm) rfl
      cases e with
      | clockOverrun => exact hrest
      | outcome out =>
          have hout : Q out := hfinish w out (h.work x seen w (hw ▸ by simp)) hf
          have hpost := h.add_letter hout
          exact ⟨hrest.work, hpost.letter, hpost.call⟩
  | @hearProgress j x t label rest hj hl hx =>
      have hcalls : (if true = true then v.calls else v.calls ++ [.progress i label t]) = v.calls :=
        if_pos rfl
      exact h.less (List.Subset.refl _) (htail _ rest hl) hcalls
  | @hearEnd j out rest hj hl =>
      have hout : Q out := h.letter out (hl ▸ List.mem_cons_self)
      have hcall := h.add_call (hend out hout)
      exact ⟨h.work, fun o hm => h.letter o (htail _ rest hl o hm), hcall.call⟩
  | ignore hl => exact h.less (List.Subset.refl _) (htail _ _ hl) rfl

end

theorem Told.not_done {j₀ : Job} {label : Option α} {c closed : Bool} {sent : List Signal}
    {letters : List (Letter α)} {calls : List (Call α)}
    (h : Told i j₀ label c closed sent letters calls) (o : Outcome) (s : JobState) :
    Call.done i o s ∉ calls := by
  intro hm
  obtain ⟨t, ht⟩ := h.mem_calls hm
  cases ht

theorem Told.trouble? {j₀ : Job} {label : Option α} {c closed : Bool} {sent : List Signal}
    {letters : List (Letter α)} {calls : List (Call α)}
    (h : Told i j₀ label c closed sent letters calls) :
    letters.findSome? Letter.trouble? = none := by
  apply List.findSome?_eq_none_iff.2
  intro l hl
  obtain ⟨-, t, rfl⟩ := h.mem_letters hl
  rfl

section

variable {v : View α} {j₀ : Job} {label : Option α} {c : Bool} {f : Failure}

theorem Begun.not_done (h : Begun i j₀ label c v)
    (hopen : ∀ j, v.job = some j → j.delivered = false) (o : Outcome) (s : JobState) :
    Call.done i o s ∉ v.calls := by
  obtain ⟨sent, e, h⟩ := h
  cases h with
  | counting _ _ htold => exact htold.not_done o s
  | posted _ _ _ _ _ htold => exact htold.not_done o s
  | lost _ _ _ _ htold => exact htold.not_done o s
  | ended h =>
      have hdelivered := h.delivered
      rw [hopen _ h.job] at hdelivered
      cases hdelivered

theorem tends_untroubled {R : Outcome → Prop} (h : v.trouble? = none)
    (hcalls : ∀ o s, Call.done i o s ∉ v.calls) :
    Tends (fun w => w.trouble? = none) (fun o => troubleOf o = none) R i v := by
  obtain ⟨hworks, hletters⟩ := Option.or_eq_none_iff.1 h
  constructor
  · intro o seen w hm
    exact List.findSome?_eq_none_iff.1 hworks _ hm
  · intro o hm
    exact List.findSome?_eq_none_iff.1 hletters _ hm
  · intro o s hm
    exact absurd hm (hcalls o s)

theorem Begun.tends_troubled (h : Begun i j₀ label c v) (hf : v.trouble? = some f)
    (hopen : ∀ j, v.job = some j → j.delivered = false) :
    f.isCancelled = false ∧ Tends (fun w => w.finished? = some (.outcome (.error f)))
      (fun o => o = .error f) (fun o => o = .error f) i v := by
  have hcalls := h.not_done hopen
  obtain ⟨sent, e, h⟩ := h
  cases h with
  | @counting j seen w h hw htold =>
      have htrouble : w.trouble? = some f := by
        rw [View.trouble?, hw, htold.trouble?, Option.or_none, List.findSome?_singleton] at hf
        exact hf
      rw [Walk.trouble?] at htrouble
      split at htrouble
      · rename_i o hfin
        obtain ⟨rfl, hcancelled⟩ := troubleOf_eq_some.1 htrouble
        refine ⟨hcancelled, ?_⟩
        constructor
        · intro x n u hm
          rw [hw] at hm
          cases List.mem_singleton.1 hm
          exact hfin
        · intro o hm
          obtain ⟨-, t, ht⟩ := htold.mem_letters hm
          cases ht
        · intro o s hm
          exact absurd hm (hcalls o s)
      · cases htrouble
  | @posted j w out before h hw hfin hclosed hl htold =>
      have htrouble : troubleOf out = some f := by
        rw [View.trouble?, hw, hl, List.findSome?_append, htold.trouble?, List.findSome?_nil,
          Option.none_or, Option.none_or, List.findSome?_singleton] at hf
        exact hf
      obtain ⟨rfl, hcancelled⟩ := troubleOf_eq_some.1 htrouble
      refine ⟨hcancelled, ?_⟩
      constructor
      · intro x n u hm
        rw [hw] at hm
        cases hm
      · intro o hm
        rw [hl] at hm
        rcases List.mem_append.1 hm with hm | hm
        · obtain ⟨-, t, ht⟩ := htold.mem_letters hm
          cases ht
        · cases List.mem_singleton.1 hm
          rfl
      · intro o s hm
        exact absurd hm (hcalls o s)
  | lost h hw _ _ htold =>
      rw [View.trouble?, hw, htold.trouble?] at hf
      cases hf
  | ended h =>
      have hdelivered := h.delivered
      rw [hopen _ h.job] at hdelivered
      cases hdelivered

end

namespace Background

variable {b c : Background α}

def trouble? (b : Background α) (i : Nat) : Option Failure := (b.view i).trouble?

theorem settleOutcome_true {o : Outcome} (h : troubleOf o = none) :
    ∃ t, settleOutcome true o = .error (.cancelled t) := by
  cases o with
  | ok t => exact ⟨t, rfl⟩
  | error f =>
      cases f with
      | cancelled t => exact ⟨t, rfl⟩
      | unreadable p x => cases h

theorem settleOutcome_error (d : Bool) (f : Failure) : settleOutcome d (.error f) = .error f := rfl

theorem tends_reaches {W : Walk → Prop} {Q R : Outcome → Prop} (hb : b.Reaches c)
    (hstop : b.stopped i = true) (h : Tends W Q R i (b.view i))
    (hstart : ∀ d j, b.Reaches d → d.jobs[i]? = some j → j.state = .created →
      W (.start j.options j.roots))
    (hmove : ∀ P w, W w → w.finished? = none → W (w.step P true).1)
    (hfinish : ∀ w o, W w → w.finished? = some (.outcome o) → Q o)
    (hend : ∀ o, Q o → R (settleOutcome true o)) : Tends W Q R i (c.view i) := by
  -- A token stays cancelled, so that each step to come is one under a cancelled token.
  let I (d : Background α) : Prop := b.Reaches d ∧ Tends W Q R i (d.view i)
  have hact (d : Background α) (a : Action α) (hd : I d) : I (d.act a) := by
    obtain ⟨hreach, htends⟩ := hd
    have hstep : JobStep i true (d.view i) (d.deed i a) ((d.act a).view i) :=
      hreach.stopped hstop ▸ jobStep_act d a i
    exact ⟨hreach.trans (reaches_act d a),
      htends.step hstep (hstart d · hreach) hmove hfinish hend⟩
  exact (hb.preserves hact ⟨.refl b, h⟩).2

theorem tends_cancelled (hb : b.Reaches c) (hstop : b.stopped i = true)
    (hclean : b.trouble? i = none) (hcalls : ∀ o s, Call.done i o s ∉ (b.view i).calls) :
    Tends (fun w => w.trouble? = none) (fun o => troubleOf o = none)
      (fun o => ∃ t, o = .error (.cancelled t)) i (c.view i) := by
  apply tends_reaches hb hstop (tends_untroubled hclean hcalls)
  · intro d j _ _ _
    rfl
  · intro P w _ hopen
    exact Walk.trouble?_step hopen
  · intro w o hw ho
    exact (Walk.trouble?_outcome ho).symm.trans hw
  · intro o ho
    exact settleOutcome_true ho

theorem tends_failed {j₀ : Job} {label : Option α} {f : Failure} (hb : b.Reaches c)
    (hstop : b.stopped i = true) (hlabel : Labelled j₀ label (b.view i))
    (hbegun : Begun i j₀ label (b.stopped i) (b.view i))
    (htends : Tends (fun w => w.finished? = some (.outcome (.error f))) (fun o => o = .error f)
      (fun o => o = .error f) i (b.view i)) :
    Tends (fun w => w.finished? = some (.outcome (.error f))) (fun o => o = .error f)
      (fun o => o = .error f) i (c.view i) := by
  apply tends_reaches hb hstop htends
  · intro d j hd hj hcreated
    obtain ⟨j', hj', -, hstate⟩ := (begun_reaches hd hlabel hbegun).exists_job
    obtain rfl : j' = j := Option.some.inj (hj'.symm.trans hj)
    exact absurd hcreated hstate
  · intro P w hw hopen
    rw [hw] at hopen
    cases hopen
  · intro w o hw ho
    rw [hw] at ho
    cases ho
    rfl
  · rintro o rfl
    exact settleOutcome_error true f

theorem heard_delivered (h : b.Lives i) {j : Job} (hj : b.jobs[i]? = some j)
    (hdelivered : j.delivered = true) : ∃ told o,
      b.calls.filter (·.isFor i) = told ++ [.done i o j.state] ∧
      ∀ x ∈ told, ∃ label t, x = Call.progress i label t := by
  rcases h with h | ⟨j₀, label, -, h⟩
  · rw [(h.job j hj).2.1] at hdelivered
    cases hdelivered
  · obtain ⟨w, sent, out, d, before, hend⟩ := h.of_delivered hj hdelivered
    refine ⟨before, settleOutcome d out, hend.state ▸ hend.calls, ?_⟩
    intro x hx
    obtain ⟨t, ht⟩ := hend.told.mem_calls hx
    exact ⟨label, t, ht⟩

/-- A job that is stopped before its end is heard ends cancelled, unless its worker has ended by
then on a failure to look at something, which is what its end will be. -/
theorem ends_after_stop (hb : ({} : Background α).Reaches b) (hstop : b.stopped i = true)
    (hopen : ∀ j, b.jobs[i]? = some j → j.delivered = false) (hc : b.Reaches c) {j : Job}
    (hj : c.jobs[i]? = some j) (hdelivered : j.delivered = true) :
    ∃ told o, c.calls.filter (·.isFor i) = told ++ [.done i o j.state] ∧
      (∀ x ∈ told, ∃ label t, x = Call.progress i label t) ∧
      match b.trouble? i with
      | none => (∃ t, o = .error (.cancelled t)) ∧ j.state = .cancelled
      | some f => o = .error f ∧ f.isCancelled = false ∧ j.state = .failed := by
  obtain ⟨told, o, hcalls, htold⟩ := heard_delivered (lives (hb.trans hc) i) hj hdelivered
  have hmem : Call.done i o j.state ∈ (c.view i).calls := by
    show _ ∈ c.calls.filter _
    rw [hcalls]
    exact List.mem_append_right _ (List.mem_singleton.2 rfl)
  refine ⟨told, o, hcalls, htold, ?_⟩
  cases htrouble : b.trouble? i with
  | none =>
      have hnot (o : Outcome) (s : JobState) : Call.done i o s ∉ (b.view i).calls := by
        rcases lives hb i with h | ⟨j₀, label, -, h⟩
        · rw [h.calls]
          exact List.not_mem_nil
        · exact h.not_done hopen o s
      obtain ⟨⟨t, rfl⟩, hstate⟩ := (tends_cancelled hc hstop htrouble hnot).call o _ hmem
      exact ⟨⟨t, rfl⟩, hstate⟩
  | some f =>
      rcases lives hb i with h | ⟨j₀, label, hlabel, h⟩
      · rw [trouble?, View.trouble?, h.works, h.letters] at htrouble
        cases htrouble
      · obtain ⟨hreal, htends⟩ := h.tends_troubled htrouble hopen
        obtain ⟨rfl, hstate⟩ := (tends_failed hc hstop hlabel h htends).call o _ hmem
        refine ⟨rfl, hreal, hstate.trans ?_⟩
        cases f with
        | cancelled t => cases hreal
        | unreadable p x => rfl

def lookSpec (answer : Except Fault EntryInfo) : JobSpec where
  roots := [⟨['/', 'a']⟩]
  options := {}
  fs := { stat _ _ := answer, list _ _ := .ok [] }
  clock _ := ⟨0⟩
  effort := 20

def lateCancel (answer : Except Fault EntryInfo) : Background Unit := ({} : Background Unit).play
  ([.create (lookSpec answer), .run 0] ++ List.replicate 6 (.move .idle 0) ++ [.cancel 0])

theorem ends_after_stop_counted :
    let b := lateCancel (.ok ⟨.file, 7, ⟨""⟩⟩)
    let c := b.act .read
    b.stopped 0 = true ∧ (b.trouble? 0).isNone ∧
      (∀ j, b.jobs[0]? = some j → j.delivered = false) ∧
      ∃ j, c.jobs[0]? = some j ∧ j.delivered = true ∧
        ∃ told o, c.calls.filter (·.isFor 0) = told ++ [.done 0 o j.state] ∧
          (∀ x ∈ told, ∃ label t, x = Call.progress 0 label t) ∧
          match b.trouble? 0 with
          | none => (∃ t, o = .error (.cancelled t)) ∧ j.state = .cancelled
          | some f => o = .error f ∧ f.isCancelled = false ∧ j.state = .failed := by
  intro b c
  have hstop : b.stopped 0 = true := by decide +kernel
  have hcalm : (b.trouble? 0).isNone := by decide +kernel
  have hbefore : b.jobs[0]?.map (·.delivered) = some false := by decide +kernel
  have hafter : c.jobs[0]?.map (·.delivered) = some true := by decide +kernel
  have hopen (j : Job) (hj : b.jobs[0]? = some j) : j.delivered = false := by
    rw [hj] at hbefore
    exact Option.some.inj hbefore
  obtain ⟨j, hj, hdelivered⟩ := Option.map_eq_some_iff.1 hafter
  exact ⟨hstop, hcalm, hopen, j, hj, hdelivered,
    ends_after_stop ⟨_, rfl⟩ hstop hopen (reaches_act b .read) hj hdelivered⟩

/-- A root that was missing is heard of although the job was cancelled in time. -/
theorem not_always_cancelled : ¬ ∀ (b c : Background Unit) (i : Nat) (j : Job),
    ({} : Background Unit).Reaches b → b.stopped i = true →
    (∀ j, b.jobs[i]? = some j → j.delivered = false) → b.Reaches c → c.jobs[i]? = some j →
    j.delivered = true →
    (∃ t, Call.done i (.error (.cancelled t)) .cancelled ∈ c.calls) ∧ j.state = .cancelled := by
  intro h
  let b := lateCancel (.error (.missing ⟨['/', 'a']⟩))
  let c := b.act .read
  have hstop : b.stopped 0 = true := by decide +kernel
  have hbefore : b.jobs[0]?.map (·.delivered) = some false := by decide +kernel
  have hafter : c.jobs[0]?.map (fun j => (j.delivered, j.state)) = some (true, .failed) := by
    decide +kernel
  have hopen (j : Job) (hj : b.jobs[0]? = some j) : j.delivered = false := by
    rw [hj] at hbefore
    exact Option.some.inj hbefore
  obtain ⟨j, hj, hend⟩ := Option.map_eq_some_iff.1 hafter
  obtain ⟨hdelivered, hstate⟩ := Prod.mk.inj hend
  have hcancelled := (h b c 0 j ⟨_, rfl⟩ hstop hopen (reaches_act b .read) hj hdelivered).2
  rw [hstate] at hcancelled
  cases hcancelled

end Background

end TreeTally
