import TreeTally.Proofs.Background.Told

namespace TreeTally

variable {α : Type}

/-- Nothing was ever heard of the job, which is not there or has not been run. -/
structure Untouched (v : View α) : Prop where
  works : v.works = []
  letters : v.letters = []
  calls : v.calls = []
  job : ∀ j, v.job = some j → j.state = .created ∧ j.delivered = false ∧ j.heard = [] ∧
    ∀ o, j.observer = some o → o < v.labels.length

/-- The job was run when its record was `j₀` and has not come to its end. -/
structure Running (j₀ : Job) (c : Bool) (v : View α) (w : Walk) (sent : List Signal) (j : Job) :
    Prop where
  job : v.job = some j
  task : j.SameTask j₀
  state : j.state = .running
  delivered : j.delivered = false
  trace : j.trace = heardOf sent
  took : Took j₀.plan j₀.start c w sent

open Background in
/-- The end of the job was heard when its token read as `d` says. -/
structure Ended (i : Nat) (j₀ : Job) (label : Option α) (c d : Bool) (v : View α) (w : Walk)
    (sent : List Signal) (out : Outcome) (before : List (Call α)) (j : Job) : Prop where
  job : v.job = some j
  task : j.SameTask j₀
  state : j.state = stateAfter (settleOutcome d out)
  delivered : j.delivered = true
  trace : j.trace = heardOf sent
  took : Took j₀.plan j₀.start d w sent
  finished : w.finished? = some (.outcome out)
  stopped : d = true → c = true
  works : v.works = []
  letters : v.letters = []
  calls : v.calls =
    before ++ [.done i (settleOutcome d out) (stateAfter (settleOutcome d out))]
  told : Told i j₀ label d false sent [] before

inductive Stands (i : Nat) (j₀ : Job) (label : Option α) (c : Bool) (sent : List Signal)
    (v : View α) : Option Ending → Prop
  | counting {j : Job} {seen : Nat} {w : Walk} (h : Running j₀ c v w sent j)
      (hw : v.works = [.count i j₀.observer seen w])
      (htold : Told i j₀ label c v.closed sent v.letters v.calls) :
      Stands i j₀ label c sent v none
  /-- The outcome waits in the mailbox behind all snapshots. -/
  | posted {j : Job} {w : Walk} {out : Outcome} {before : List (Letter α)}
      (h : Running j₀ c v w sent j) (hw : v.works = [])
      (hfin : w.finished? = some (.outcome out)) (hopen : v.closed = false)
      (hl : v.letters = before ++ [.counted i out])
      (htold : Told i j₀ label c v.closed sent before v.calls) :
      Stands i j₀ label c sent v (some (.outcome out))
  /-- The end of the job will never be heard. -/
  | lost {j : Job} {w : Walk} {e : Ending} (h : Running j₀ c v w sent j) (hw : v.works = [])
      (hfin : w.finished? = some e) (hlost : v.closed = true ∨ e = .clockOverrun)
      (htold : Told i j₀ label c v.closed sent v.letters v.calls) :
      Stands i j₀ label c sent v (some e)
  | ended {j : Job} {w : Walk} {out : Outcome} {d : Bool} {before : List (Call α)}
      (h : Ended i j₀ label c d v w sent out before j) :
      Stands i j₀ label c sent v (some (.outcome out))

/-- A job that was run is somewhere on its way. -/
def Begun (i : Nat) (j₀ : Job) (label : Option α) (c : Bool) (v : View α) : Prop :=
  ∃ sent e, Stands i j₀ label c sent v e

def Labelled (j₀ : Job) (label : Option α) (v : View α) : Prop :=
  ∀ x, j₀.observer = some x → v.labels[x]? = some label

variable {i : Nat} {j₀ : Job} {label : Option α} {c c' : Bool} {v v' : View α}
variable {sent : List Signal} {e : Option Ending}

theorem Running.mono {w : Walk} {j : Job} (h : Running j₀ c v w sent j)
    (hc : c = true → c' = true) : Running j₀ c' v w sent j :=
  { h with took := h.took.mono hc }

theorem Stands.mono (h : Stands i j₀ label c sent v e) (hc : c = true → c' = true) :
    Stands i j₀ label c' sent v e := by
  cases h with
  | counting h hw htold => exact .counting (h.mono hc) hw (htold.mono hc)
  | posted h hw hfin hopen hl htold =>
      exact .posted (h.mono hc) hw hfin hopen hl (htold.mono hc)
  | lost h hw hfin hlost htold => exact .lost (h.mono hc) hw hfin hlost (htold.mono hc)
  | ended h => exact .ended { h with stopped := fun hd => hc (h.stopped hd) }

theorem Begun.mono (h : Begun i j₀ label c v) (hc : c = true → c' = true) :
    Begun i j₀ label c' v := by
  obtain ⟨sent, e, h⟩ := h
  exact ⟨sent, e, h.mono hc⟩

/-- The two records tell the same of how far the job has come. -/
structure Job.SameStand (j' j : Job) : Prop where
  task : j'.SameTask j
  state : j'.state = j.state
  delivered : j'.delivered = j.delivered
  heard : j'.heard = j.heard

theorem Job.SameTask.trans {j j' j'' : Job} (h : j.SameTask j') (h' : j'.SameTask j'') :
    j.SameTask j'' :=
  ⟨h.1.trans h'.1, h.2.trans h'.2, h.3.trans h'.3, h.4.trans h'.4, h.5.trans h'.5⟩

theorem Job.SameTask.refl (j : Job) : j.SameTask j := ⟨rfl, rfl, rfl, rfl, rfl⟩

theorem Running.renew {w : Walk} {j j' : Job} (h : Running j₀ c v w sent j)
    (hj' : v'.job = some j') (hsame : j'.SameStand j) : Running j₀ c v' w sent j' where
  job := hj'
  task := hsame.task.trans h.task
  state := hsame.state.trans h.state
  delivered := hsame.delivered.trans h.delivered
  trace := (congrArg List.reverse hsame.heard).trans h.trace
  took := h.took

theorem Stands.renew (h : Stands i j₀ label c sent v e) (hw : v'.works = v.works)
    (hl : v'.letters = v.letters) (hc : v'.calls = v.calls) (hclosed : v'.closed = v.closed)
    (hjob : ∀ j, v.job = some j → ∃ j', v'.job = some j' ∧ j'.SameStand j) :
    Stands i j₀ label c sent v' e := by
  cases h with
  | counting h hworks htold =>
      obtain ⟨j', hj', hsame⟩ := hjob _ h.job
      refine .counting (h.renew hj' hsame) (hw.trans hworks) ?_
      rw [hclosed, hl, hc]
      exact htold
  | posted h hworks hfin hopen hletters htold =>
      obtain ⟨j', hj', hsame⟩ := hjob _ h.job
      refine .posted (h.renew hj' hsame) (hw.trans hworks) hfin (hclosed.trans hopen)
        (hl.trans hletters) ?_
      rw [hclosed, hc]
      exact htold
  | lost h hworks hfin hlost htold =>
      obtain ⟨j', hj', hsame⟩ := hjob _ h.job
      rw [← hclosed] at hlost
      refine .lost (h.renew hj' hsame) (hw.trans hworks) hfin hlost ?_
      rw [hclosed, hl, hc]
      exact htold
  | ended h =>
      obtain ⟨j', hj', hsame⟩ := hjob _ h.job
      exact .ended
        { h with
          job := hj'
          task := hsame.task.trans h.task
          state := hsame.state.trans h.state
          delivered := hsame.delivered.trans h.delivered
          trace := (congrArg List.reverse hsame.heard).trans h.trace
          works := hw.trans h.works
          letters := hl.trans h.letters
          calls := hc.trans h.calls }

theorem Stands.close (h : Stands i j₀ label c sent v e) :
    Stands i j₀ label c sent { v with letters := [], closed := true } e := by
  cases h with
  | counting h hw htold => exact .counting { h with } hw htold.close
  | posted h hw hfin hopen hl htold => exact .lost { h with } hw hfin (.inl rfl) htold.close
  | lost h hw hfin hlost htold => exact .lost { h with } hw hfin (.inl rfl) htold.close
  | ended h => exact .ended { h with letters := rfl }

theorem eq_of_singleton_eq_append {β : Type} {a b : β} {l r : List β} (h : [a] = l ++ b :: r) :
    l = [] ∧ b = a ∧ r = [] := by
  cases l with
  | nil => simpa [eq_comm] using h
  | cons x l => simp at h

theorem Stands.at_work {l r : List Work} {o : Option Nat} {seen : Nat} {w : Walk}
    (h : Stands i j₀ label c sent v e) (hw : v.works = l ++ .count i o seen w :: r) :
    l = [] ∧ r = [] ∧ o = j₀.observer ∧ e = none ∧ ∃ j, Running j₀ c v w sent j ∧
      Told i j₀ label c v.closed sent v.letters v.calls := by
  have hno (hnil : v.works = []) : False := by
    rw [hnil] at hw
    simp at hw
  cases h with
  | counting h hworks htold =>
      rw [hworks] at hw
      obtain ⟨hl, hcount, hr⟩ := eq_of_singleton_eq_append hw
      cases hcount
      exact ⟨hl, hr, rfl, rfl, _, h, htold⟩
  | posted _ hnil => exact (hno hnil).elim
  | lost _ hnil => exact (hno hnil).elim
  | ended h => exact (hno h.works).elim

theorem heardOf_event {e : Event} (he : e.progress? = none) : heardOf [.event e] = [e] := by
  simp [heardOf, he]

theorem hear_event (v : View α) (i : Nat) (j : Job) (o : Option Nat) (seen : Nat) {e : Event}
    (he : e.progress? = none) :
    v.hear i j o seen (.event e) =
      ({ v with job := some { j with heard := e :: j.heard } }, seen + 1) := by
  cases e with
  | progress t => cases he
  | _ => rfl

theorem Running.hear {w w' : Walk} {j : Job} {s : Option Signal}
    (h : Running j₀ c v w sent j) (seen : Nat) (hs : w.step j.plan c = (w', s))
    (htold : Told i j₀ label c v.closed sent v.letters v.calls) :
    let v' := (v.hear? i j j₀.observer seen s).1
    ∃ j', Running j₀ c v' w' (sent ++ s.toList) j' ∧
      Told i j₀ label c v'.closed (sent ++ s.toList) v'.letters v'.calls := by
  have htook : Took j₀.plan j₀.start c w' (sent ++ s.toList) := .step h.took (h.task.plan ▸ hs)
  have htrace (hquiet : heardOf s.toList = []) : j.trace = heardOf (sent ++ s.toList) := by
    rw [heardOf_append, hquiet, List.append_nil]
    exact h.trace
  rcases s with _ | e | m
  · exact ⟨j, { h with trace := htrace rfl, took := htook }, htold.quiet rfl⟩
  -- Only snapshots are told; the record of the job keeps all other events.
  · cases he : e.progress? with
    | none =>
        have hjob := hear_event v i j j₀.observer seen he
        have htrace : ({ j with heard := e :: j.heard } : Job).trace = heardOf (sent ++ [.event e]) := by
          rw [heardOf_append, heardOf_event he, ← h.trace]
          exact List.reverse_cons
        have hquiet : snapshotsOf [.event e] = [] := by simp [snapshotsOf, he]
        simp only [View.hear?, hjob]
        exact ⟨_, ⟨rfl, ⟨h.task.1, h.task.2, h.task.3, h.task.4, h.task.5⟩, h.state, h.delivered,
          htrace, htook⟩, htold.quiet hquiet⟩
    | some t =>
        obtain rfl : e = .progress t := by
          cases e with
          | progress x => exact congrArg _ (Option.some.inj he)
          | _ => cases he
        have hreport := htold.report t
        cases ho : j₀.observer with
        | none =>
            rw [if_pos (.inr ho)] at hreport
            exact ⟨j, { h with trace := htrace rfl, took := htook }, hreport⟩
        | some x =>
            have hx : j₀.watch = x := by simp [Job.watch, ho]
            have hpost : (v.hear? i j (some x) seen (some (.event (.progress t)))).1 =
                v.post (.progress i x t) := rfl
            simp only [hpost]
            cases hclosed : v.closed with
            | true =>
                rw [if_pos (.inl hclosed)] at hreport
                rw [View.post, if_pos hclosed]
                exact ⟨j, { h with trace := htrace rfl, took := htook }, hreport⟩
            | false =>
                rw [if_neg (by simp [hclosed, ho]), hx] at hreport
                rw [View.post, if_neg (by simp [hclosed])]
                exact ⟨j, { h with trace := htrace rfl, took := htook }, hreport⟩
  · exact ⟨j, { h with trace := htrace rfl, took := htook }, htold.quiet rfl⟩

theorem Running.finish {w : Walk} {j : Job} {e : Ending} (h : Running j₀ c v w sent j)
    (htold : Told i j₀ label c v.closed sent v.letters v.calls) (hfin : w.finished? = some e) :
    Stands i j₀ label c sent { v.settle i e with works := [] } (some e) := by
  cases e with
  | clockOverrun => exact .lost { h with } rfl hfin (.inr rfl) htold
  | outcome out =>
      have hsettle : v.settle i (.outcome out) = v.post (.counted i out) := rfl
      rw [hsettle, View.post]
      cases hclosed : v.closed with
      | true =>
          rw [if_pos rfl]
          exact .lost { h with } rfl hfin (.inl hclosed) htold
      | false =>
          rw [if_neg Bool.false_ne_true]
          exact .posted { h with } rfl hfin rfl rfl (hclosed ▸ htold)

theorem Stands.hearProgress {o : Nat} {t : Tally} {rest : List (Letter α)}
    (h : Stands i j₀ label c sent v e) (hl : v.letters = .progress i o t :: rest) :
    Stands i j₀ label c sent { v with
      letters := rest, calls := if c then v.calls else v.calls ++ [.progress i label t] } e := by
  cases h with
  | counting h hw htold =>
      rw [hl] at htold
      exact .counting { h with } hw htold.read
  | @posted j w out before h hw hfin hopen hletters htold =>
      cases before with
      | nil =>
          rw [hl] at hletters
          cases hletters
      | cons l before =>
          rw [hl] at hletters
          obtain ⟨rfl, rfl⟩ := List.cons.inj hletters
          exact .posted { h with } hw hfin hopen rfl htold.read
  | lost h hw hfin hlost htold =>
      rw [hl] at htold
      exact .lost { h with } hw hfin hlost htold.read
  | ended h =>
      have hletters := h.letters
      rw [hl] at hletters
      cases hletters

theorem Stands.observer_of_letter {l : Letter α} {rest : List (Letter α)}
    (h : Stands i j₀ label c sent v e) (hl : v.letters = l :: rest) {o : Nat} {t : Tally}
    (hp : l = .progress i o t) : j₀.observer = some o := by
  have hmem : l ∈ v.letters := by
    rw [hl]
    exact List.mem_cons_self
  have hgo {sent : List Signal} {closed : Bool} {letters : List (Letter α)} {calls : List (Call α)}
      (htold : Told i j₀ label c closed sent letters calls) (hm : l ∈ letters) :
      j₀.observer = some o := by
    obtain ⟨hwatch, x, hx⟩ := htold.mem_letters hm
    rw [hp] at hx
    cases hx
    exact hwatch
  cases h with
  | counting _ _ htold => exact hgo htold hmem
  | posted _ _ _ _ hletters htold =>
      rw [hletters, List.mem_append, List.mem_singleton] at hmem
      rcases hmem with hmem | hmem
      · exact hgo htold hmem
      · rw [hp] at hmem
        cases hmem
  | lost _ _ _ _ htold => exact hgo htold hmem
  | ended h =>
      rw [h.letters] at hmem
      cases hmem

open Background in
theorem Stands.hearEnd {o : Outcome} {rest : List (Letter α)} {j : Job}
    (h : Stands i j₀ label c sent v e) (hj : v.job = some j)
    (hl : v.letters = .counted i o :: rest) :
    Stands i j₀ label c sent { v with
      job := some { j with delivered := true, state := stateAfter (settleOutcome c o) }
      letters := rest
      calls := v.calls ++ [.done i (settleOutcome c o) (stateAfter (settleOutcome c o))] } e := by
  have hno {sent : List Signal} {closed : Bool} {calls : List (Call α)}
      {letters : List (Letter α)} (htold : Told i j₀ label c closed sent letters calls) :
      (Letter.counted i o : Letter α) ∉ letters := by
    intro hmem
    obtain ⟨-, t, ht⟩ := htold.mem_letters hmem
    cases ht
  have hmem : (Letter.counted i o : Letter α) ∈ v.letters := by
    rw [hl]
    exact List.mem_cons_self
  cases h with
  | counting _ _ htold => exact absurd hmem (hno htold)
  | lost _ _ _ _ htold => exact absurd hmem (hno htold)
  | ended h =>
      rw [h.letters] at hmem
      cases hmem
  | @posted j' w out before h hw hfin hopen hletters htold =>
      rw [h.job] at hj
      cases hj
      cases before with
      | cons l before =>
          rw [hl] at hletters
          obtain ⟨rfl, -⟩ := List.cons.inj hletters
          exact absurd List.mem_cons_self (hno htold)
      | nil =>
          rw [hl] at hletters
          cases hletters
          rw [hopen] at htold
          exact .ended
            { job := rfl
              task := ⟨h.task.1, h.task.2, h.task.3, h.task.4, h.task.5⟩
              state := rfl
              delivered := rfl
              trace := h.trace
              took := h.took
              finished := hfin
              stopped := fun hc => hc
              works := hw
              letters := rfl
              calls := rfl
              told := htold }

theorem Labelled.step {d : Deed} (h : Labelled j₀ label v) (hs : JobStep i c v d v') :
    Labelled j₀ label v' := by
  intro x hx
  obtain ⟨more, hmore⟩ := hs.grows.1
  rw [← hmore, List.getElem?_append_left]
  · exact h x hx
  · exact (List.getElem?_eq_some_iff.1 (h x hx)).1

theorem stateAfter_ne_created (o : Outcome) : Background.stateAfter o ≠ .created := by
  cases o with
  | ok t => exact fun h => by cases h
  | error f => cases f <;> exact fun h => by cases h

theorem Stands.exists_job (h : Stands i j₀ label c sent v e) :
    ∃ j, v.job = some j ∧ j.SameTask j₀ ∧ j.state ≠ .created := by
  have hrunning {j : Job} (hs : j.state = .running) : j.state ≠ .created := by
    rw [hs]
    exact fun h => by cases h
  cases h with
  | counting h => exact ⟨_, h.job, h.task, hrunning h.state⟩
  | posted h => exact ⟨_, h.job, h.task, hrunning h.state⟩
  | lost h => exact ⟨_, h.job, h.task, hrunning h.state⟩
  | ended h => exact ⟨_, h.job, h.task, h.state ▸ stateAfter_ne_created _⟩

theorem Begun.exists_job (h : Begun i j₀ label c v) :
    ∃ j, v.job = some j ∧ j.SameTask j₀ ∧ j.state ≠ .created := by
  obtain ⟨sent, e, h⟩ := h
  exact h.exists_job

theorem Begun.of_delivered {j : Job} (h : Begun i j₀ label c v) (hj : v.job = some j)
    (hdelivered : j.delivered = true) :
    ∃ w sent out d before, Ended i j₀ label c d v w sent out before j := by
  obtain ⟨sent, e, h⟩ := h
  have hopen {w : Walk} {j' : Job} (h : Running j₀ c v w sent j') : False := by
    obtain rfl : j' = j := Option.some.inj (h.job.symm.trans hj)
    rw [h.delivered] at hdelivered
    cases hdelivered
  cases h with
  | counting h => exact (hopen h).elim
  | posted h => exact (hopen h).elim
  | lost h => exact (hopen h).elim
  | @ended j' w out d before h =>
      obtain rfl : j' = j := Option.some.inj (h.job.symm.trans hj)
      exact ⟨w, sent, out, d, before, h⟩

/-- Whatever is done, a job that was run goes on from where it is. -/
theorem Stands.step {d : Deed} (h : Stands i j₀ label c sent v e) (hlabel : Labelled j₀ label v)
    (hs : JobStep i c v d v') :
    Stands i j₀ label c (sent ++ d.signal?.toList) v' (e.or d.ending?) := by
  obtain ⟨j₁, hj₁, -, hstate⟩ := h.exists_job
  -- Most of what is done is nothing that the walk does.
  have hquiet (h' : Stands i j₀ label c sent v' e) :
      Stands i j₀ label c (sent ++ []) v' (e.or none) := by
    rw [List.append_nil, Option.or_none]
    exact h'
  cases hs with
  | other => exact hquiet (h.renew rfl rfl rfl rfl fun j hj => ⟨j, hj, .refl j, rfl, rfl, rfl⟩)
  | refuse => exact hquiet h
  | create hnone =>
      rw [hj₁] at hnone
      cases hnone
  | @observe j x hj =>
      refine hquiet (h.renew rfl rfl rfl rfl fun j' hj' => ⟨_, rfl, ?_⟩)
      rw [hj] at hj'
      cases hj'
      exact ⟨⟨rfl, rfl, rfl, rfl, rfl⟩, rfl, rfl, rfl⟩
  | @lift j hj =>
      refine hquiet (h.renew rfl rfl rfl rfl fun j' hj' => ⟨_, rfl, ?_⟩)
      rw [hj] at hj'
      cases hj'
      exact ⟨⟨rfl, rfl, rfl, rfl, rfl⟩, rfl, rfl, rfl⟩
  | run hj hcreated =>
      rw [hj₁] at hj
      cases hj
      exact absurd hcreated hstate
  | close => exact hquiet h.close
  | @move j l r o seen w w' s hj hw hf hstep =>
      obtain ⟨rfl, rfl, rfl, rfl, j', hrun, htold⟩ := h.at_work hw
      obtain rfl : j' = j := Option.some.inj (hrun.job.symm.trans hj)
      obtain ⟨j'', hrun', htold'⟩ := hrun.hear seen hstep htold
      exact .counting { hrun' with } rfl htold'
  | @finish l r o seen w end_ hw hf =>
      obtain ⟨rfl, rfl, rfl, rfl, j, hrun, htold⟩ := h.at_work hw
      rw [show sent ++ (Deed.ended end_).signal?.toList = sent from List.append_nil sent]
      exact hrun.finish htold hf
  | @hearProgress j o t x rest hj hl hx =>
      have hobs := h.observer_of_letter hl rfl
      obtain rfl : x = label := Option.some.inj (hx.symm.trans (hlabel o hobs))
      exact hquiet (h.hearProgress hl)
  | hearEnd hj hl => exact hquiet (h.hearEnd hj hl)
  | @ignore l rest hl hnobody =>
      rcases hnobody with hnone | ⟨o, t, rfl, hx⟩
      · rw [hj₁] at hnone
        cases hnone
      · have hobs := h.observer_of_letter hl rfl
        rw [hlabel o hobs] at hx
        cases hx

theorem Begun.step {d : Deed} (h : Begun i j₀ label c v) (hlabel : Labelled j₀ label v)
    (hs : JobStep i c v d v') : Begun i j₀ label c v' := by
  obtain ⟨sent, e, h⟩ := h
  exact ⟨_, _, h.step hlabel hs⟩

theorem Untouched.run {j : Job} {l r : List Work} (h : Untouched v) (hj : v.job = some j)
    (hw : v.works = l ++ r) : ∃ label, Labelled j label v ∧ Stands i j label c [] { v with
      job := some { j with state := .running }
      works := l ++ .count i j.observer 0 (.start j.options j.roots) :: r } none := by
  obtain ⟨hstate, hdelivered, hheard, hobserver⟩ := h.job j hj
  obtain ⟨rfl, rfl⟩ : l = [] ∧ r = [] := by
    rw [h.works] at hw
    exact List.append_eq_nil_iff.1 hw.symm
  obtain ⟨label, hlabel⟩ : ∃ label, Labelled j label v := by
    cases ho : j.observer with
    | none => exact ⟨none, fun x hx => by rw [ho] at hx; cases hx⟩
    | some o =>
        refine ⟨v.labels.get ⟨o, hobserver o ho⟩, ?_⟩
        intro x hx
        rw [ho] at hx
        cases hx
        exact List.getElem?_eq_getElem _
  have htrace : ({ j with state := .running } : Job).trace = heardOf [] := by
    show j.heard.reverse = []
    rw [hheard]
    rfl
  have htold (d closed : Bool) : Told i j label d closed [] v.letters v.calls := by
    refine ⟨[], [], [], ?_, h.calls, h.letters, fun _ _ => rfl, fun _ => rfl⟩
    rw [Job.reports]
    split <;> rfl
  let j' : Job := { j with state := .running }
  let work : Work := .count i j.observer 0 (.start j.options j.roots)
  have htook : Took j.plan j.start c j.start [] := Took.start.mono fun h => by cases h
  have hrun : Running j c { v with job := some j', works := [work] } j.start [] j' :=
    ⟨rfl, ⟨rfl, rfl, rfl, rfl, rfl⟩, rfl, hdelivered, htrace, htook⟩
  exact ⟨label, hlabel, .counting hrun rfl (htold _ _)⟩

theorem Untouched.step {d : Deed} (h : Untouched v) (hs : JobStep i c v d v') :
    (d = .rest ∧ Untouched v') ∨
      d = .asked none ∧ ∃ j label, v.job = some j ∧ Labelled j label v' ∧
        Stands i j label c [] v' none := by
  have hworks {l r : List Work} {work : Work} (hw : v.works = l ++ work :: r) : False := by
    rw [h.works] at hw
    simp at hw
  have hletters {l : Letter α} {rest : List (Letter α)} (hl : v.letters = l :: rest) : False := by
    rw [h.letters] at hl
    cases hl
  cases hs with
  | other hlabels =>
      refine .inl ⟨rfl, { h with job := fun j hj => ?_ }⟩
      obtain ⟨hstate, hdelivered, hheard, ho⟩ := h.job j hj
      exact ⟨hstate, hdelivered, hheard, fun o he => Nat.lt_of_lt_of_le (ho o he) hlabels.length_le⟩
  | create =>
      refine .inl ⟨rfl, { h with job := fun j hj => ?_ }⟩
      cases hj
      exact ⟨rfl, rfl, rfl, fun o he => by cases he⟩
  | @observe j x hj =>
      refine .inl ⟨rfl, { h with job := fun j' hj' => ?_ }⟩
      obtain ⟨hstate, hdelivered, hheard, -⟩ := h.job j hj
      cases hj'
      refine ⟨hstate, hdelivered, hheard, ?_⟩
      intro o he
      cases he
      simp
  | @lift j hj =>
      refine .inl ⟨rfl, { h with job := fun j' hj' => ?_ }⟩
      cases hj'
      exact h.job j hj
  | @run j l r hj _ hw =>
      obtain ⟨label, hlabel, hbegun⟩ := h.run hj hw
      exact .inr ⟨rfl, j, label, hj, hlabel, hbegun⟩
  | @refuse j hj hstate => exact absurd (h.job j hj).1 hstate
  | close => exact .inl ⟨rfl, { h with letters := rfl }⟩
  | move _ hw => exact (hworks hw).elim
  | finish hw => exact (hworks hw).elim
  | hearProgress _ hl => exact (hletters hl).elim
  | hearEnd _ hl => exact (hletters hl).elim
  | ignore hl => exact (hletters hl).elim

end TreeTally
