import TreeTally.Proofs.Background.Token

namespace TreeTally.Background

variable {α : Type} {b b' c : Background α} {i : Nat}

theorem settleOutcome_false (o : Outcome) : settleOutcome false o = o := by
  cases o <;> rfl

theorem state_of_run {j : Job} (hj : b.jobs[i]? = some j) (h : b.run i = .ok b') :
    j.state = .created ∧ ∃ j', b'.jobs[i]? = some j' ∧ j'.state = .running := by
  rw [run, hj] at h
  dsimp only at h
  split at h
  · cases h
  · rename_i hstate
    obtain rfl := Except.ok.inj h
    refine ⟨Classical.not_not.1 hstate, { j with state := .running }, ?_, rfl⟩
    have hjobs (d : Background α) (works : List Work) (l : Lane) :
        (d.setLane works l).jobs = d.jobs := by cases l <;> rfl
    rw [hjobs]
    show (b.jobs.modify i fun j => { j with state := .running })[i]? = _
    simp [hj]

theorem stands_run (hb : ({} : Background α).Reaches b) {j : Job} (hj : b.jobs[i]? = some j)
    (h : b.run i = .ok b') : ∃ label, Labelled j label (b.view i) ∧
      Labelled j label (b'.view i) ∧ Stands i j label (b'.stopped i) [] (b'.view i) none := by
  obtain ⟨hcreated, j', hj', hrunning⟩ := state_of_run hj h
  have hstep : JobStep i (b'.stopped i) (b.view i) _ (b'.view i) := step_run h
  rcases lives hb i with huntouched | ⟨j₀, label, -, hbegun⟩
  · rcases huntouched.step hstep with ⟨-, hstill⟩ | ⟨-, j₁, label, hj₁, hlabel, hbegun⟩
    · have hstate := (hstill.job j' hj').1
      rw [hrunning] at hstate
      cases hstate
    · obtain rfl : j₁ = j := Option.some.inj (hj₁.symm.trans hj)
      -- The observer was there before the run, and so was its label.
      refine ⟨label, fun x hx => ?_, hlabel, hbegun⟩
      obtain ⟨more, hmore⟩ := hstep.grows.1
      have hlt := (huntouched.job j₁ hj).2.2.2 x hx
      have hsome := hlabel x hx
      rw [← hmore, List.getElem?_append_left hlt] at hsome
      exact hsome
  · obtain ⟨j₁, hj₁, -, hstate⟩ := hbegun.exists_job
    obtain rfl : j₁ = j := Option.some.inj (hj₁.symm.trans hj)
    exact absurd hcreated hstate

theorem begun_run (hb : ({} : Background α).Reaches b) {j : Job} (hj : b.jobs[i]? = some j)
    (h : b.run i = .ok b') : ∃ label, Labelled j label (b.view i) ∧
      Labelled j label (b'.view i) ∧ Begun i j label (b'.stopped i) (b'.view i) := by
  obtain ⟨label, hlabel, hlabel', hstands⟩ := stands_run hb hj h
  exact ⟨label, hlabel, hlabel', _, _, hstands⟩

theorem begun_delivered {j₀ j : Job} {label : Option α}
    (h : Begun i j₀ label (b.stopped i) (b.view i)) (hj : b.jobs[i]? = some j)
    (hdelivered : j.delivered = true) (hcalm : b.isCancelled j₀.token = false) :
    ∃ k sent w out, Walk.advance j₀.plan k j₀.start = (sent, w) ∧
      w.stage = .done (.outcome out) ∧ j.trace = heardOf sent ∧ j.state = stateAfter out ∧
      (b.view i).calls =
        (j₀.reports sent).map (.progress i label) ++ [.done i out (stateAfter out)] := by
  obtain ⟨w, sent, out, d, before, hend⟩ := h.of_delivered hj hdelivered
  -- A token that is not cancelled now was not cancelled when the end was heard.
  have hd : d = false := by
    cases d with
    | false => rfl
    | true =>
        have hstopped := hend.stopped rfl
        rw [stopped_eq hj, hend.task.token, hcalm] at hstopped
        cases hstopped
  subst hd
  have hstate := hend.state
  have hcalls := hend.calls
  rw [settleOutcome_false] at hstate hcalls
  obtain ⟨k, hk⟩ := hend.took.alone
  refine ⟨k, sent, w, out, hk, Walk.finished?_eq_some.1 hend.finished, hend.trace, hstate, ?_⟩
  rw [hcalls, hend.told.calls_eq]

def sampleSpec (root : List Char) : JobSpec where
  roots := [⟨root⟩]
  options := { interval := ⟨0⟩ }
  fs := { stat _ _ := .ok ⟨.folder, 0, ⟨""⟩⟩, list _ _ := .ok [] }
  clock _ := ⟨0⟩
  effort := 20

def sampleState : Background Unit := ({} : Background Unit).play
  [.create (sampleSpec ['/', 'a']), .create (sampleSpec ['/', 'b']), .observe 0 (some ()) 0]

end TreeTally.Background
