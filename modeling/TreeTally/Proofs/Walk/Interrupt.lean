import TreeTally.Proofs.Walk.Advance

namespace TreeTally

/-- The event is what a listing says when it is asked for its next entry. -/
def Event.AnswersFor (folder : Path) : Event → Prop
  | child p _ | bad p _ | finish p => p = folder
  | _ => False

namespace Walk

/-- What is still sent after an event of a walk in which the token gets cancelled: nothing, unless
the event reports on a folder inside another one, which is then asked for its next entry. -/
def Trails (w : Walk) (extra : List Event) : Prop :=
  match w.stage, w.frames with
  | .leave, f :: _ => ∃ e, extra = [e] ∧ e.AnswersFor f.path
  | _, _ => extra = []

variable {P : Plan} {w v : Walk} {e : Event} {m : LogMessage} {fuel seen n : Nat} {c : Bool}
variable {r : Report}

theorem trails_nil (h : w.stage ≠ .leave ∨ w.frames = []) : w.Trails [] := by
  rw [Trails]
  split
  · rename_i hs hf
    rcases h with h | h
    · exact absurd hs h
    · rw [hf] at h
      cases h
  · rfl

/-- The walk has not ended, and looks at the token before it does anything. -/
def Attends (w : Walk) : Prop := w.finished? = none ∧ w.stage.readsToken = true

theorem resume_nested {f : Frame} {fs : List Frame} (h : w.frames = f :: fs) :
    w.resume = { w with stage := .pull } := by
  rw [resume, h]

theorem resume_attends (h : w.frames = []) : w.resume.Attends ∧ w.resume.tally = w.tally := by
  rw [resume, h]
  cases w.roots with
  | nil => exact ⟨⟨rfl, rfl⟩, rfl⟩
  | cons r rs => exact ⟨⟨rfl, rfl⟩, rfl⟩

/-- What a walk is like after an event: it has ended well, or it is to ask a listing, or it attends
to the token. -/
def After (w v : Walk) : Prop :=
  (∃ t, v.stage = .done (.outcome (.ok t))) ∨
    (∃ f fs, w.stage = .leave ∧ w.frames = f :: fs ∧ v.stage = .pull ∧ v.frames = f :: fs) ∨
    (w.Trails [] ∧ v.Attends)

theorem inspect_event {p : Path} {i : EntryInfo} (h : w.inspect P p i = (v, some (.event e)))
    (hs : w.stage ≠ .leave) : v.tally = w.tally ∧ w.After v := by
  rw [inspect] at h
  split at h
  · cases h
  split at h
  · cases h
    exact ⟨rfl, .inr (.inr ⟨trails_nil (.inl hs), rfl, rfl⟩)⟩
  · cases h

theorem opened_event {p : Path} {d : DeviceId} {answer : Except Fault (List Listed)} :
    w.opened P p d answer ≠ (v, some (.event e)) := by
  intro h
  cases answer with
  | ok entries => cases h
  | error f =>
      rw [opened] at h
      split at h
      · cases h
      · cases h

theorem pull_frame {f : Frame} {fs : List Frame} (h : w.frames = f :: fs) :
    ∃ v e, w.pull = (v, some (.event e)) ∧ e.AnswersFor f.path ∧ v.tally = w.tally ∧ v.Attends := by
  obtain ⟨p, d, rest⟩ := f
  rw [pull, h]
  rcases rest with _ | ⟨entry, rest⟩
  · exact ⟨_, _, rfl, rfl, rfl, rfl, rfl⟩
  · cases entry with
    | ok c => exact ⟨_, _, rfl, rfl, rfl, rfl, rfl⟩
    | error f => exact ⟨_, _, rfl, rfl, rfl, rfl, rfl⟩

theorem pull_event (h : w.pull = (v, some (.event e))) (hs : w.stage ≠ .leave) :
    v.tally = w.tally ∧ w.After v := by
  cases hf : w.frames with
  | nil =>
      rw [pull, hf] at h
      cases h
  | cons f fs =>
      obtain ⟨u, e', hu, -, ht, ha⟩ := pull_frame hf
      rw [hu] at h
      cases h
      exact ⟨ht, .inr (.inr ⟨trails_nil (.inl hs), ha⟩)⟩

theorem leave_event (h : w.leave P = (v, some (.event e))) (hs : w.stage = .leave) :
    v.tally = w.tally ∧ w.After v := by
  rw [leave] at h
  split at h
  · cases h
  · rename_i report throttle _
    let u : Walk := { w with throttle := throttle, readings := w.readings + 1 }
    have hv : u.resume = v := (Prod.mk.inj h).1
    rw [← hv]
    cases hf : w.frames with
    | nil =>
        obtain ⟨ha, ht⟩ := resume_attends (w := u) hf
        exact ⟨ht, .inr (.inr ⟨trails_nil (.inr hf), ha⟩)⟩
    | cons f fs =>
        rw [resume_nested (w := u) hf]
        exact ⟨rfl, .inr (.inl ⟨f, fs, hs, hf, rfl, hf⟩)⟩

theorem step_event (h : w.step P false = (v, some (.event e))) :
    v.tally = w.tally ∧ w.After v := by
  rw [step_alone, proceed] at h
  cases hs : w.stage with
  | start =>
      rw [hs] at h
      cases h
  | visit p info =>
      rw [hs] at h
      cases info with
      | none =>
          cases h
          exact ⟨rfl, .inr (.inr ⟨trails_nil (.inl (by simp [hs])), rfl, rfl⟩)⟩
      | some i => cases h
  | inspect p answer =>
      rw [hs] at h
      cases answer with
      | ok i => exact inspect_event h (by simp [hs])
      | error f => cases h
  | opened p d answer =>
      rw [hs] at h
      exact absurd h opened_event
  | refused p f =>
      rw [hs] at h
      cases h
  | pull =>
      rw [hs] at h
      exact pull_event h (by simp [hs])
  | received p entry =>
      rw [hs] at h
      cases entry <;> cases h
  | leave =>
      rw [hs] at h
      exact leave_event h hs
  | closing =>
      rw [hs] at h
      cases h
      exact ⟨rfl, .inl ⟨_, rfl⟩⟩
  | done e =>
      rw [hs] at h
      cases h

/-- A cancelled walk that attends to the token has two steps to go. -/
theorem drive_attends (h : w.Attends) : w.drive P n (fuel + 2) true seen =
    some ⟨[], .outcome (.error (.cancelled w.tally))⟩ := by
  have hstep : w.step P true = (w.cancel, none) := by
    rw [step, h.2]
    rfl
  rw [drive_silent h.1 hstep]
  exact drive_done rfl

inductive Runs (P : Plan) : Nat → Walk → Report → Prop
  | done {fuel : Nat} {w : Walk} {e : Ending} (h : w.stage = .done e) : Runs P (fuel + 1) w ⟨[], e⟩
  | step {fuel : Nat} {w v : Walk} {s : Option Signal} {r : Report} (h : w.finished? = none)
      (hs : w.step P false = (v, s)) (hr : Runs P fuel v r) :
      Runs P (fuel + 1) w ⟨s.toList ++ r.signals, r.ending⟩

theorem runs_of_drive (h : w.drive P 0 fuel false seen = some r) : Runs P fuel w r := by
  induction fuel generalizing w seen r with
  | zero => cases h
  | succ fuel ih =>
      cases hw : w.finished? with
      | some e =>
          have hd := finished?_eq_some.1 hw
          rw [drive_done hd] at h
          cases h
          exact .done hd
      | none =>
          rcases hs : w.step P false with ⟨v, _ | s⟩
          · rw [drive_silent hw hs] at h
            exact .step hw hs (ih h)
          · cases s with
            | log m =>
                rw [drive_log hw hs] at h
                obtain ⟨r', hr', rfl⟩ := Option.map_eq_some_iff.1 h
                exact .step hw hs (ih hr')
            | event e =>
                rw [drive_event hw hs] at h
                obtain ⟨r', hr', rfl⟩ := Option.map_eq_some_iff.1 h
                exact .step hw hs (ih hr')

theorem Runs.of_done {e : Ending} (h : Runs P fuel w r) (hd : w.stage = .done e) : r = ⟨[], e⟩ := by
  cases h with
  | done hd' =>
      rw [hd] at hd'
      cases hd'
      rfl
  | step hw =>
      rw [finished?_eq_some.2 hd] at hw
      cases hw

theorem Runs.exists_fuel (h : Runs P fuel w r) (hw : w.finished? = none) : ∃ m, fuel = m + 2 := by
  cases h with
  | done hd =>
      rw [finished?_eq_some.2 hd] at hw
      cases hw
  | step _ _ hr =>
      cases hr with
      | done => exact ⟨_, rfl⟩
      | step => exact ⟨_, rfl⟩

theorem resume_unfinished (w : Walk) : w.resume.finished? = none := by
  cases hf : w.frames with
  | nil => exact (resume_attends hf).1.1
  | cons f fs =>
      rw [resume_nested hf]
      rfl

theorem inspect_unfinished (w : Walk) (p : Path) (i : EntryInfo) :
    (w.inspect P p i).1.finished? = none := by
  rw [inspect]
  split
  · exact resume_unfinished w
  split
  · rfl
  · exact resume_unfinished _

theorem opened_unfinished (w : Walk) (p : Path) (d : DeviceId)
    (answer : Except Fault (List Listed)) : (w.opened P p d answer).1.finished? = none := by
  cases answer with
  | ok entries => rfl
  | error f =>
      rw [opened]
      dsimp only
      split <;> rfl

theorem proceed_silent {t : Tally} {s : Option Signal} (hw : w.finished? = none)
    (hs : w.proceed P = (v, s)) (hquiet : ∀ e, s ≠ some (.event e)) :
    v.stage ≠ .done (.outcome (.ok t)) := by
  intro hv
  have hv : v.finished? = some (.outcome (.ok t)) := finished?_eq_some.2 hv
  have hgo (u : Walk) (hu : u.finished? = none) : v ≠ u := by
    rintro rfl
    rw [hu] at hv
    cases hv
  rw [proceed] at hs
  cases hstage : w.stage with
  | start =>
      rw [hstage] at hs
      exact hgo _ (resume_unfinished w) (Prod.mk.inj hs).1.symm
  | visit p info =>
      rw [hstage] at hs
      cases info <;> exact hgo _ rfl (Prod.mk.inj hs).1.symm
  | inspect p answer =>
      rw [hstage] at hs
      cases answer with
      | error f =>
          cases hs
          cases hv
      | ok i => exact hgo _ (inspect_unfinished w p i) (congrArg Prod.fst hs).symm
  | opened p d answer =>
      rw [hstage] at hs
      exact hgo _ (opened_unfinished w p d answer) (congrArg Prod.fst hs).symm
  | refused p f =>
      rw [hstage] at hs
      cases hs
      cases hv
  | pull =>
      rw [hstage] at hs
      cases hf : w.frames with
      | nil =>
          have hpull : w.pull = (w.resume, none) := by rw [pull, hf]
          exact hgo _ (resume_unfinished w) (Prod.mk.inj (hpull.symm.trans hs)).1.symm
      | cons f fs =>
          obtain ⟨u, e, hu, -⟩ := pull_frame hf
          exact hquiet e (Prod.mk.inj (hu.symm.trans hs)).2.symm
  | received p entry =>
      rw [hstage] at hs
      cases entry <;> exact hgo _ rfl (Prod.mk.inj hs).1.symm
  | leave =>
      rw [hstage] at hs
      simp only [leave] at hs
      split at hs
      · cases hs
        cases hv
      · exact hgo _ (resume_unfinished _) (Prod.mk.inj hs).1.symm
  | closing =>
      rw [hstage] at hs
      exact hquiet _ (Prod.mk.inj hs).2.symm
  | done e =>
      rw [finished?_eq_some.2 hstage] at hw
      cases hw

theorem Runs.events_ne_nil {t : Tally} (h : Runs P fuel w r) (hw : w.finished? = none)
    (ht : r.ending = .outcome (.ok t)) : r.events ≠ [] := by
  induction h with
  | done hd =>
      rw [finished?_eq_some.2 hd] at hw
      cases hw
  | @step fuel w v s r _ hs hr ih =>
      cases hv : v.finished? with
      | none =>
          have hne := ih hv ht
          cases s with
          | none => exact hne
          | some s =>
              cases s with
              | log m => exact hne
              | event e => exact List.cons_ne_nil _ _
      | some e =>
          have hd := finished?_eq_some.1 hv
          obtain rfl : e = .outcome (.ok t) := by
            rw [hr.of_done hd] at ht
            exact ht
          rcases s with _ | e | m
          · exact absurd hd (proceed_silent hw hs fun e he => by cases he)
          · exact List.cons_ne_nil _ _
          · exact absurd hd (proceed_silent hw hs fun e he => by cases he)

theorem Runs.late (h : Runs P fuel w r) (hn : seen + r.events.length < n) :
    w.drive P n fuel false seen = some r := by
  induction h generalizing seen with
  | done hd => exact drive_done hd
  | @step fuel w v s r hw hs hr ih =>
      cases s with
      | none => exact (drive_silent hw hs).trans (ih hn)
      | some s =>
          cases s with
          | log m =>
              rw [drive_log hw hs, ih hn]
              rfl
          | event e =>
              have hlen : seen + (r.events.length + 1) < n := hn
              have hne : (seen + 1 == n) = false := by simp; omega
              rw [drive_event hw hs, hne, Bool.or_false, ih (by omega)]
              rfl

theorem Runs.last {t : Tally} (h : Runs P fuel w r) (hn : n = seen + r.events.length)
    (hlt : seen < n) (ht : r.ending = .outcome (.ok t)) :
    w.drive P n fuel false seen = some r := by
  induction h generalizing seen with
  | done hd => exact drive_done hd
  | @step fuel w v s r hw hs hr ih =>
      rcases s with _ | e | m
      · exact (drive_silent hw hs).trans (ih hn hlt ht)
      · have hlen : n = seen + (r.events.length + 1) := hn
        rw [drive_event hw hs]
        by_cases hzero : r.events = []
        · have hv : v.finished? ≠ none := fun hv => hr.events_ne_nil hv ht hzero
          cases hr with
          | done hd =>
              rw [drive_done hd]
              rfl
          | step hv' => exact absurd hv' hv
        · have hpos := List.length_pos_iff.2 hzero
          have hne : (seen + 1 == n) = false := by
            simp only [beq_eq_false_iff_ne]
            omega
          rw [hne, Bool.or_false, ih (by omega) (by omega) ht]
          rfl
      · rw [drive_log hw hs, ih hn hlt ht]
        rfl

/-- Beside the whole report of a walk that is left alone, the report of one whose token gets
cancelled inside event number `n`. The walk `u` is the one left alone, about to send that event. -/
def Cut (P : Plan) (w : Walk) (n : Nat) (whole cut : Report) : Prop :=
  ∃ k before u e extra, advance P k w = (before, u) ∧ (u.step P false).2 = some (.event e) ∧
    whole.events.take n = eventsOf before ++ [e] ∧
    cut.ending = .outcome (.error (.cancelled u.tally)) ∧
    cut.events = whole.events.take n ++ extra ∧ u.Trails extra ∧ cut.signals <+: whole.signals

theorem Cut.silent {whole cut : Report} (h : Cut P v n whole cut) (hs : w.step P false = (v, none)) :
    Cut P w n whole cut := by
  obtain ⟨k, before, u, e, extra, hk, hrest⟩ := h
  exact ⟨1 + k, before, u, e, extra, advance_trans (advance_one hs) hk, hrest⟩

theorem Cut.log {m : LogMessage} {whole cut : Report} (h : Cut P v n whole cut)
    (hs : w.step P false = (v, some (.log m))) :
    Cut P w n ⟨.log m :: whole.signals, whole.ending⟩ ⟨.log m :: cut.signals, cut.ending⟩ := by
  obtain ⟨k, before, u, e, extra, hk, hu, htake, hend, hcut, htrails, hpre⟩ := h
  exact ⟨1 + k, .log m :: before, u, e, extra, advance_trans (advance_one hs) hk, hu, htake, hend,
    hcut, htrails, (List.prefix_cons_inj _).2 hpre⟩

theorem Cut.event {whole cut : Report} (h : Cut P v n whole cut)
    (hs : w.step P false = (v, some (.event e))) :
    Cut P w (n + 1) ⟨.event e :: whole.signals, whole.ending⟩
      ⟨.event e :: cut.signals, cut.ending⟩ := by
  obtain ⟨k, before, u, e', extra, hk, hu, htake, hend, hcut, htrails, hpre⟩ := h
  refine ⟨1 + k, .event e :: before, u, e', extra, advance_trans (advance_one hs) hk, hu, ?_, hend, ?_,
    htrails, (List.prefix_cons_inj _).2 hpre⟩
  · exact congrArg (e :: ·) htake
  · exact congrArg (e :: ·) hcut

theorem Runs.cut_here (h : Runs P fuel v r) (hs : w.step P false = (v, some (.event e)))
    (hok : ∀ t, v.stage ≠ .done (.outcome (.ok t))) (seen : Nat) :
    ∃ r', v.drive P n fuel true seen = some r' ∧
      Cut P w 1 ⟨.event e :: r.signals, r.ending⟩ ⟨.event e :: r'.signals, r'.ending⟩ := by
  obtain ⟨htally, ⟨t, hv⟩ | ⟨f, fs, hw, hwf, hv, hvf⟩ | ⟨htrails, hattends⟩⟩ := step_event hs
  · exact absurd hv (hok t)
  · have hun : v.finished? = none := by rw [finished?, hv]
    cases h with
    | done hd =>
        rw [hv] at hd
        cases hd
    | @step fuel _ u s r _ hvs hr =>
        -- The listing is asked before the token is looked at.
        have hpull (c : Bool) : v.step P c = v.pull := by
          rw [Walk.step, proceed, hv]
          simp [Stage.readsToken]
        obtain ⟨u', e', hu', hanswers, htally', hattends⟩ := pull_frame hvf
        have hsame : v.step P false = (u', some (.event e')) := (hpull false).trans hu'
        obtain ⟨rfl, rfl⟩ := Prod.mk.inj (hvs.symm.trans hsame)
        obtain ⟨m, rfl⟩ := hr.exists_fuel hattends.1
        refine ⟨⟨[.event e'], .outcome (.error (.cancelled u.tally))⟩, ?_, ?_⟩
        · rw [drive_event hun ((hpull true).trans hu'), Bool.true_or, drive_attends hattends]
          rfl
        · refine ⟨0, [], w, e, [e'], rfl, congrArg Prod.snd hs, rfl, ?_, rfl, ?_, ?_⟩
          · rw [← htally, ← htally']
          · rw [Trails, hw, hwf]
            exact ⟨e', rfl, hanswers⟩
          · exact ⟨r.signals, rfl⟩
  · obtain ⟨m, rfl⟩ := h.exists_fuel hattends.1
    refine ⟨_, drive_attends hattends, 0, [], w, e, [], rfl, congrArg Prod.snd hs, rfl, ?_, rfl,
      htrails, ?_⟩
    · rw [htally]
    · exact ⟨r.signals, rfl⟩

theorem Runs.cut (h : Runs P fuel w r) (hlt : seen < n) (hle : n ≤ seen + r.events.length)
    (hnot : ∀ t, n = seen + r.events.length → r.ending ≠ .outcome (.ok t)) :
    ∃ r', w.drive P n fuel false seen = some r' ∧ Cut P w (n - seen) r r' := by
  induction h generalizing seen with
  | done hd =>
      have hle : n ≤ seen := hle
      omega
  | @step fuel w v s r hw hs hr ih =>
      rcases s with _ | e | m
      · obtain ⟨r', hr', hcut⟩ := ih hlt hle hnot
        exact ⟨r', (drive_silent hw hs).trans hr', hcut.silent hs⟩
      · have hlen : n ≤ seen + (r.events.length + 1) := hle
        by_cases hn : seen + 1 = n
        · have hok (t : Tally) : v.stage ≠ .done (.outcome (.ok t)) := by
            intro hv
            obtain rfl := hr.of_done hv
            exact hnot t hn.symm rfl
          obtain ⟨r', hr', hcut⟩ := hr.cut_here (n := n) hs hok (seen + 1)
          have hone : n - seen = 1 := by omega
          rw [hone]
          refine ⟨_, ?_, hcut⟩
          rw [drive_event hw hs, beq_iff_eq.2 hn, Bool.or_true, hr']
          rfl
        · -- The event is an earlier one, and the token is still as it was.
          have hlt' : seen + 1 < n := by omega
          obtain ⟨r', hr', hcut⟩ := ih hlt' (by omega) fun t ht =>
            hnot t (ht.trans (Nat.add_right_comm _ _ _))
          have hne : (seen + 1 == n) = false := by
            simp only [beq_eq_false_iff_ne]
            exact hn
          have hsucc : n - seen = n - (seen + 1) + 1 := by omega
          rw [hsucc]
          refine ⟨_, ?_, hcut.event hs⟩
          rw [drive_event hw hs, hne, Bool.or_false, hr']
          rfl
      · obtain ⟨r', hr', hcut⟩ := ih hlt hle hnot
        refine ⟨_, ?_, hcut.log hs⟩
        rw [drive_log hw hs, hr']
        rfl

end Walk

/-- A count that is cancelled inside an event past its end, or inside the last one that hands out the
totals, is the count left alone. Inside any other event it is cut short there. -/
theorem Plan.count_interrupted {P : Plan} {fuel n : Nat} {roots : List Path} {r : Report}
    (h : P.count fuel {} roots = some r) (hn : 1 ≤ n) :
    (r.events.length < n ∨ (n = r.events.length ∧ ∃ t, r.ending = .outcome (.ok t)) →
      P.count fuel ⟨false, n⟩ roots = some r) ∧
    (¬(r.events.length < n ∨ (n = r.events.length ∧ ∃ t, r.ending = .outcome (.ok t))) →
      ∃ r', P.count fuel ⟨false, n⟩ roots = some r' ∧
        Walk.Cut P (Walk.start P.options roots) n r r') := by
  have hruns := Walk.runs_of_drive h
  constructor
  · rintro (hlate | ⟨hlast, t, ht⟩)
    · exact hruns.late (by rwa [Nat.zero_add])
    · exact hruns.last (hlast.trans (Nat.zero_add _).symm) hn ht
  · intro hnot
    obtain ⟨hle, hlast⟩ := not_or.1 hnot
    have hle : n ≤ 0 + r.events.length := by omega
    exact hruns.cut hn hle fun t ht hend => hlast ⟨ht.trans (Nat.zero_add _), t, hend⟩

def Plan.twoFolders : Plan where
  fs :=
    { stat _ _ := .ok ⟨.folder, 0, ⟨""⟩⟩
      list p _ :=
        if p.chars = ['/'] then
          .ok [.ok ⟨['x'], .folder, 0, ⟨""⟩⟩, .ok ⟨['y'], .folder, 0, ⟨""⟩⟩]
        else .ok [] }
  options := { interval := ⟨0⟩ }
  clock _ := ⟨0⟩
  lone := true

/-- The ninth of its twelve events is the report on the second folder, and one more follows. -/
theorem Plan.count_interrupted_nested :
    ∃ r r', twoFolders.count 40 {} [⟨['/']⟩] = some r ∧ r.events.length = 12 ∧
      twoFolders.count 40 ⟨false, 9⟩ [⟨['/']⟩] = some r' ∧ r'.events.length = 10 ∧
      Walk.Cut twoFolders (Walk.start twoFolders.options [⟨['/']⟩]) 9 r r' := by
  obtain ⟨r, hr⟩ : ∃ r, twoFolders.count 40 {} [⟨['/']⟩] = some r := ⟨_, rfl⟩
  have hlen : r.events.length = 12 := by
    have hmap : (twoFolders.count 40 {} [⟨['/']⟩]).map (·.events.length) = some 12 := rfl
    simpa [hr] using hmap
  obtain ⟨r', hr', hcut⟩ := (count_interrupted (n := 9) hr (by decide)).2 (by omega)
  have hlen' : r'.events.length = 10 := by
    have hmap : (twoFolders.count 40 ⟨false, 9⟩ [⟨['/']⟩]).map (·.events.length) = some 10 := rfl
    simpa [hr'] using hmap
  exact ⟨r, r', hr, hlen, hr', hlen', hcut⟩

end TreeTally
