import TreeTally.Proofs.Walk.Advance

namespace TreeTally

variable (φ : Fault → Fault)

def Event.reword : Event → Event
  | .bad p f => .bad p (φ f)
  | e => e

def LogMessage.reword : LogMessage → LogMessage
  | .skippedEntry p f => .skippedEntry p (φ f)
  | m => m

def Signal.reword : Signal → Signal
  | .event e => .event (e.reword φ)
  | .log m => .log (m.reword φ)

def Report.reword (r : Report) : Report := ⟨r.signals.map (Signal.reword φ), r.ending⟩

def FileSystem.reword (fs : FileSystem) : FileSystem :=
  { fs with list := fun p follow => (fs.list p follow).map (List.map (Except.mapError φ)) }

def Plan.reword (P : Plan) : Plan := { P with fs := P.fs.reword φ }

def Frame.reword (x : Frame) : Frame := { x with rest := x.rest.map (Except.mapError φ) }

def Stage.reword : Stage → Stage
  | .opened p d a => .opened p d (a.map (List.map (Except.mapError φ)))
  | .received p e => .received p (e.mapError φ)
  | s => s

def Walk.reword (w : Walk) : Walk :=
  { w with stage := w.stage.reword φ, frames := w.frames.map (Frame.reword φ) }

namespace Walk

variable {P : Plan} {w : Walk}

theorem resume_reword : (w.reword φ).resume = w.resume.reword φ := by
  obtain ⟨s, frames, roots, t, th, n⟩ := w
  cases frames with
  | cons => rfl
  | nil => cases roots <;> rfl

theorem finished?_reword : (w.reword φ).finished? = w.finished? := by
  obtain ⟨s, frames, roots, t, th, n⟩ := w
  cases s <;> rfl

theorem readsToken_reword : (w.reword φ).stage.readsToken = w.stage.readsToken := by
  obtain ⟨s, frames, roots, t, th, n⟩ := w
  cases s <;> rfl

theorem cancel_reword : (w.reword φ).cancel = w.cancel.reword φ := rfl

theorem home_reword (d : DeviceId) : ((w.reword φ).frames.head?.map (·.device)).getD d =
    (w.frames.head?.map (·.device)).getD d := by
  obtain ⟨s, frames, roots, t, th, n⟩ := w
  cases frames <;> rfl

theorem inspect_reword (p : Path) (i : EntryInfo) : (w.reword φ).inspect (P.reword φ) p i =
    (w.inspect P p i).map (reword φ) (Option.map (Signal.reword φ)) := by
  rw [inspect, inspect, home_reword]
  split
  · exact Prod.ext (resume_reword φ) rfl
  split
  · rfl
  · exact Prod.ext (resume_reword φ (w := { w with tally := w.tally.addFile i.size })) rfl

theorem opened_reword (p : Path) (d : DeviceId) (a : Except Fault (List Listed)) :
    (w.reword φ).opened (P.reword φ) p d (a.map (List.map (Except.mapError φ))) =
      (w.opened P p d a).map (reword φ) (Option.map (Signal.reword φ)) := by
  cases a with
  | ok l => rfl
  | error f =>
      have hempty : (w.reword φ).frames.isEmpty = w.frames.isEmpty := List.isEmpty_map
      show opened (P.reword φ) _ p d (.error f) = _
      rw [opened, opened]
      simp only [hempty]
      split
      · rw [if_pos ‹_›]
        rfl
      · rw [if_neg ‹_›]
        rfl

theorem pull_reword :
    (w.reword φ).pull = w.pull.map (reword φ) (Option.map (Signal.reword φ)) := by
  obtain ⟨s, _ | ⟨⟨p, d, _ | ⟨e, rest⟩⟩, frames⟩, roots, t, th, n⟩ := w
  · exact Prod.ext (resume_reword φ) rfl
  · rfl
  · cases e <;> rfl

theorem leave_reword : (w.reword φ).leave (P.reword φ) =
    (w.leave P).map (reword φ) (Option.map (Signal.reword φ)) := by
  have hready : (w.reword φ).throttle.ready? ((P.reword φ).clock (w.reword φ).readings) =
      w.throttle.ready? (P.clock w.readings) := rfl
  rw [leave, leave, hready]
  obtain ⟨answer, th⟩ := w.throttle.ready? (P.clock w.readings)
  cases answer with
  | none => rfl
  | some report =>
      refine Prod.ext (resume_reword φ (w := { w with throttle := th, readings := _ })) ?_
      cases report <;> rfl

theorem proceed_reword : (w.reword φ).proceed (P.reword φ) =
    (w.proceed P).map (reword φ) (Option.map (Signal.reword φ)) := by
  have hresume := resume_reword φ (w := w)
  have hinspect := inspect_reword φ (P := P) (w := w)
  have hopened := opened_reword φ (P := P) (w := w)
  have hpull := pull_reword φ (w := w)
  have hleave := leave_reword φ (P := P) (w := w)
  obtain ⟨s, frames, roots, t, th, n⟩ := w
  cases s with
  | start => exact Prod.ext hresume rfl
  | visit p info => cases info <;> rfl
  | inspect p a =>
      cases a with
      | ok i => exact hinspect p i
      | error f => rfl
  | opened p d a => exact hopened p d a
  | received p e => cases e <;> rfl
  | pull => exact hpull
  | leave => exact hleave
  | refused | closing | done => rfl

theorem step_reword (c : Bool) : (w.reword φ).step (P.reword φ) c =
    (w.step P c).map (reword φ) (Option.map (Signal.reword φ)) := by
  rw [step, step, readsToken_reword, cancel_reword, proceed_reword]
  split <;> rfl

theorem drive_reword (event fuel : Nat) (c : Bool) (seen : Nat) :
    (w.reword φ).drive (P.reword φ) event fuel c seen =
      (w.drive P event fuel c seen).map (Report.reword φ) := by
  induction fuel generalizing w c seen with
  | zero => rfl
  | succ fuel ih =>
      cases hf : w.finished? with
      | some e =>
          have hf' := (finished?_reword φ).trans hf
          rw [drive_done (finished?_eq_some.1 hf), drive_done (finished?_eq_some.1 hf')]
          rfl
      | none =>
          have hf' := (finished?_reword φ).trans hf
          have hs' := step_reword φ (P := P) (w := w) c
          rcases hs : w.step P c with ⟨v, _ | e | m⟩ <;> rw [hs] at hs'
          · rw [drive_silent hf hs, drive_silent hf' hs', ih]
          · rw [drive_event hf hs, drive_event hf' hs', ih, Option.map_map, Option.map_map]
            rfl
          · rw [drive_log hf hs, drive_log hf' hs', ih, Option.map_map, Option.map_map]
            rfl

end Walk

theorem Plan.count_reword (P : Plan) (fuel : Nat) (interrupt : Interrupt) (roots : List Path) :
    (P.reword φ).count fuel interrupt roots =
      (P.count fuel interrupt roots).map (Report.reword φ) := by
  exact Walk.drive_reword φ (w := Walk.start P.options roots) ..

end TreeTally
