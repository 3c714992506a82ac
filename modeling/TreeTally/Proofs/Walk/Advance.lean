import TreeTally.Walk.Count

namespace TreeTally

def eventsOf (l : List Signal) : List Event := l.filterMap fun
  | .event e => some e
  | .log _ => none

@[simp] theorem eventsOf_nil : eventsOf [] = [] := rfl

@[simp] theorem eventsOf_event (e : Event) (l : List Signal) :
    eventsOf (.event e :: l) = e :: eventsOf l := rfl

@[simp] theorem eventsOf_append (l l' : List Signal) :
    eventsOf (l ++ l') = eventsOf l ++ eventsOf l' := List.filterMap_append

def heardOf (l : List Signal) : List Event := (eventsOf l).filter fun e => e.progress?.isNone

def snapshotsOf (l : List Signal) : List Tally := (eventsOf l).filterMap Event.progress?

theorem heardOf_append (l l' : List Signal) : heardOf (l ++ l') = heardOf l ++ heardOf l' := by
  rw [heardOf, eventsOf_append, List.filter_append]
  rfl

theorem snapshotsOf_append (l l' : List Signal) :
    snapshotsOf (l ++ l') = snapshotsOf l ++ snapshotsOf l' := by
  rw [snapshotsOf, eventsOf_append, List.filterMap_append]
  rfl

namespace Walk

variable {P : Plan} {w v u : Walk} {k l : Nat} {a b : List Signal}

/-- So many steps of a walk left alone: what it sends on the way, and where it gets. -/
def advance (P : Plan) : Nat → Walk → List Signal × Walk
  | 0, w => ([], w)
  | k + 1, w =>
      let (v, s) := w.step P false
      let (l, u) := advance P k v
      (s.toList ++ l, u)

theorem advance_succ : advance P (k + 1) w =
    ((w.step P false).2.toList ++ (advance P k (w.step P false).1).1,
      (advance P k (w.step P false).1).2) := rfl

theorem advance_one {s : Option Signal} (h : w.step P false = (v, s)) :
    advance P 1 w = (s.toList, v) := by
  simp [h, advance]

theorem advance_trans (h : advance P k w = (a, v)) (h' : advance P l v = (b, u)) :
    advance P (k + l) w = (a ++ b, u) := by
  induction k generalizing w a with
  | zero =>
      obtain ⟨rfl, rfl⟩ := Prod.mk.inj h
      simpa using h'
  | succ k ih =>
      rw [advance_succ] at h
      obtain ⟨rfl, hv⟩ := Prod.mk.inj h
      rw [Nat.succ_add, advance_succ, ih (Prod.ext rfl hv), List.append_assoc]

theorem finished?_eq_some {e : Ending} : w.finished? = some e ↔ w.stage = .done e := by
  rw [finished?]
  cases w.stage <;> simp

theorem step_done {c : Bool} {e : Ending} (h : w.stage = .done e) : w.step P c = (w, none) := by
  simp [step, proceed, h, Stage.readsToken]

theorem advance_done {e : Ending} (h : w.stage = .done e) : advance P k w = ([], w) := by
  induction k with
  | zero => rfl
  | succ k ih => simp [advance_succ, step_done h, ih]

theorem step_alone : w.step P false = w.proceed P := rfl

theorem drive_done {e : Ending} {event fuel seen : Nat} {c : Bool} (h : w.stage = .done e) :
    w.drive P event (fuel + 1) c seen = some ⟨[], e⟩ := by
  simp [drive, finished?_eq_some.2 h]

theorem drive_succ {event fuel seen : Nat} {c : Bool} (h : w.finished? = none) :
    w.drive P event (fuel + 1) c seen =
      match w.step P c with
      | (v, none) => v.drive P event fuel c seen
      | (v, some (.log m)) =>
          (v.drive P event fuel c seen).map fun r => ⟨.log m :: r.signals, r.ending⟩
      | (v, some (.event e)) =>
          (v.drive P event fuel (c || seen + 1 == event) (seen + 1)).map fun r =>
            ⟨.event e :: r.signals, r.ending⟩ := by
  rewrite [drive, h]
  rfl

section

variable {event fuel seen : Nat} {c : Bool}

theorem drive_silent (h : w.finished? = none) (hs : w.step P c = (v, none)) :
    w.drive P event (fuel + 1) c seen = v.drive P event fuel c seen := by
  rw [drive_succ h, hs]

theorem drive_log {m : LogMessage} (h : w.finished? = none)
    (hs : w.step P c = (v, some (.log m))) : w.drive P event (fuel + 1) c seen =
      (v.drive P event fuel c seen).map fun r => ⟨.log m :: r.signals, r.ending⟩ := by
  rw [drive_succ h, hs]

theorem drive_event {e : Event} (h : w.finished? = none)
    (hs : w.step P c = (v, some (.event e))) : w.drive P event (fuel + 1) c seen =
      (v.drive P event fuel (c || seen + 1 == event) (seen + 1)).map fun r =>
        ⟨.event e :: r.signals, r.ending⟩ := by
  rw [drive_succ h, hs]

end

theorem drive_of_advance {e : Ending} {fuel seen : Nat} (h : advance P k w = (a, v))
    (hv : v.stage = .done e) (hk : k < fuel) : w.drive P 0 fuel false seen = some ⟨a, e⟩ := by
  -- A walk that ends early stays where it is for the rest of the steps.
  induction k generalizing w a fuel seen with
  | zero =>
      obtain ⟨rfl, rfl⟩ := Prod.mk.inj h
      obtain ⟨n, rfl⟩ := Nat.exists_eq_add_of_lt hk
      exact drive_done hv
  | succ k ih =>
      obtain ⟨n, rfl⟩ : ∃ n, fuel = n + 1 := ⟨fuel - 1, by omega⟩
      cases hf : w.finished? with
      | some e' =>
          have hw := finished?_eq_some.1 hf
          rw [advance_done hw] at h
          obtain ⟨rfl, rfl⟩ := Prod.mk.inj h
          obtain rfl : e' = e := by simpa [hw] using hv
          exact drive_done hw
      | none =>
          rw [advance_succ] at h
          obtain ⟨rfl, hu⟩ := Prod.mk.inj h
          have hrest (m : Nat) : (w.step P false).1.drive P 0 n false m =
              some ⟨(advance P k (w.step P false).1).1, e⟩ := ih (Prod.ext rfl hu) (by omega)
          rcases hs : w.step P false with ⟨x, _ | s⟩
          · rw [hs] at hrest
            rw [drive_silent hf hs]
            simpa using hrest seen
          · rw [hs] at hrest
            cases s with
            | log m => simp [drive_log hf hs, hrest]
            | event e => simp [drive_event hf hs, hrest]

end Walk

end TreeTally
