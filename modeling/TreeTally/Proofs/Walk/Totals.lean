import Mathlib.Algebra.BigOperators.Group.List.Basic
import Mathlib.Algebra.GroupWithZero.Nat
import TreeTally.Proofs.Throttle
import TreeTally.Proofs.Walk.Sight

namespace TreeTally

namespace Tally

attribute [ext] Tally

instance : Zero Tally := ⟨{}⟩

instance : Add Tally :=
  ⟨fun a b => ⟨a.bytes + b.bytes, a.files + b.files, a.folders + b.folders, a.unreadable + b.unreadable⟩⟩

variable (a b c : Tally)

@[simp] theorem bytes_add : (a + b).bytes = a.bytes + b.bytes := rfl

@[simp] theorem files_add : (a + b).files = a.files + b.files := rfl

@[simp] theorem folders_add : (a + b).folders = a.folders + b.folders := rfl

@[simp] theorem unreadable_add : (a + b).unreadable = a.unreadable + b.unreadable := rfl

@[simp] theorem bytes_zero : (0 : Tally).bytes = 0 := rfl

@[simp] theorem files_zero : (0 : Tally).files = 0 := rfl

@[simp] theorem folders_zero : (0 : Tally).folders = 0 := rfl

@[simp] theorem unreadable_zero : (0 : Tally).unreadable = 0 := rfl

instance : AddCommMonoid Tally where
  add_assoc a b c := by ext <;> simp [Nat.add_assoc]
  zero_add a := by ext <;> simp
  add_zero a := by ext <;> simp
  add_comm a b := by ext <;> simp [Nat.add_comm]
  nsmul := nsmulRec

/-- Totals as a walk carries them. -/
def capped (t : Tally) : Tally := { t with bytes := min t.bytes maxBytes }

theorem addFile_capped (n : Nat) : a.capped.addFile n = (a + ⟨n, 1, 0, 0⟩).capped := by
  ext <;> simp only [capped, addFile, bytes_add, files_add, folders_add, unreadable_add, Nat.add_zero]
  omega

theorem addFolder_capped : a.capped.addFolder = (a + ⟨0, 0, 1, 0⟩).capped := by
  ext <;> simp [capped, addFolder]

theorem addUnreadable_capped : a.capped.addUnreadable = (a + ⟨0, 0, 0, 1⟩).capped := by
  ext <;> simp [capped, addUnreadable]

end Tally

mutual

def Sight.total : Sight → Tally
  | .foreign => 0
  | .leaf n => ⟨n, 1, 0, 0⟩
  | .barred _ => ⟨0, 0, 0, 1⟩
  | .folder inside => ⟨0, 0, 1, 0⟩ + inside.total

def Sights.total : Sights → Tally
  | .nil => 0
  | .bad _ rest => rest.total
  | .entry _ sight rest => sight.total + rest.total

end

def Plan.Overruns (P : Plan) : Prop := ∃ k, (P.clock k).add? P.options.interval = none

/-- A course that starts with some totals ends with so much more, unless the clock overran. -/
def Course.Gains (P : Plan) (t : Tally) (c : Course) : Prop :=
  match c.pace with
  | some s => s.tally = t.capped ∧ s.throttle.interval = P.options.interval
  | none => P.Overruns

namespace Course

variable {P : Plan} {t u : Tally} {c : Course}

@[simp] theorem gains_after (l : List Signal) : (c.after l).Gains P t ↔ c.Gains P t := Iff.rfl

theorem Gains.andThen {f : Pace → Course} (h : c.Gains P t)
    (h' : ∀ s, s.tally = t.capped → s.throttle.interval = P.options.interval → (f s).Gains P u) :
    (c.andThen f).Gains P u := by
  rw [Course.andThen]
  cases hp : c.pace with
  | none =>
      rw [Gains] at h ⊢
      simpa only [hp] using h
  | some s =>
      rw [Gains] at h
      rw [hp] at h
      exact h' s h.1 h.2

end Course

variable {P : Plan}

theorem gains_leave {t : Tally} (s : Pace) (ht : s.tally = t.capped)
    (hi : s.throttle.interval = P.options.interval) : (P.leave s).Gains P t := by
  have harm (report : Bool) :
      s.throttle.arm (P.clock s.readings) report = (none, s.throttle) ∧ P.Overruns ∨
      ∃ th, s.throttle.arm (P.clock s.readings) report = (some report, th) ∧
        th.interval = P.options.interval := by
    cases h : (P.clock s.readings).add? s.throttle.interval with
    | none => exact .inl ⟨Throttle.arm_overrun h report, s.readings, hi ▸ h⟩
    | some next => exact .inr ⟨_, Throttle.arm_room h report, hi⟩
  have hready : s.throttle.ready? (P.clock s.readings) = (none, s.throttle) ∧ P.Overruns ∨
      ∃ r th, s.throttle.ready? (P.clock s.readings) = (some r, th) ∧
        th.interval = P.options.interval := by
    cases hnext : s.throttle.next with
    | none =>
        rw [Throttle.ready?_unarmed hnext]
        exact (harm false).imp_right fun ⟨th, h⟩ => ⟨false, th, h⟩
    | some due =>
        by_cases hdue : due ≤ P.clock s.readings
        · rw [Throttle.ready?_due hnext hdue]
          exact (harm true).imp_right fun ⟨th, h⟩ => ⟨true, th, h⟩
        · exact .inr ⟨false, s.throttle, Throttle.ready?_early hnext hdue, hi⟩
  rw [Plan.leave]
  rcases hready with ⟨h, hover⟩ | ⟨r, th, h, hth⟩
  · rw [h]
    exact hover
  · rw [h]
    exact ⟨ht, hth⟩

mutual

theorem gains_sight : ∀ (sight : Sight) {t : Tally} {p : Path} (s : Pace), s.tally = t.capped →
    s.throttle.interval = P.options.interval → (sight.course P p s).Gains P (t + sight.total)
  | .foreign, t, p, s, ht, hi => ⟨by simpa [Sight.total] using ht, hi⟩
  | .leaf n, t, p, s, ht, hi => ⟨by simp [ht, Sight.total, Tally.addFile_capped], hi⟩
  | .barred f, t, p, s, ht, hi => by
      refine (Course.gains_after _).2 (gains_leave _ ?_ hi)
      simp [ht, Sight.total, Tally.addUnreadable_capped]
  | .folder inside, t, p, s, ht, hi => by
      refine (Course.gains_after _).2 (Course.Gains.andThen (t := t + (Sight.folder inside).total) ?_
        fun q hq hqi => gains_leave q hq hqi)
      rw [Sight.total, ← add_assoc]
      exact gains_sights inside _ (by simp [ht, Tally.addFolder_capped]) hi

theorem gains_sights : ∀ (sights : Sights) {t : Tally} {p : Path} (s : Pace), s.tally = t.capped →
    s.throttle.interval = P.options.interval → (sights.course P p s).Gains P (t + sights.total)
  | .nil, t, p, s, ht, hi => ⟨by simpa [Sights.total] using ht, hi⟩
  | .bad f rest, t, p, s, ht, hi => gains_sights rest s ht hi
  | .entry n sight rest, t, p, s, ht, hi => by
      refine (Course.gains_after _).2 ((gains_sight sight s ht hi).andThen ?_)
      intro q hq hqi
      rw [Sights.total, ← add_assoc]
      exact gains_sights rest q hq hqi

end

end TreeTally
