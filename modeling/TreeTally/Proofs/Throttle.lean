import TreeTally.Throttle

namespace TreeTally

/-- There is room for the interval behind every reading of the clock. -/
def Roomy (clock : Nat → Instant) (d : Duration) : Prop := ∀ k, (clock k).add? d ≠ none

namespace Throttle

variable {α : Type} {clock : Nat → Instant} {t : Throttle} {now : Instant} {k m n : Nat} {l : List α}

theorem arm_room {next : Instant} (h : now.add? t.interval = some next) (report : Bool) :
    t.arm now report = (some report, { t with next := some next }) := by
  rw [arm, h]

theorem arm_overrun (h : now.add? t.interval = none) (report : Bool) :
    t.arm now report = (none, t) := by
  rw [arm, h]

theorem ready?_unarmed (h : t.next = none) : t.ready? now = t.arm now false := by
  rw [ready?, h]

theorem ready?_due {due : Instant} (h : t.next = some due) (hdue : due ≤ now) :
    t.ready? now = t.arm now true := by
  rw [ready?, h]
  exact if_pos hdue

theorem ready?_early {due : Instant} (h : t.next = some due) (hdue : ¬due ≤ now) :
    t.ready? now = (some false, t) := by
  rw [ready?, h]
  exact if_neg hdue

/-- Of some items, those at which the throttle agrees when it is asked at each in turn, the first
time at reading number `n` of the clock. -/
def passes (clock : Nat → Instant) : Throttle → Nat → List α → List α
  | _, _, [] => []
  | t, n, a :: l => match t.ready? (clock n) with
    | (none, _) => []
    | (some report, t) => (if report then [a] else []) ++ passes clock t (n + 1) l

theorem passes_sublist : (t.passes clock n l).Sublist l := by
  induction l generalizing t n with
  | nil => exact .slnil
  | cons a l ih =>
      rw [passes]
      obtain ⟨answer, t'⟩ := t.ready? (clock n)
      cases answer with
      | none => exact List.nil_sublist _
      | some report =>
          cases report with
          | true => exact ih.cons_cons a
          | false => exact ih.cons a

theorem passes_unarmed (h : t.next = none) : (t.passes clock n l).Sublist l.tail := by
  cases l with
  | nil => exact .slnil
  | cons a l =>
      rw [passes, ready?_unarmed h]
      cases hadd : (clock n).add? t.interval with
      | none =>
          rw [arm_overrun hadd]
          exact List.nil_sublist _
      | some next =>
          rw [arm_room hadd]
          exact passes_sublist

/-- The throttle after so many questions, the first of them at reading number `n` of the clock. There
is none if one of them finds no room for the interval. -/
def asked (clock : Nat → Instant) : Throttle → Nat → Nat → Option Throttle
  | t, _, 0 => some t
  | t, n, k + 1 => match t.ready? (clock n) with
    | (none, _) => none
    | (some _, t) => asked clock t (n + 1) k

theorem asked_add : t.asked clock n (k + m) =
    (t.asked clock n k).bind fun t' => t'.asked clock (n + k) m := by
  induction k generalizing t n with
  | zero =>
      rw [Nat.zero_add]
      rfl
  | succ k ih =>
      rw [Nat.succ_add, asked, asked]
      obtain ⟨answer, t'⟩ := t.ready? (clock n)
      cases answer with
      | none => rfl
      | some report =>
          rw [Nat.add_succ n k, ← Nat.succ_add]
          exact ih

theorem asked_of_le (h : t.asked clock n m ≠ none) (hk : k ≤ m) : t.asked clock n k ≠ none := by
  obtain ⟨l, rfl⟩ := Nat.exists_eq_add_of_le hk
  intro hnone
  rw [asked_add, hnone] at h
  exact h rfl

theorem passes_append {l' : List α} : t.passes clock n (l ++ l') = t.passes clock n l ++
    (t.asked clock n l.length).elim [] fun t' => t'.passes clock (n + l.length) l' := by
  induction l generalizing t n with
  | nil => rfl
  | cons a l ih =>
      rw [List.cons_append, passes, passes, List.length_cons, asked]
      obtain ⟨answer, t'⟩ := t.ready? (clock n)
      cases answer with
      | none => rfl
      | some report =>
          rw [List.append_assoc, Nat.add_succ n l.length, ← Nat.succ_add]
          exact congrArg _ ih

theorem exists_add (h : Roomy clock t.interval) (n : Nat) :
    ∃ next, (clock n).add? t.interval = some next := Option.ne_none_iff_exists'.1 (h n)

theorem exists_ready (h : Roomy clock t.interval) (n : Nat) :
    ∃ report t', t.ready? (clock n) = (some report, t') ∧ t'.interval = t.interval := by
  obtain ⟨next, hadd⟩ := exists_add h n
  cases hnext : t.next with
  | none => exact ⟨false, _, (ready?_unarmed hnext).trans (arm_room hadd _), rfl⟩
  | some due =>
      by_cases hdue : due ≤ clock n
      · exact ⟨true, _, (ready?_due hnext hdue).trans (arm_room hadd _), rfl⟩
      · exact ⟨false, t, ready?_early hnext hdue, rfl⟩

theorem exists_asked (h : Roomy clock t.interval) (n k : Nat) :
    ∃ t', t.asked clock n k = some t' := by
  induction k generalizing t n with
  | zero => exact ⟨t, rfl⟩
  | succ k ih =>
      obtain ⟨report, t', hready, hsame⟩ := exists_ready h n
      rw [asked, hready]
      exact ih (hsame ▸ h) (n + 1)

section

variable (hzero : t.interval = ⟨0⟩) (hroom : Roomy clock ⟨0⟩) (hmono : ∀ k, clock k ≤ clock (k + 1))

include hzero hroom hmono

theorem exists_arm_at_once (n : Nat) : ∃ next, next ≤ clock (n + 1) ∧
    ∀ report, t.arm (clock n) report = (some report, { t with next := some next }) := by
  obtain ⟨next, hadd⟩ := exists_add (hzero ▸ hroom) n
  refine ⟨next, ?_, arm_room hadd⟩
  rw [hzero, Instant.add?] at hadd
  split at hadd
  · cases hadd
    have hn : (clock n).nanos ≤ (clock (n + 1)).nanos := hmono n
    show (clock n).nanos + ((0 : Nat) : Int) ≤ (clock (n + 1)).nanos
    omega
  · cases hadd

theorem passes_due {due : Instant} (hnext : t.next = some due) (hdue : due ≤ clock n) :
    t.passes clock n l = l := by
  induction l generalizing t n due with
  | nil => rfl
  | cons a l ih =>
      obtain ⟨next, hle, harm⟩ := exists_arm_at_once hzero hroom hmono n
      rw [passes, ready?_due hnext hdue, harm]
      exact congrArg (a :: ·) (ih (t := { t with next := some next }) hzero rfl hle)

theorem passes_at_once (hnext : t.next = none) : t.passes clock n l = l.tail := by
  cases l with
  | nil => rfl
  | cons a l =>
      obtain ⟨next, hle, harm⟩ := exists_arm_at_once hzero hroom hmono n
      rw [passes, ready?_unarmed hnext, harm]
      exact passes_due (t := { t with next := some next }) hzero hroom hmono rfl hle

end

end Throttle

end TreeTally
