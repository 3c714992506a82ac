import TreeTally.Proofs.Text.Decimal
import TreeTally.Text.Json

namespace TreeTally.Json

variable {c : Char} {t r : List Char} {s : Symbol} {ss : List Symbol}

theorem takeWhile_stop (ht : ∀ c ∈ t, c.isDigit = true) (hr : ∀ c ∈ r.head?, c.isDigit = false) :
    (t ++ r).takeWhile Char.isDigit = t ∧ (t ++ r).dropWhile Char.isDigit = r := by
  rw [List.takeWhile_append_of_pos ht, List.dropWhile_append_of_pos ht]
  cases r with
  | nil => simp
  | cons d r =>
      have hd := hr d rfl
      simp [hd]

def EndsNumber (r : List Char) : Prop :=
  ∀ c ∈ r.head?, c.isDigit = false ∧ c ≠ '.' ∧ c ≠ 'e' ∧ c ≠ 'E'

theorem fraction?_none (h : EndsNumber r) : fraction? r = some ([], r) := by
  cases r with
  | nil => rfl
  | cons d r =>
      rw [fraction?]
      intro r' he
      obtain ⟨rfl, -⟩ := List.cons.inj he
      exact (h '.' rfl).2.1 rfl

theorem exponent?_none (h : EndsNumber r) : exponent? r = some (0, r) := by
  cases r with
  | nil => rfl
  | cons d r =>
      obtain ⟨-, -, he, hE⟩ := h d rfl
      simp [exponent?, he, hE]

theorem number?_toDigits (n : Nat) (h : EndsNumber r) :
    number? 1 (Nat.toDigits 10 n ++ r) = some (.number n 0, r) := by
  have hdigits : ∀ c ∈ Nat.toDigits 10 n, c.isDigit = true :=
    fun c hc => Decimal.isDigit_of_mem_toDigits hc
  obtain ⟨htake, hdrop⟩ := takeWhile_stop hdigits fun c hc => (h c hc).1
  have hzero : ¬(Nat.toDigits 10 n = [] ∨
      (Nat.toDigits 10 n).head? = some '0' ∧ Nat.toDigits 10 n ≠ ['0']) := by
    rintro (hnil | ⟨hhead, hne⟩)
    · exact Nat.toDigits_ne_nil hnil
    · obtain rfl := Decimal.eq_zero_of_head? hhead
      exact hne rfl
  rw [number?, htake, hdrop]
  simp only [if_neg hzero, fraction?_none h, exponent?_none h, Option.bind_eq_bind,
    Option.bind_some, List.append_nil, Decimal.digits_toDigits]
  simp

/-- Characters that stand for themselves between quotes. -/
def Plain (t : List Char) : Prop := ∀ c ∈ t, c ≠ '"' ∧ c ≠ '\\' ∧ 0x20 ≤ c.toNat

instance (t : List Char) : Decidable (Plain t) := inferInstanceAs (Decidable (∀ c ∈ t, _))

theorem pieces?_plain (h : Plain t) : pieces? (t ++ '"' :: r) = some (t.map .char, r) := by
  induction t with
  | nil =>
      rw [List.nil_append, pieces?.eq_def]
      rfl
  | cons c t ih =>
      obtain ⟨⟨hquote, hslash, hlow⟩, ht⟩ := List.forall_mem_cons.1 h
      rw [List.cons_append, pieces?.eq_def]
      simp [hquote, hslash, Nat.not_lt.2 hlow, ih ht]

theorem spelled?_chars (t : List Char) : spelled? (t.map .char) = some t := by
  induction t with
  | nil => rfl
  | cons c t ih => simp [spelled?, ih]

theorem symbol?_digit (h : c.isDigit = true) :
    symbol? (c :: r) = (number? 1 (c :: r)).map fun (v, rest) => (.value v, rest) := by
  unfold symbol?
  split
  case h_12 => exact (Option.map_eq_bind ..).symm
  all_goals
    rename_i he
    rw [(List.cons.inj he).1] at h
    exact absurd h (by decide)

theorem symbol?_toDigits (n : Nat) (h : EndsNumber r) :
    symbol? (Nat.toDigits 10 n ++ r) = some (.value (.number n 0), r) := by
  obtain ⟨c, t, ht⟩ := List.exists_cons_of_ne_nil (Nat.toDigits_ne_nil (b := 10) (n := n))
  have hc : c.isDigit = true := Decimal.isDigit_of_mem_toDigits (ht ▸ List.mem_cons_self)
  have hnumber := number?_toDigits n h
  rw [ht, List.cons_append] at hnumber ⊢
  rw [symbol?_digit hc, hnumber, Option.map_some]

theorem symbol?_text (h : Plain t) :
    symbol? ('"' :: (t ++ '"' :: r)) = some (.value (.text (.ofList t)), r) := by
  simp [symbol?, pieces?_plain h, spelled?_chars]

theorem symbol?_flag (b : Bool) :
    symbol? ((if b then "true" else "false").toList ++ r) = some (.value (.flag b), r) := by
  cases b <;> rfl

/-- In front of such a rest the text is cut into such symbols. -/
def Cut (t : List Char) (ss : List Symbol) (r : List Char) : Prop :=
  symbolsAfter 0 (t ++ r) = (symbolsAfter 0 r).map (ss ++ ·)

theorem symbolsAfter_append (t r : List Char) :
    symbolsAfter t.length (t ++ r) = symbolsAfter 0 r := by
  induction t with
  | nil => rfl
  | cons c t ih =>
      rw [List.cons_append, List.length_cons, symbolsAfter]
      exact ih

theorem Cut.append {t' : List Char} {ss' : List Symbol} (h : Cut t ss (t' ++ r))
    (h' : Cut t' ss' r) : Cut (t ++ t') (ss ++ ss') r := by
  rw [Cut] at h h' ⊢
  rw [List.append_assoc, h, h', Option.map_map]
  apply congrArg (Option.map · _)
  funext l
  simp

theorem cut_blank (h : isBlank c = true) (r : List Char) : Cut [c] [] r := by
  simp [Cut, symbolsAfter, h]

theorem cut_symbol (ht : t ≠ []) (hblank : ∀ c ∈ t.head?, isBlank c = false)
    (h : symbol? (t ++ r) = some (s, r)) : Cut t [s] r := by
  obtain ⟨c, t, rfl⟩ := List.exists_cons_of_ne_nil ht
  have hc := hblank c rfl
  rw [List.cons_append] at h
  rw [Cut, List.cons_append, symbolsAfter, hc, h]
  simp [symbolsAfter_append]

theorem isBlank_of_isDigit (h : c.isDigit = true) : isBlank c = false := by
  cases hblank : isBlank c with
  | false => rfl
  | true =>
      simp only [isBlank, Bool.or_eq_true, beq_iff_eq] at hblank
      rcases hblank with ((rfl | rfl) | rfl) | rfl <;> cases h

theorem cut_toDigits (n : Nat) (h : EndsNumber r) :
    Cut (Nat.toDigits 10 n) [.value (.number n 0)] r := by
  apply cut_symbol Nat.toDigits_ne_nil
  · intro c hc
    exact isBlank_of_isDigit (Decimal.isDigit_of_mem_toDigits (List.mem_of_mem_head? hc))
  · exact symbol?_toDigits n h

theorem cut_text (h : Plain t) (r : List Char) :
    Cut ('"' :: (t ++ ['"'])) [.value (.text (.ofList t))] r := by
  apply cut_symbol
  · simp
  · simp [isBlank]
  · simpa using symbol?_text h

theorem cut_flag (b : Bool) (r : List Char) :
    Cut (if b then "true" else "false").toList [.value (.flag b)] r := by
  apply cut_symbol
  · cases b <;> simp
  · cases b <;> simp [isBlank]
  · exact symbol?_flag b

end TreeTally.Json
