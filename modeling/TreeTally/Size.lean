namespace TreeTally.Size

/-- The whole number nearest to a quotient, and of two that are equally near the even one. -/
def roundHalfEven (num den : Nat) : Nat :=
  let q := num / den
  let r := 2 * (num % den)
  if r < den ∨ (r = den ∧ q % 2 = 0) then q else q + 1

/-- The fraction nearest to a quotient, at least one, whose numerator takes 53 bits. -/
def round53 (num den : Nat) : Nat × Nat :=
  let k := Nat.log2 (num / den)
  if k ≤ 52 then (roundHalfEven (num * Nat.pow 2 (52 - k)) den, Nat.pow 2 (52 - k))
  else (roundHalfEven num (den * Nat.pow 2 (k - 52)) * Nat.pow 2 (k - 52), 1)

/-- The tenths that are shown come by way of binary fractions of 53 bits, first the size and then
the quotient. -/
def tenths (n power : Nat) : Nat :=
  let x := round53 n 1
  let y := round53 x.1 (x.2 * Nat.pow 1000 power)
  roundHalfEven (10 * y.1) y.2

/-- The least size in each unit, with the power of a thousand that the unit stands for. A unit
starts where the logarithm of the size is a whole multiple of 6.931471806, which lies a little above
a power of 1024; kilobytes start at once. -/
def units : List (Nat × Nat × String) :=
  [(1152921507377637248, 6, "EB"), (1125899909097501, 5, "PB"), (1099511629538, 4, "TB"),
   (1073741826, 3, "GB"), (1048577, 2, "MB"), (1000, 1, "KB")]

def text (n : Nat) : String :=
  match units.find? fun u => decide (u.1 ≤ n) with
  | none => toString n ++ " B"
  | some (_, power, name) =>
      let t := tenths n power
      toString (t / 10) ++ "." ++ toString (t % 10) ++ " " ++ name

end TreeTally.Size
