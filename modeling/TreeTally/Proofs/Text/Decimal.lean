import Mathlib.Data.List.Induction
import Mathlib.Data.Nat.Digits.Defs
import TreeTally.Text.Decimal

namespace TreeTally.Decimal

/-- The text writes the number, by its digits from the highest down. -/
def Writes (s : String) (n : Nat) : Prop :=
  ∃ sign ds, (sign = [] ∨ sign = ['+']) ∧ ds ≠ [] ∧ (∀ d ∈ ds, d < 10) ∧
    s.toList = sign ++ ds.map Nat.digitChar ∧ n = Nat.ofDigits 10 ds.reverse ∧ n < wordLimit

theorem digitChar_facts {d : Nat} (h : d < 10) : d.digitChar.isDigit = true ∧
    d.digitChar.toNat - '0'.toNat = d ∧ d.digitChar ≠ '+' := by
  revert d
  decide

theorem digits_snoc (l : List Char) (c : Char) :
    digits (l ++ [c]) = 10 * digits l + (c.toNat - '0'.toNat) := by
  rw [digits, List.foldl_append]
  rfl

theorem digits_map {ds : List Nat} (h : ∀ d ∈ ds, d < 10) :
    digits (ds.map Nat.digitChar) = Nat.ofDigits 10 ds.reverse := by
  induction ds using List.reverseRecOn with
  | nil => rfl
  | append_singleton ds d ih =>
      have hd := (digitChar_facts (h d (by simp))).2.1
      rw [List.map_append, List.map_singleton, digits_snoc, hd,
        ih fun x hx => h x (List.mem_append_left _ hx), List.reverse_append, List.reverse_singleton,
        List.singleton_append, Nat.ofDigits_cons, Nat.add_comm]

theorem exists_map_digitChar {l : List Char} (h : l.all Char.isDigit = true) :
    ∃ ds : List Nat, (∀ d ∈ ds, d < 10) ∧ l = ds.map Nat.digitChar := by
  induction l with
  | nil => exact ⟨[], nofun, rfl⟩
  | cons c l ih =>
      rw [List.all_cons, Bool.and_eq_true] at h
      obtain ⟨ds, hds, rfl⟩ := ih h.2
      have hc : 48 ≤ c.toNat ∧ c.toNat ≤ 57 := by
        have hdigit := h.1
        rw [Char.isDigit, Bool.and_eq_true, decide_eq_true_eq, decide_eq_true_eq] at hdigit
        exact hdigit
      have hlt : c.toNat - 48 < 10 := by omega
      have hchar (d : Nat) (hd : d < 10) : d.digitChar = Char.ofNat (d + 48) := by
        revert d
        decide
      refine ⟨(c.toNat - 48) :: ds, ?_, ?_⟩
      · intro d hd
        rcases List.mem_cons.1 hd with rfl | hd
        · exact hlt
        · exact hds d hd
      · rw [List.map_cons, hchar _ hlt, Nat.sub_add_cancel hc.1, Char.ofNat_toNat]

theorem unsigned_cases (l : List Char) :
    unsigned l = l ∧ l.head? ≠ some '+' ∨ l = '+' :: unsigned l := by
  cases l with
  | nil => exact .inl ⟨rfl, nofun⟩
  | cons c l =>
      by_cases hc : c = '+'
      · subst hc
        exact .inr rfl
      · refine .inl ⟨?_, by simpa using hc⟩
        rw [unsigned]
        intro r hr
        exact hc (List.cons.inj hr).1

theorem unsigned_writes {sign : List Char} {ds : List Nat} (hsign : sign = [] ∨ sign = ['+'])
    (hne : ds ≠ []) (hds : ∀ d ∈ ds, d < 10) :
    unsigned (sign ++ ds.map Nat.digitChar) = ds.map Nat.digitChar := by
  rcases hsign with rfl | rfl
  · cases ds with
    | nil => exact absurd rfl hne
    | cons d ds =>
        have hplus := (digitChar_facts (hds d List.mem_cons_self)).2.2
        rw [List.nil_append, List.map_cons, unsigned]
        intro r hr
        exact hplus (List.cons.inj hr).1
  · rfl

theorem parse?_eq_some_iff {s : String} {n : Nat} : parse? s = some n ↔ Writes s n := by
  rw [parse?]
  constructor
  · intro h
    split at h
    · rename_i hread
      obtain ⟨hne, hall, hlt⟩ := hread
      obtain rfl := Option.some.inj h
      obtain ⟨ds, hds, hl⟩ := exists_map_digitChar hall
      have hne' : ds ≠ [] := by
        rintro rfl
        exact hne hl
      have hvalue : digits (unsigned s.toList) = Nat.ofDigits 10 ds.reverse := by
        rw [hl, digits_map hds]
      rcases unsigned_cases s.toList with ⟨hsame, -⟩ | hplus
      · exact ⟨[], ds, .inl rfl, hne', hds, hsame.symm.trans hl, hvalue, hlt⟩
      · exact ⟨['+'], ds, .inr rfl, hne', hds, hplus.trans (congrArg ('+' :: ·) hl), hvalue, hlt⟩
    · cases h
  · rintro ⟨sign, ds, hsign, hne, hds, hs, rfl, hlt⟩
    have hdigits : (ds.map Nat.digitChar).all Char.isDigit = true := by
      rw [List.all_map, List.all_eq_true]
      exact fun d hd => (digitChar_facts (hds d hd)).1
    have hmap : ds.map Nat.digitChar ≠ [] := fun h => hne (List.map_eq_nil_iff.1 h)
    rw [hs, unsigned_writes hsign hne hds, digits_map hds, if_pos ⟨hmap, hdigits, hlt⟩]

theorem Writes.unique {s : String} {m n : Nat} (h : Writes s m) (h' : Writes s n) : m = n :=
  Option.some.inj ((parse?_eq_some_iff.2 h).symm.trans (parse?_eq_some_iff.2 h'))

theorem parse?_eq_none_iff {s : String} : parse? s = none ↔ ∀ n, ¬ Writes s n := by
  rw [Option.eq_none_iff_forall_ne_some]
  exact forall_congr' fun n => not_congr parse?_eq_some_iff

theorem isDigit_of_mem_toDigits {n : Nat} {c : Char} (h : c ∈ Nat.toDigits 10 n) :
    c.isDigit = true :=
  Nat.isDigit_of_mem_toDigits (by decide) (by decide) h

theorem digits_toDigits (n : Nat) : digits (Nat.toDigits 10 n) = n :=
  Nat.ofDigitChars_ten_toDigits

theorem toDigits_inj {m n : Nat} (h : Nat.toDigits 10 m = Nat.toDigits 10 n) : m = n := by
  have hdigits := congrArg digits h
  rwa [digits_toDigits, digits_toDigits] at hdigits

theorem eq_zero_of_head? {n : Nat} (h : (Nat.toDigits 10 n).head? = some '0') : n = 0 := by
  induction n using Nat.strongRecOn with
  | _ n ih =>
      rw [Nat.toDigits_eq_if (by decide)] at h
      split at h
      · rename_i hn
        clear ih
        revert n
        decide
      · rename_i hn
        obtain ⟨c, t, ht⟩ := List.exists_cons_of_ne_nil (Nat.toDigits_ne_nil (b := 10) (n := n / 10))
        have hzero := ih (n / 10) (by omega) (by simpa [ht] using h)
        omega

end TreeTally.Decimal
