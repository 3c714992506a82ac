import TreeTally.Text.Utf8

namespace TreeTally.Utf8

def encoding (l : List Char) : List UInt8 := l.flatMap String.utf8EncodeChar

theorem encoding_cons (c : Char) (l : List Char) :
    encoding (c :: l) = String.utf8EncodeChar c ++ encoding l := rfl

variable {a b : UInt8} {c : Char} {x j k least v : Nat} {r bytes : List UInt8} {l : List Char}

theorem ofNat_lt_iff (h : v < 256) : UInt8.ofNat v < b ↔ v < b.toNat := by
  rw [UInt8.lt_iff_toNat_lt, UInt8.toNat_ofNat_of_lt' h]

theorem charAbove?_eq_some : charAbove? least v = some c ↔ least ≤ v ∧ v = c.toNat := by
  rw [charAbove?]
  by_cases h : least ≤ v ∧ v.isValidChar
  · rw [dif_pos h, Option.some.injEq]
    constructor
    · rintro rfl
      exact ⟨h.1, rfl⟩
    · rintro ⟨-, rfl⟩
      rfl
  · rw [dif_neg h]
    refine iff_of_false nofun ?_
    rintro ⟨hle, rfl⟩
    exact h ⟨hle, c.valid⟩

theorem continuation?_eq_some : continuation? b = some k ↔ k < 64 ∧ b = UInt8.ofNat (k + 0x80) := by
  have hbyte (n : Nat) (h : n < 64) : (UInt8.ofNat (n + 0x80)).toNat = n + 0x80 :=
    UInt8.toNat_ofNat_of_lt' (show n + 0x80 < 256 by omega)
  rw [← UInt8.toNat_inj]
  simp only [continuation?, UInt8.le_iff_toNat_le, UInt8.lt_iff_toNat_lt, UInt8.reduceToNat]
  split
  · rw [Option.some.injEq]
    constructor
    · rintro rfl
      rw [hbyte] <;> omega
    · rintro ⟨h, hb⟩
      rw [hbyte k h] at hb
      omega
  · refine iff_of_false nofun ?_
    rintro ⟨h, hb⟩
    rw [hbyte k h] at hb
    omega

theorem decode?_one (h : v < 0x80) :
    decode? (UInt8.ofNat v :: r) = (decode? r).map (Char.ofNat v :: ·) := by
  rw [decode?.eq_def]
  simp only [ofNat_lt_iff (show v < 256 by omega), UInt8.reduceToNat, h, if_true,
    UInt8.toNat_ofNat_of_lt' (show v < 256 by omega)]

theorem decode?_two (h : x < 0x20) :
    decode? (UInt8.ofNat (x + 0xc0) :: b :: r) = do
      let c ← charAbove? 0x80 (x * 64 + (← continuation? b))
      return c :: (← decode? r) := by
  have hx : x + 0xc0 < 256 := by omega
  rw [decode?.eq_def]
  simp only [ofNat_lt_iff hx, UInt8.reduceToNat, UInt8.toNat_ofNat_of_lt' hx, Nat.add_sub_cancel]
  rw [if_neg (by omega), if_neg (by omega), if_pos (by omega)]

theorem decode?_three {b' : UInt8} (h : x < 0x10) :
    decode? (UInt8.ofNat (x + 0xe0) :: b :: b' :: r) = do
      let c ← charAbove? 0x800 ((x * 64 + (← continuation? b)) * 64 + (← continuation? b'))
      return c :: (← decode? r) := by
  have hx : x + 0xe0 < 256 := by omega
  rw [decode?.eq_def]
  simp only [ofNat_lt_iff hx, UInt8.reduceToNat, UInt8.toNat_ofNat_of_lt' hx, Nat.add_sub_cancel]
  rw [if_neg (by omega), if_neg (by omega), if_neg (by omega), if_pos (by omega)]

theorem decode?_four {b' b'' : UInt8} (h : x < 0x08) :
    decode? (UInt8.ofNat (x + 0xf0) :: b :: b' :: b'' :: r) = do
      let c ← charAbove? 0x10000
        (((x * 64 + (← continuation? b)) * 64 + (← continuation? b')) * 64 + (← continuation? b''))
      return c :: (← decode? r) := by
  have hx : x + 0xf0 < 256 := by omega
  rw [decode?.eq_def]
  simp only [ofNat_lt_iff hx, UInt8.reduceToNat, UInt8.toNat_ofNat_of_lt' hx, Nat.add_sub_cancel]
  rw [if_neg (by omega), if_neg (by omega), if_neg (by omega), if_neg (by omega), if_pos (by omega)]

theorem toNat_lt (c : Char) : c.toNat < 0x110000 := by
  have h : c.toNat.isValidChar := c.valid
  rw [Nat.isValidChar] at h
  omega

theorem encodeChar_one (h : c.toNat < 0x80) : String.utf8EncodeChar c = [UInt8.ofNat c.toNat] := by
  rw [String.utf8EncodeChar, if_pos (by exact Nat.le_of_lt_succ h)]
  rfl

theorem encodeChar_two (hc : x * 64 + k = c.toNat) (hk : k < 64) (hx : x < 0x20)
    (h : 0x80 ≤ c.toNat) :
    String.utf8EncodeChar c = [UInt8.ofNat (x + 0xc0), UInt8.ofNat (k + 0x80)] := by
  simp only [String.utf8EncodeChar, show c.val.toNat = c.toNat from rfl, ← hc] at h ⊢
  rw [if_neg (by omega), if_pos (by omega), show (x * 64 + k) / 64 % 32 = x by omega,
    show (x * 64 + k) % 64 = k by omega]

theorem encodeChar_three (hc : (x * 64 + j) * 64 + k = c.toNat) (hj : j < 64) (hk : k < 64)
    (hx : x < 0x10) (h : 0x800 ≤ c.toNat) :
    String.utf8EncodeChar c =
      [UInt8.ofNat (x + 0xe0), UInt8.ofNat (j + 0x80), UInt8.ofNat (k + 0x80)] := by
  simp only [String.utf8EncodeChar, show c.val.toNat = c.toNat from rfl, ← hc] at h ⊢
  rw [if_neg (by omega), if_neg (by omega), if_pos (by omega)]
  congr <;> omega

theorem encodeChar_four {i : Nat} (hc : ((x * 64 + i) * 64 + j) * 64 + k = c.toNat) (hi : i < 64)
    (hj : j < 64) (hk : k < 64) (h : 0x10000 ≤ c.toNat) :
    String.utf8EncodeChar c = [UInt8.ofNat (x + 0xf0), UInt8.ofNat (i + 0x80),
      UInt8.ofNat (j + 0x80), UInt8.ofNat (k + 0x80)] := by
  have hlimit := toNat_lt c
  simp only [String.utf8EncodeChar, show c.val.toNat = c.toNat from rfl, ← hc] at h hlimit ⊢
  rw [if_neg (by omega), if_neg (by omega), if_neg (by omega)]
  congr <;> omega

/-- The digits of a character in its encoding, as many as it needs. -/
inductive Digits (c : Char) : List Nat → Prop
  | one (h : c.toNat < 0x80) : Digits c [c.toNat]
  | two (x k : Nat) (hc : x * 64 + k = c.toNat) (hk : k < 64) (hx : x < 0x20) (h : 0x80 ≤ c.toNat) :
      Digits c [x + 0xc0, k + 0x80]
  | three (x j k : Nat) (hc : (x * 64 + j) * 64 + k = c.toNat) (hj : j < 64) (hk : k < 64)
      (hx : x < 0x10) (h : 0x800 ≤ c.toNat) : Digits c [x + 0xe0, j + 0x80, k + 0x80]
  | four (x i j k : Nat) (hc : ((x * 64 + i) * 64 + j) * 64 + k = c.toNat) (hi : i < 64) (hj : j < 64)
      (hk : k < 64) (hx : x < 0x08) (h : 0x10000 ≤ c.toNat) :
      Digits c [x + 0xf0, i + 0x80, j + 0x80, k + 0x80]

theorem exists_digits (c : Char) : ∃ ds, Digits c ds ∧ String.utf8EncodeChar c = ds.map UInt8.ofNat := by
  have hlimit := toNat_lt c
  have hmod (n : Nat) : n % 64 < 64 := Nat.mod_lt _ (by decide)
  by_cases h1 : c.toNat < 0x80
  · exact ⟨_, .one h1, encodeChar_one h1⟩
  by_cases h2 : c.toNat < 0x800
  · have hc : c.toNat / 64 * 64 + c.toNat % 64 = c.toNat := by omega
    have hx : c.toNat / 64 < 0x20 := by omega
    exact ⟨_, .two _ _ hc (hmod _) hx (by omega), encodeChar_two hc (hmod _) hx (by omega)⟩
  by_cases h3 : c.toNat < 0x10000
  · have hc : (c.toNat / 4096 * 64 + c.toNat / 64 % 64) * 64 + c.toNat % 64 = c.toNat := by omega
    have hx : c.toNat / 4096 < 0x10 := by omega
    exact ⟨_, .three _ _ _ hc (hmod _) (hmod _) hx (by omega),
      encodeChar_three hc (hmod _) (hmod _) hx (by omega)⟩
  · have hc : ((c.toNat / 262144 * 64 + c.toNat / 4096 % 64) * 64 + c.toNat / 64 % 64) * 64
        + c.toNat % 64 = c.toNat := by omega
    have hx : c.toNat / 262144 < 0x08 := by omega
    exact ⟨_, .four _ _ _ _ hc (hmod _) (hmod _) (hmod _) hx (by omega),
      encodeChar_four hc (hmod _) (hmod _) (hmod _) (by omega)⟩

theorem lead {n m : Nat} (hlow : ¬ a < UInt8.ofNat n) (hhigh : a < UInt8.ofNat m) (hn : n < 256)
    (hm : m < 256) : a.toNat - n < m - n ∧ UInt8.ofNat (a.toNat - n + n) = a := by
  rw [UInt8.lt_iff_toNat_lt, UInt8.toNat_ofNat_of_lt' hn] at hlow
  rw [UInt8.lt_iff_toNat_lt, UInt8.toNat_ofNat_of_lt' hm] at hhigh
  rw [Nat.sub_add_cancel (by omega)]
  exact ⟨by omega, UInt8.ofNat_toNat⟩

theorem encoding_of_decode? (h : decode? bytes = some l) : encoding l = bytes := by
  fun_induction decode? bytes generalizing l with
  | case1 =>
      cases h
      rfl
  | case2 a r ha ih =>
      obtain ⟨l', hl', rfl⟩ := Option.map_eq_some_iff.1 h
      have ha : a.toNat < 0x80 := UInt8.lt_iff_toNat_lt.1 ha
      have hone : (Char.ofNat a.toNat).toNat = a.toNat := by
        rw [Char.ofNat, dif_pos (Or.inl (by omega))]
        rfl
      rw [encoding_cons, encodeChar_one (by omega), hone, UInt8.ofNat_toNat, ih hl']
      rfl
  | case4 a _ hlow hhigh b r ih =>
      simp only [Option.bind_eq_bind, Option.bind_eq_some_iff, Option.pure_def, Option.some.injEq,
        continuation?_eq_some, charAbove?_eq_some] at h
      obtain ⟨k, ⟨hk, rfl⟩, c, ⟨hleast, hc⟩, l', hl', rfl⟩ := h
      obtain ⟨hx, ha⟩ := lead hlow hhigh (by decide) (by decide)
      rw [encoding_cons, encodeChar_two hc hk hx (hc ▸ hleast), ha, ih hl']
      rfl
  | case6 a _ _ hlow hhigh b b' r ih =>
      simp only [Option.bind_eq_bind, Option.bind_eq_some_iff, Option.pure_def, Option.some.injEq,
        continuation?_eq_some, charAbove?_eq_some] at h
      obtain ⟨j, ⟨hj, rfl⟩, k, ⟨hk, rfl⟩, c, ⟨hleast, hc⟩, l', hl', rfl⟩ := h
      obtain ⟨hx, ha⟩ := lead hlow hhigh (by decide) (by decide)
      rw [encoding_cons, encodeChar_three hc hj hk hx (hc ▸ hleast), ha, ih hl']
      rfl
  | case8 a _ _ _ hlow hhigh b b' b'' r ih =>
      simp only [Option.bind_eq_bind, Option.bind_eq_some_iff, Option.pure_def, Option.some.injEq,
        continuation?_eq_some, charAbove?_eq_some] at h
      obtain ⟨i, ⟨hi, rfl⟩, j, ⟨hj, rfl⟩, k, ⟨hk, rfl⟩, c, ⟨hleast, hc⟩, l', hl', rfl⟩ := h
      obtain ⟨-, ha⟩ := lead hlow hhigh (by decide) (by decide)
      rw [encoding_cons, encodeChar_four hc hi hj hk (hc ▸ hleast), ha, ih hl']
      rfl
  | case3 | case5 | case7 | case9 | case10 => exact nomatch h

theorem continuation?_ofNat (h : k < 64) : continuation? (UInt8.ofNat (k + 0x80)) = some k :=
  continuation?_eq_some.2 ⟨h, rfl⟩

theorem charAbove?_toNat (h : least ≤ c.toNat) : charAbove? least c.toNat = some c :=
  charAbove?_eq_some.2 ⟨h, rfl⟩

theorem decode?_encodeChar_append (c : Char) (r : List UInt8) :
    decode? (String.utf8EncodeChar c ++ r) = (decode? r).map (c :: ·) := by
  obtain ⟨ds, hds, he⟩ := exists_digits c
  rw [he]
  cases hds with
  | one h => rw [List.map_singleton, List.singleton_append, decode?_one h, Char.ofNat_toNat]
  | two x k hc hk hx h =>
      simp only [List.map_cons, List.map_nil, List.cons_append, List.nil_append, decode?_two hx,
        continuation?_ofNat hk, hc, Option.bind_eq_bind, Option.bind_some, charAbove?_toNat h]
      exact (Option.map_eq_bind ..).symm
  | three x j k hc hj hk hx h =>
      simp only [List.map_cons, List.map_nil, List.cons_append, List.nil_append, decode?_three hx,
        continuation?_ofNat hj, continuation?_ofNat hk, hc, Option.bind_eq_bind, Option.bind_some,
        charAbove?_toNat h]
      exact (Option.map_eq_bind ..).symm
  | four x i j k hc hi hj hk hx h =>
      simp only [List.map_cons, List.map_nil, List.cons_append, List.nil_append, decode?_four hx,
        continuation?_ofNat hi, continuation?_ofNat hj, continuation?_ofNat hk, hc,
        Option.bind_eq_bind, Option.bind_some, charAbove?_toNat h]
      exact (Option.map_eq_bind ..).symm

theorem decode?_eq_some_iff : decode? bytes = some l ↔ encoding l = bytes := by
  refine ⟨encoding_of_decode?, ?_⟩
  rintro rfl
  induction l with
  | nil => rfl
  | cons c l ih => rw [encoding_cons, decode?_encodeChar_append, ih, Option.map_some]

/-- An overlong form, a surrogate and a value past the last character. -/
example : decode? [0xc0, 0x80] = none ∧ decode? [0xed, 0xa0, 0x80] = none ∧
    decode? [0xf4, 0x90, 0x80, 0x80] = none := by decide

end TreeTally.Utf8
