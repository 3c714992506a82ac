import TreeTally.Proofs.Text.Utf8

namespace TreeTally

theorem append_lt_append_iff {α : Type} [LT α] [Std.Irrefl (α := α) (· < ·)] {p x y : List α} :
    p ++ x < p ++ y ↔ x < y := by
  induction p with
  | nil => rfl
  | cons b p ih => simp [ih]

namespace Utf8

variable {c c' : Char} {m n : Nat} {a b : List Char}

theorem ofNat_lt_ofNat (hm : m < 256) (hn : n < 256) : UInt8.ofNat m < UInt8.ofNat n ↔ m < n := by
  rw [ofNat_lt_iff hm, UInt8.toNat_ofNat_of_lt' hn]

theorem ofNat_eq_ofNat (hm : m < 256) (hn : n < 256) : UInt8.ofNat m = UInt8.ofNat n ↔ m = n := by
  rw [← UInt8.toNat_inj, UInt8.toNat_ofNat_of_lt' hm, UInt8.toNat_ofNat_of_lt' hn]

theorem encodeChar_lt (h : c.toNat < c'.toNat) (x y : List UInt8) :
    String.utf8EncodeChar c ++ x < String.utf8EncodeChar c' ++ y := by
  obtain ⟨ds, hds, he⟩ := exists_digits c
  obtain ⟨ds', hds', he'⟩ := exists_digits c'
  rw [he, he']
  cases hds <;> cases hds' <;>
    simp (disch := omega) only [List.map_cons, List.map_nil, List.cons_append, List.nil_append,
      List.cons_lt_cons_iff, ofNat_lt_ofNat, ofNat_eq_ofNat] <;> omega

theorem encoding_lt_iff : encoding a < encoding b ↔ a.map Char.toNat < b.map Char.toNat := by
  induction a generalizing b with
  | nil =>
      cases b with
      | nil => simp [encoding]
      | cons c' b =>
          obtain ⟨d, r, hd⟩ := List.exists_cons_of_ne_nil (String.utf8EncodeChar_ne_nil (c := c'))
          simp [encoding, hd]
  | cons c a ih =>
      cases b with
      | nil => simp [encoding]
      | cons c' b =>
          rw [encoding_cons, encoding_cons, List.map_cons, List.map_cons, List.cons_lt_cons_iff]
          rcases Nat.lt_trichotomy c.toNat c'.toNat with h | h | h
          · exact iff_of_true (encodeChar_lt h _ _) (.inl h)
          · obtain rfl : c = c' := Char.toNat_inj.1 h
            simp [append_lt_append_iff, ih]
          · apply iff_of_false
            · exact List.lt_asymm (encodeChar_lt h _ _)
            · omega

end Utf8

end TreeTally
