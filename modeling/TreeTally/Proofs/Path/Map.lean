import Mathlib.Data.List.Forall2
import Mathlib.Data.List.Nodup
import TreeTally.Path.Map

namespace TreeTally.Path

open List (Forall₂)

theorem same_congr {p q k k' : Path} (h : p.Same q) (hk : k.Same k') : p.Same k ↔ q.Same k' :=
  ⟨fun hp => h.symm.trans (hp.trans hk), fun hq => h.trans (hq.trans hk.symm)⟩

theorem map_fst_store {α : Type} {p : Path} {a : α} {l : List (Path × α)} (hl : Ordered l)
    (h : ∃ e ∈ l, p.Same e.1) : (store p a l).map Prod.fst = l.map Prod.fst := by
  induction l with
  | nil => simp at h
  | cons x r ih =>
      obtain ⟨k, b⟩ := x
      obtain ⟨hk, hr⟩ := List.pairwise_cons.1 hl
      rw [store]
      split
      · rfl
      · rename_i hne
        have hrest : ∃ e ∈ r, p.Same e.1 := by simpa [hne] using h
        obtain ⟨e, he, hsame⟩ := hrest
        have hlt : k.key < p.key := same_iff_key.1 hsame ▸ hk e he
        rw [if_neg fun hgt => List.lt_irrefl _ (List.lt_trans hlt hgt), List.map_cons, List.map_cons,
          ih hr ⟨e, he, hsame⟩]

namespace Map

variable {α : Type} (m : Map α) {p q : Path} {a : α}

theorem find?_congr (h : p.Same q) : m.find? p = m.find? q := by
  have hs (k : Path) : p.Same k ↔ q.Same k := same_congr h rfl
  simp [find?, seek, hs]

theorem contains_congr (h : p.Same q) : m.contains p = m.contains q := by
  rw [contains, contains, m.find?_congr h]

theorem contains_insert : (m.insert p a).contains q = (decide (q.Same p) || m.contains q) := by
  rw [contains, find?_insert, contains]
  split <;> simp [*]

theorem contains_insertNew : (m.insertNew p a).contains q = (decide (q.Same p) || m.contains q) := by
  rw [insertNew]
  split
  · rename_i h
    by_cases hq : q.Same p
    · simp [hq, m.contains_congr hq, h]
    · simp [hq]
  · exact m.contains_insert

theorem find?_insertNew : (m.insertNew p a).find? q =
    if q.Same p then some ((m.find? q).getD a) else m.find? q := by
  rw [insertNew]
  split
  · rename_i h
    split
    · rename_i hs
      obtain ⟨b, hb⟩ := Option.isSome_iff_exists.1 ((m.contains_congr hs).trans h)
      rw [hb]
      rfl
    · rfl
  · rename_i h
    rw [find?_insert]
    split
    · rename_i hs
      have hnone : m.find? q = none := by
        rw [m.find?_congr hs]
        exact Option.not_isSome_iff_eq_none.1 h
      rw [hnone]
      rfl
    · rfl

theorem find?_foldl_insertNew (l : List Path) : (l.foldl (·.insertNew · a) m).find? q =
    if ∃ k ∈ l, q.Same k then some ((m.find? q).getD a) else m.find? q := by
  induction l generalizing m with
  | nil => simp
  | cons k l ih =>
      rw [List.foldl_cons, ih, find?_insertNew]
      by_cases hk : q.Same k
      · simp [hk]
      · simp [hk]

theorem find?_modify (f : α → α) : (m.modify p f).find? q =
    if q.Same p then (m.find? q).map f else m.find? q := by
  rw [modify]
  split
  · rename_i b hb
    rw [find?_insert]
    split
    · rename_i hs
      rw [m.find?_congr hs, hb]
      rfl
    · rfl
  · rename_i hb
    split
    · rename_i hs
      rw [m.find?_congr hs, hb]
      rfl
    · rfl

theorem contains_modify (f : α → α) : (m.modify p f).contains q = m.contains q := by
  rw [contains, find?_modify, contains]
  split <;> simp

theorem contains_foldl_insertNew (l : List Path) :
    (l.foldl (·.insertNew · a) m).contains q = true ↔
      (∃ k ∈ l, q.Same k) ∨ m.contains q = true := by
  induction l generalizing m with
  | nil => simp
  | cons k l ih => simp [ih, contains_insertNew, or_assoc, or_left_comm]

theorem contains_iff : m.contains p = true ↔ ∃ k ∈ m.keys, p.Same k := by
  simp [contains, find?, seek, keys]

theorem keys_modify (f : α → α) : (m.modify p f).keys = m.keys := by
  rw [modify]
  split
  · rename_i b hb
    have hmem : m.contains p = true := by rw [contains, hb]; rfl
    obtain ⟨k, hk, hsame⟩ := m.contains_iff.1 hmem
    obtain ⟨e, he, rfl⟩ := List.mem_map.1 hk
    exact map_fst_store m.ordered ⟨e, he, hsame⟩
  · rfl

theorem nodup_map_key : (m.keys.map Path.key).Nodup := by
  have h : m.keys.Pairwise fun a b => a.key < b.key := List.pairwise_map.2 m.ordered
  apply List.pairwise_map.2
  apply h.imp
  intro a b hlt he
  exact List.lt_irrefl _ (he ▸ hlt)

theorem nodup_keys : m.keys.Nodup := List.Nodup.of_map _ m.nodup_map_key

theorem eq_of_same {k k' : Path} (hk : k ∈ m.keys) (hk' : k' ∈ m.keys) (h : k.Same k') : k = k' :=
  List.inj_on_of_nodup_map m.nodup_map_key hk hk' (same_iff_key.1 h)

end Map

section

variable {α : Type} {p q : Path} {a : α}

def Tied (e e' : Path × α) : Prop := e.1.Same e'.1 ∧ e.2 = e'.2

theorem store_tied {l l' : List (Path × α)} (h : p.Same q) (hl : Forall₂ Tied l l') :
    Forall₂ Tied (store p a l) (store q a l') := by
  induction hl with
  | nil => exact .cons ⟨h, rfl⟩ .nil
  | @cons e e' l l' he hl ih =>
      have hsame := same_congr h he.1
      have hless : p.key < e.1.key ↔ q.key < e'.1.key := by
        rw [same_iff_key.1 h, same_iff_key.1 he.1]
      rw [store, store]
      by_cases hk : p.Same e.1
      · rw [if_pos hk, if_pos (hsame.1 hk)]
        exact .cons ⟨he.1, rfl⟩ hl
      rw [if_neg hk, if_neg (mt hsame.2 hk)]
      by_cases hlt : p.key < e.1.key
      · rw [if_pos hlt, if_pos (hless.1 hlt)]
        exact .cons ⟨h, rfl⟩ (.cons he hl)
      · rw [if_neg hlt, if_neg (mt hless.2 hlt)]
        exact .cons he ih

theorem seek_cons {e : Path × α} {l : List (Path × α)} :
    seek p (e :: l) = if p.Same e.1 then some e.2 else seek p l := by
  by_cases h : p.Same e.1 <;> simp [seek, h]

theorem seek_tied {l l' : List (Path × α)} (h : p.Same q) (hl : Forall₂ Tied l l') :
    seek p l = seek q l' := by
  induction hl with
  | nil => rfl
  | @cons e e' l l' he hl ih =>
      rw [seek_cons, seek_cons, he.2, ih]
      simp only [same_congr h he.1]

theorem seek_head {e : Path × α} {l : List (Path × α)} : seek e.1 (e :: l) = some e.2 :=
  seek_cons.trans (if_pos (show e.1.Same e.1 from rfl))

theorem seek_eq_none {l : List (Path × α)} (h : ∀ e ∈ l, p.key < e.1.key) : seek p l = none := by
  rw [seek, Option.map_eq_none_iff, List.find?_eq_none]
  intro e he hs
  exact List.lt_irrefl _ (same_iff_key.1 (of_decide_eq_true hs) ▸ h e he)

/-- In the order of the keys, what is stored where determines the rest. -/
theorem tied_of_seek {l l' : List (Path × α)} (hl : Ordered l) (hl' : Ordered l')
    (h : ∀ p, seek p l = seek p l') : Forall₂ Tied l l' := by
  induction l generalizing l' with
  | nil =>
      cases l' with
      | nil => exact .nil
      | cons e' l' => exact absurd (seek_head.symm.trans (h e'.1).symm) nofun
  | cons e l ih =>
      obtain ⟨he, hr⟩ := List.pairwise_cons.1 hl
      cases l' with
      | nil => exact absurd (seek_head.symm.trans (h e.1)) nofun
      | cons e' l' =>
          obtain ⟨he', hr'⟩ := List.pairwise_cons.1 hl'
          -- Neither list starts before the other.
          have hsame : e.1.Same e'.1 := by
            by_contra hne
            by_cases hlt : e.1.key < e'.1.key
            · have hnone := seek_eq_none (List.forall_mem_cons.2
                ⟨hlt, fun x hx => List.lt_trans hlt (he' x hx)⟩)
              exact absurd (seek_head.symm.trans ((h e.1).trans hnone)) nofun
            · have hgt := key_lt_of_not hne hlt
              have hnone := seek_eq_none (List.forall_mem_cons.2
                ⟨hgt, fun x hx => List.lt_trans hgt (he x hx)⟩)
              exact absurd (seek_head.symm.trans ((h e'.1).symm.trans hnone)) nofun
          refine .cons ⟨hsame, ?_⟩ (ih hr hr' fun p => ?_)
          · have hhead := h e.1
            rw [seek_head, seek_cons, if_pos hsame] at hhead
            exact Option.some.inj hhead
          · by_cases hp : p.Same e.1
            · have hkey := same_iff_key.1 hp
              have hkey' := same_iff_key.1 (hp.trans hsame)
              rw [seek_eq_none fun x hx => hkey ▸ he x hx,
                seek_eq_none fun x hx => hkey' ▸ he' x hx]
            · have hrest := h p
              rwa [seek_cons, seek_cons, if_neg hp, if_neg fun hp' => hp (hp'.trans hsame.symm)]
                at hrest

namespace Map

/-- The same values at the same paths, in whatever spelling. -/
def Respells (m m' : Map α) : Prop := Forall₂ Tied m.entries m'.entries

namespace Respells

variable {m m' : Map α}

theorem find? (hm : m.Respells m') (h : p.Same q) : m.find? p = m'.find? q := seek_tied h hm

theorem of_find? (h : ∀ p, m.find? p = m'.find? p) : m.Respells m' :=
  tied_of_seek m.ordered m'.ordered h

theorem contains (hm : m.Respells m') (h : p.Same q) : m.contains p = m'.contains q := by
  rw [Map.contains, Map.contains, hm.find? h]

theorem keys (hm : m.Respells m') : Forall₂ Same m.keys m'.keys := by
  apply List.forall₂_map_left_iff.2
  apply List.forall₂_map_right_iff.2
  exact hm.imp fun _ _ he => he.1

theorem insert (hm : m.Respells m') (h : p.Same q) : (m.insert p a).Respells (m'.insert q a) :=
  store_tied h hm

theorem insertNew (hm : m.Respells m') (h : p.Same q) :
    (m.insertNew p a).Respells (m'.insertNew q a) := by
  rw [Map.insertNew, Map.insertNew, hm.contains h]
  split
  · exact hm
  · exact hm.insert h

theorem modify (hm : m.Respells m') (h : p.Same q) (f : α → α) :
    (m.modify p f).Respells (m'.modify q f) := by
  rw [Map.modify, Map.modify, hm.find? h]
  cases m'.find? q with
  | none => exact hm
  | some b => exact hm.insert h

end Respells

end Map

end

end TreeTally.Path
