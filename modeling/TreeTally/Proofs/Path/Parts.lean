import Mathlib.Data.List.Forall2
import Mathlib.Data.List.Induction
import TreeTally.Path.Basic

namespace TreeTally

theorem piecesAt_ne_nil (s : Char) (l : List Char) : piecesAt s l ≠ [] := by
  cases l with
  | nil => simp [piecesAt]
  | cons c r =>
      rw [piecesAt]
      split
      · simp
      · split <;> simp

theorem piecesAt_append (s : Char) (a b : List Char) :
    piecesAt s (a ++ s :: b) = piecesAt s a ++ piecesAt s b := by
  induction a with
  | nil => simp [piecesAt]
  | cons c r ih =>
      by_cases hc : c = s
      · simp [piecesAt, hc, ih]
      · obtain ⟨p, ps, hp⟩ := List.exists_cons_of_ne_nil (piecesAt_ne_nil s r)
        simp [piecesAt, hc, ih, hp]

theorem piecesAt_of_not_mem {s : Char} {l : List Char} (h : s ∉ l) : piecesAt s l = [l] := by
  induction l with
  | nil => rfl
  | cons c r ih =>
      obtain ⟨hc, hr⟩ := not_or.1 (List.mem_cons.not.1 h)
      simp [piecesAt, Ne.symm hc, ih hr]

theorem not_mem_of_mem_piecesAt {s : Char} {l p : List Char} (h : p ∈ piecesAt s l) : s ∉ p := by
  induction l generalizing p with
  | nil =>
      obtain rfl : p = [] := by simpa [piecesAt] using h
      simp
  | cons c r ih =>
      by_cases hc : c = s
      · rw [piecesAt, if_pos hc] at h
        rcases List.mem_cons.1 h with rfl | h
        · simp
        · exact ih h
      · obtain ⟨q, qs, hq⟩ := List.exists_cons_of_ne_nil (piecesAt_ne_nil s r)
        rw [piecesAt, if_neg hc, hq] at h
        rcases List.mem_cons.1 h with rfl | h
        · have hs := ih (p := q) (by simp [hq])
          simp [Ne.symm hc, hs]
        · exact ih (by simp [hq, h])

def slashed (ps : List (List Char)) : List Char := ps.flatMap (· ++ ['/'])

theorem piecesAt_slashed {ps : List (List Char)} {p : List Char} (hps : ∀ q ∈ ps, '/' ∉ q)
    (hp : '/' ∉ p) : piecesAt '/' (slashed ps ++ p) = ps ++ [p] := by
  induction ps with
  | nil => exact piecesAt_of_not_mem hp
  | cons q ps ih =>
      have hq : '/' ∉ q := hps q List.mem_cons_self
      have hrest := ih fun r hr => hps r (List.mem_cons_of_mem _ hr)
      have htext : slashed (q :: ps) ++ p = q ++ '/' :: (slashed ps ++ p) := by simp [slashed]
      rw [htext, piecesAt_append, piecesAt_of_not_mem hq, hrest]
      rfl

/-- A name that can stand in a path as it is. -/
def Proper (n : List Char) : Prop := n ≠ [] ∧ n ≠ ['.'] ∧ n ≠ ['.', '.'] ∧ '/' ∉ n

namespace Part

def ofPieces (first : Bool) : List (List Char) → List Part
  | [] => []
  | p :: ps => (ofPiece? first p).toList ++ ofPieces false ps

theorem ofPiece?_proper {n : List Char} (h : Proper n) (first : Bool) :
    ofPiece? first n = some (.name n) := by
  obtain ⟨h0, h1, h2, -⟩ := h
  unfold ofPiece?
  split <;> simp_all

theorem ofPieces_append {ps : List (List Char)} (h : ps ≠ []) (first : Bool)
    (qs : List (List Char)) : ofPieces first (ps ++ qs) = ofPieces first ps ++ ofPieces false qs := by
  induction ps generalizing first with
  | nil => exact absurd rfl h
  | cons p ps ih =>
      cases ps with
      | nil => simp [ofPieces]
      | cons q ps =>
          have hrest := ih (List.cons_ne_nil q ps) false
          exact (congrArg _ hrest).trans (List.append_assoc _ _ _).symm

theorem ofPieces_names {ps : List (List Char)} (h : ∀ n ∈ ps, n = [] ∨ Proper n) (first : Bool) :
    ofPieces first ps = (ps.filter (· ≠ [])).map .name := by
  induction ps generalizing first with
  | nil => rfl
  | cons p ps ih =>
      obtain ⟨hp, hps⟩ := List.forall_mem_cons.1 h
      rw [ofPieces, ih hps]
      rcases hp with rfl | hp
      · rfl
      · rw [ofPiece?_proper hp, List.filter_cons_of_pos (by simpa using hp.1)]
        rfl

theorem ofPieces_append_nil (first : Bool) (ps : List (List Char)) :
    ofPieces first (ps ++ [[]]) = ofPieces first ps := by
  induction ps generalizing first with
  | nil => simp [ofPieces, ofPiece?]
  | cons p ps ih => simp [ofPieces, ih]

theorem root_not_mem_ofPieces (first : Bool) (ps : List (List Char)) :
    Part.root ∉ ofPieces first ps := by
  induction ps generalizing first with
  | nil => simp [ofPieces]
  | cons p ps ih =>
      rw [ofPieces, List.mem_append, not_or]
      refine ⟨fun h => ?_, ih false⟩
      simp only [ofPiece?] at h
      split at h
      · simp at h
      · cases first <;> simp at h
      · simp at h
      · simp at h

theorem proper_of_mem_ofPieces {first : Bool} {ps : List (List Char)} {n : List Char}
    (hps : ∀ p ∈ ps, '/' ∉ p) (h : Part.name n ∈ ofPieces first ps) : Proper n := by
  induction ps generalizing first with
  | nil => simp [ofPieces] at h
  | cons p ps ih =>
      rw [ofPieces, List.mem_append] at h
      rcases h with h | h
      · have hp := hps p List.mem_cons_self
        simp only [ofPiece?] at h
        split at h
        · simp at h
        · cases first <;> simp at h
        · simp at h
        · rename_i h0 h1 h2
          obtain rfl : n = p := by simpa using h
          exact ⟨h0, h1, h2, hp⟩
      · exact ih (fun q hq => hps q (List.mem_cons_of_mem _ hq)) h

/-- The parts of the paths above one, whose parts are given last first. The nearest comes first, and
only a relative path lies below the empty one. -/
def chain : List Part → List (List Part)
  | [] => []
  | [.root] => []
  | [_] => [[]]
  | _ :: q :: r => (q :: r).reverse :: chain (q :: r)

theorem mem_chain {u v : List Part} (hu : Part.root ∉ u.tail) :
    v ∈ chain u.reverse ↔ ∃ w, w ≠ [] ∧ Part.root ∉ w ∧ u = v ++ w := by
  induction u using List.reverseRecOn generalizing v with
  | nil => simp [chain]
  | append_singleton z x ih =>
      rw [List.reverse_append, List.reverse_singleton, List.singleton_append]
      cases z using List.reverseRecOn with
      | nil =>
          have hone : v ∈ chain [x] ↔ x ≠ .root ∧ v = [] := by
            cases x <;> simp [chain]
          rw [List.reverse_nil, hone]
          constructor
          · rintro ⟨hx, rfl⟩
            exact ⟨[x], by simp, by simpa using Ne.symm hx, rfl⟩
          · rintro ⟨w, hw, hr, he⟩
            obtain ⟨rfl, rfl⟩ : v = [] ∧ w = [x] := by
              rcases List.append_eq_singleton_iff.1 he.symm with h | h
              · exact h
              · exact absurd h.2 hw
            exact ⟨fun hx => hr (by simp [hx]), rfl⟩
      | append_singleton y q =>
          have hx : x ≠ .root := fun h => hu (by
            subst h
            rw [List.append_assoc]
            cases y <;> simp)
          have htail : Part.root ∉ (y ++ [q]).tail := fun h => hu (by
            rw [List.tail_append_of_ne_nil (by simp)]
            exact List.mem_append_left _ h)
          -- The nearest path above lacks the last part, and all others are above that one.
          have hstep : chain (x :: (y ++ [q]).reverse) = (y ++ [q]) :: chain (y ++ [q]).reverse := by
            rw [List.reverse_append, List.reverse_singleton, List.singleton_append, chain]
            simp
          rw [hstep, List.mem_cons, ih htail]
          constructor
          · rintro (rfl | ⟨w, hw, hr, he⟩)
            · exact ⟨[x], by simp, by simpa using Ne.symm hx, rfl⟩
            · exact ⟨w ++ [x], by simp, by simpa [hr] using Ne.symm hx, by rw [he, List.append_assoc]⟩
          · rintro ⟨w, hw, hr, he⟩
            cases w using List.reverseRecOn with
            | nil => exact absurd rfl hw
            | append_singleton w' x' =>
                rw [← List.append_assoc] at he
                obtain ⟨hz, hx'⟩ := List.append_inj' he rfl
                by_cases hw' : w' = []
                · exact .inl (by simp [hz, hw'])
                · exact .inr ⟨w', hw', fun h => hr (List.mem_append_left _ h), hz⟩

theorem pairwise_chain (u : List Part) :
    (∀ v ∈ chain u, v.length < u.length) ∧ (chain u).Pairwise fun v w => w.length < v.length := by
  induction u with
  | nil => exact ⟨nofun, .nil⟩
  | cons x u ih =>
      cases u with
      | nil => cases x <;> simp [chain]
      | cons q r =>
          have hstep : chain (x :: q :: r) = (q :: r).reverse :: chain (q :: r) := by simp [chain]
          rw [hstep]
          refine ⟨fun v hv => ?_, List.pairwise_cons.2 ⟨fun v hv => ?_, ih.2⟩⟩
          · rcases List.mem_cons.1 hv with rfl | hv
            · simp
            · exact Nat.lt_succ_of_lt (ih.1 v hv)
          · rw [List.length_reverse]
            exact ih.1 v hv

end Part

namespace Path

theorem fst_marksFrom (first : Bool) (before : List Char) (ps : List (List Char)) :
    (marksFrom first before ps).map Prod.fst = Part.ofPieces first ps := by
  induction ps generalizing first before with
  | nil => rfl
  | cons p ps ih =>
      rw [marksFrom, Part.ofPieces]
      cases Part.ofPiece? first p with
      | none => simpa using ih _ _
      | some q => simpa using ih _ _

theorem parts_absolute (r : List Char) :
    (⟨'/' :: r⟩ : Path).parts = .root :: Part.ofPieces false (piecesAt '/' r) := by
  simp [parts, marks, fst_marksFrom]

theorem parts_relative {t : List Char} (h : t.head? ≠ some '/') :
    (⟨t⟩ : Path).parts = Part.ofPieces true (piecesAt '/' t) := by
  cases t with
  | nil => rfl
  | cons c r =>
      have hc : c ≠ '/' := fun he => h (he ▸ rfl)
      rw [parts, marks]
      split
      · rename_i r' he
        exact absurd (List.cons.inj he).1 hc
      · exact fst_marksFrom true [] _

theorem absolute_or_relative (p : Path) :
    (∃ r, p = ⟨'/' :: r⟩) ∨ p.chars.head? ≠ some '/' := by
  obtain ⟨t⟩ := p
  cases t with
  | nil => exact .inr (by simp)
  | cons c r =>
      by_cases hc : c = '/'
      · exact .inl ⟨r, by rw [hc]⟩
      · exact .inr (by simpa using hc)

theorem parts_ne_nil {p : Path} (h : p.chars ≠ []) : p.parts ≠ [] := by
  rcases absolute_or_relative p with ⟨r, rfl⟩ | hrel
  · simp [parts_absolute]
  · obtain ⟨t⟩ := p
    obtain ⟨c, r, rfl⟩ := List.exists_cons_of_ne_nil h
    have hc : c ≠ '/' := by simpa using hrel
    obtain ⟨x, xs, hx⟩ := List.exists_cons_of_ne_nil (piecesAt_ne_nil '/' r)
    have hfirst : ∃ q, Part.ofPiece? true (c :: x) = some q := by
      rw [Part.ofPiece?.eq_def]
      split <;> simp_all
    obtain ⟨q, hq⟩ := hfirst
    rw [parts_relative hrel, piecesAt, if_neg hc, hx]
    simp [Part.ofPieces, hq]

theorem root_not_mem_tail (p : Path) : Part.root ∉ p.parts.tail := by
  rcases absolute_or_relative p with ⟨r, rfl⟩ | h
  · rw [parts_absolute]
    exact Part.root_not_mem_ofPieces _ _
  · rw [show p = ⟨p.chars⟩ from rfl, parts_relative h]
    exact fun hm => Part.root_not_mem_ofPieces _ _ (List.mem_of_mem_tail hm)

theorem proper_of_mem_parts {p : Path} {n : List Char} (h : Part.name n ∈ p.parts) : Proper n := by
  rcases absolute_or_relative p with ⟨r, rfl⟩ | hrel
  · rw [parts_absolute, List.mem_cons] at h
    rcases h with h | h
    · cases h
    · exact Part.proper_of_mem_ofPieces (fun q => not_mem_of_mem_piecesAt) h
  · rw [show p = ⟨p.chars⟩ from rfl, parts_relative hrel] at h
    exact Part.proper_of_mem_ofPieces (fun q => not_mem_of_mem_piecesAt) h

theorem ofPieces_join {t n : List Char} (h : ∀ m ∈ piecesAt '/' n, m = [] ∨ Proper m) (first : Bool) :
    Part.ofPieces first (piecesAt '/'
      (if t = [] ∨ t.getLast? = some '/' then t ++ n else t ++ '/' :: n)) =
      Part.ofPieces first (piecesAt '/' t) ++ ((piecesAt '/' n).filter (· ≠ [])).map .name := by
  split
  · rename_i ht
    rcases ht with rfl | ht
    · exact Part.ofPieces_names h first
    · obtain ⟨a, rfl⟩ := List.getLast?_eq_some_iff.1 ht
      have hright : piecesAt '/' (a ++ ['/']) = piecesAt '/' a ++ [[]] := piecesAt_append _ _ _
      rw [List.append_assoc, List.singleton_append, piecesAt_append, hright,
        Part.ofPieces_append (piecesAt_ne_nil _ _), Part.ofPieces_append_nil, Part.ofPieces_names h]
  · rw [piecesAt_append, Part.ofPieces_append (piecesAt_ne_nil _ _), Part.ofPieces_names h]

theorem parts_join_names (p : Path) {n : List Char} (hhead : n.head? ≠ some '/')
    (h : ∀ m ∈ piecesAt '/' n, m = [] ∨ Proper m) :
    (p.join n).parts = p.parts ++ ((piecesAt '/' n).filter (· ≠ [])).map .name := by
  rcases absolute_or_relative p with ⟨r, rfl⟩ | hrel
  · have hjoin : join ⟨'/' :: r⟩ n =
        ⟨'/' :: (if r = [] ∨ r.getLast? = some '/' then r ++ n else r ++ '/' :: n)⟩ := by
      rw [join, if_neg hhead]
      cases r with
      | nil => simp
      | cons d r => simp only [List.getLast?_cons_cons, List.cons_ne_nil, false_or]; split <;> rfl
    rw [hjoin, parts_absolute, parts_absolute, ofPieces_join h, List.cons_append]
  · obtain ⟨t⟩ := p
    have hjoin : join ⟨t⟩ n = ⟨if t = [] ∨ t.getLast? = some '/' then t ++ n else t ++ '/' :: n⟩ := by
      rw [join, if_neg hhead]
      split <;> rfl
    have hrel' : (if t = [] ∨ t.getLast? = some '/' then t ++ n else t ++ '/' :: n).head? ≠
        some '/' := by
      cases t with
      | nil => simpa using hhead
      | cons d t => split <;> simpa using hrel
    rw [hjoin, parts_relative hrel', parts_relative hrel, ofPieces_join h]

theorem parts_join (p : Path) {n : List Char} (h : Proper n) :
    (p.join n).parts = p.parts ++ [.name n] := by
  have hn : piecesAt '/' n = [n] := piecesAt_of_not_mem h.2.2.2
  have hhead : n.head? ≠ some '/' := fun he => h.2.2.2 (List.mem_of_mem_head? he)
  rw [parts_join_names p hhead (by simpa [hn] using .inr h), hn,
    List.filter_cons_of_pos (by simpa using h.1)]
  rfl

theorem join_nil_same (p : Path) : (p.join []).Same p := by
  have hpieces : piecesAt '/' [] = [[]] := rfl
  have hparts := parts_join_names p (n := []) (by simp) (by simp [hpieces])
  rw [hpieces] at hparts
  exact hparts.trans (by simp)

theorem join_same {p q : Path} {n : List Char} (h : p.Same q) (hn : n = [] ∨ Proper n) :
    (p.join n).Same (q.join n) := by
  rcases hn with rfl | hn
  · exact p.join_nil_same.trans (h.trans q.join_nil_same.symm)
  · rw [Same, parts_join p hn, parts_join q hn, show p.parts = q.parts from h]

theorem marksFrom_cut {first : Bool} {before : List Char} {ps : List (List Char)}
    {xs ys : List (Part × List Char)} {m : Part × List Char}
    (h : marksFrom first before ps = xs ++ m :: ys) :
    ∃ a p b, ps = a ++ p :: b ∧ p ≠ [] ∧ m.2 = before ++ (slashed a ++ p) ∧
      Part.ofPieces first (a ++ [p]) = (xs ++ [m]).map Prod.fst := by
  induction ps generalizing first before xs with
  | nil => simp [marksFrom] at h
  | cons p ps ih =>
      rw [marksFrom] at h
      cases hq : Part.ofPiece? first p with
      | none =>
          rw [hq] at h
          obtain ⟨a, p', b, rfl, hp', htext, hparts⟩ := ih h
          exact ⟨p :: a, p', b, rfl, hp', by simp [htext, slashed], by simp [Part.ofPieces, hq, hparts]⟩
      | some q =>
          rw [hq] at h
          cases xs with
          | nil =>
              obtain ⟨rfl, -⟩ := List.cons.inj h
              have hp : p ≠ [] := fun he => by simp [he, Part.ofPiece?] at hq
              exact ⟨[], p, ps, rfl, hp, by simp [slashed], by simp [Part.ofPieces, hq]⟩
          | cons x xs =>
              obtain ⟨rfl, hrest⟩ := List.cons.inj h
              obtain ⟨a, p', b, rfl, hp', htext, hparts⟩ := ih hrest
              exact ⟨p :: a, p', b, rfl, hp', by simp [htext, slashed],
                by simp [Part.ofPieces, hq, hparts]⟩

theorem head?_ne_of_piecesAt {t p : List Char} {a b : List (List Char)}
    (ht : t.head? ≠ some '/') (h : piecesAt '/' t = a ++ p :: b) (hp : p ≠ []) :
    (slashed a ++ p).head? ≠ some '/' := by
  have hslash : ∀ q ∈ a ++ p :: b, '/' ∉ q := fun q hq => not_mem_of_mem_piecesAt (h ▸ hq)
  cases a with
  | nil =>
      obtain ⟨c, r, rfl⟩ := List.exists_cons_of_ne_nil hp
      have hc := hslash _ List.mem_cons_self
      simp_all [slashed, eq_comm]
  | cons q a =>
      cases t with
      | nil => simp [piecesAt] at h
      | cons c r =>
          have hc : c ≠ '/' := fun he => ht (he ▸ rfl)
          obtain ⟨x, xs, hx⟩ := List.exists_cons_of_ne_nil (piecesAt_ne_nil '/' r)
          rw [piecesAt, if_neg hc, hx] at h
          obtain ⟨rfl, -⟩ := List.cons.inj h
          simp [slashed, hc]

theorem parts_of_marks {p : Path} {xs ys : List (Part × List Char)} {m : Part × List Char}
    (h : p.marks = xs ++ m :: ys) : (⟨m.2⟩ : Path).parts = (xs ++ [m]).map Prod.fst := by
  rcases absolute_or_relative p with ⟨r, rfl⟩ | hrel
  · rw [marks] at h
    cases xs with
    | nil =>
        obtain ⟨rfl, -⟩ := List.cons.inj h
        rfl
    | cons x xs =>
        obtain ⟨rfl, hrest⟩ := List.cons.inj h
        obtain ⟨a, q, b, hps, -, htext, hparts⟩ := marksFrom_cut hrest
        have hslash : ∀ z ∈ a ++ q :: b, '/' ∉ z := fun z hz => not_mem_of_mem_piecesAt (hps ▸ hz)
        rw [htext, List.singleton_append, parts_absolute,
          piecesAt_slashed (fun z hz => hslash z (by simp [hz])) (hslash q (by simp)), hparts]
        rfl
  · have hmarks : p.marks = marksFrom true [] (piecesAt '/' p.chars) := by
      rw [marks]
      split
      · rename_i he
        simp [he] at hrel
      · rfl
    obtain ⟨a, q, b, hps, hq, htext, hparts⟩ := marksFrom_cut (hmarks ▸ h)
    have hslash : ∀ z ∈ a ++ q :: b, '/' ∉ z := fun z hz => not_mem_of_mem_piecesAt (hps ▸ hz)
    rw [htext, List.nil_append, parts_relative (head?_ne_of_piecesAt hrel hps hq),
      piecesAt_slashed (fun z hz => hslash z (by simp [hz])) (hslash q (by simp)), hparts]

theorem map_parts_above {p : Path} {xs ys : List (Part × List Char)} (h : p.marks = xs ++ ys) :
    (above xs.reverse).map parts = Part.chain (xs.map Prod.fst).reverse := by
  induction xs using List.reverseRecOn generalizing ys with
  | nil => rfl
  | append_singleton xs m ih =>
      have hxs : p.marks = xs ++ m :: ys := by simpa using h
      rw [List.reverse_append, List.map_append, List.reverse_append]
      cases xs using List.reverseRecOn with
      | nil =>
          obtain ⟨q, t⟩ := m
          cases q <;> rfl
      | append_singleton zs m' =>
          have hz : p.marks = zs ++ m' :: (m :: ys) := by simpa using hxs
          have hm' := parts_of_marks hz
          have hrest := ih hxs
          simp only [List.reverse_append, List.reverse_singleton, List.singleton_append,
            List.map_append, List.map_cons, List.map_nil] at hrest hm' ⊢
          rw [above, Part.chain, List.map_cons, hrest, hm']
          simp

theorem map_parts_ancestors (p : Path) :
    p.ancestors.map parts = p.parts :: Part.chain p.parts.reverse := by
  rw [ancestors, List.map_cons, map_parts_above (List.append_nil p.marks).symm]
  rfl

theorem map_parts_parent? (p : Path) : p.parent?.map parts = (Part.chain p.parts.reverse).head? := by
  have h := map_parts_above (List.append_nil p.marks).symm
  rw [parent?, ← List.head?_map, h]
  rfl

/-- A path is its own ancestor, and all others are the beginnings of its parts; an absolute path has
the root, not the empty path, for its last one. -/
theorem exists_mem_ancestors {p : Path} {v : List Part} :
    (∃ a ∈ p.ancestors, a.parts = v) ↔ ∃ w, Part.root ∉ w ∧ p.parts = v ++ w := by
  have hmem : (∃ a ∈ p.ancestors, a.parts = v) ↔ v ∈ p.ancestors.map parts := by simp
  rw [hmem, map_parts_ancestors, List.mem_cons, Part.mem_chain (root_not_mem_tail p)]
  constructor
  · rintro (rfl | ⟨w, -, hr, he⟩)
    · exact ⟨[], by simp, by simp⟩
    · exact ⟨w, hr, he⟩
  · rintro ⟨w, hr, he⟩
    by_cases hw : w = []
    · exact .inl (by simp [he, hw])
    · exact .inr ⟨w, hw, hr, he⟩

theorem pairwise_ancestors (p : Path) :
    p.ancestors.Pairwise fun a b => b.parts.length < a.parts.length := by
  obtain ⟨hless, hchain⟩ := Part.pairwise_chain p.parts.reverse
  have hparts : (p.ancestors.map parts).Pairwise fun v w => w.length < v.length := by
    rw [map_parts_ancestors, List.pairwise_cons]
    exact ⟨fun v hv => by simpa using hless v hv, hchain⟩
  exact List.pairwise_map.1 hparts

theorem head?_chain {u v : List Part} (hu : Part.root ∉ u.tail) :
    (Part.chain u.reverse).head? = some v ↔ ∃ x, x ≠ Part.root ∧ u = v ++ [x] := by
  induction u using List.reverseRecOn with
  | nil => simp [Part.chain]
  | append_singleton z x _ =>
      have hlast : (∃ y, y ≠ Part.root ∧ z ++ [x] = v ++ [y]) ↔ x ≠ .root ∧ z = v := by
        constructor
        · rintro ⟨y, hy, he⟩
          obtain ⟨rfl, hxy⟩ := List.append_inj' he rfl
          obtain rfl : x = y := List.singleton_inj.1 hxy
          exact ⟨hy, rfl⟩
        · rintro ⟨hx, rfl⟩
          exact ⟨x, hx, rfl⟩
      rw [hlast]
      cases z using List.reverseRecOn with
      | nil => cases x <;> simp [Part.chain, eq_comm]
      | append_singleton y q =>
          have hx : x ≠ .root := fun h => hu (by
            subst h
            rw [List.append_assoc]
            cases y <;> simp)
          simp [Part.chain, hx]

theorem parent?_same_iff {p q : Path} :
    (p.parent?.any fun a => a.Same q) = true ↔ ∃ x, x ≠ Part.root ∧ p.parts = q.parts ++ [x] := by
  rw [← head?_chain (root_not_mem_tail p), ← map_parts_parent?]
  cases p.parent? with
  | none => simp
  | some a =>
      simp only [Option.any_some, Option.map_some, Option.some.injEq]
      exact decide_eq_true_iff

theorem fileName?_of_parts {p : Path} {v : List Part} {n : List Char}
    (h : p.parts = v ++ [.name n]) : p.fileName? = some n := by
  simp [fileName?, h]

section

variable {p q k k' : Path}

theorem forall₂_same {l l' : List Path} : List.Forall₂ Same l l' ↔ l.map parts = l'.map parts := by
  rw [← List.forall₂_eq_eq_eq, List.forall₂_map_left_iff, List.forall₂_map_right_iff]
  rfl

theorem fileName?_congr (h : p.Same q) : p.fileName? = q.fileName? := by
  rw [fileName?, fileName?, show p.parts = q.parts from h]

theorem nameless_or_proper (p : Path) :
    p.fileName?.getD [] = [] ∨ Proper (p.fileName?.getD []) := by
  rw [fileName?]
  split
  · rename_i n hn
    exact .inr (proper_of_mem_parts (List.mem_of_getLast? hn))
  · exact .inl rfl

theorem parent?_same_congr (h : p.Same q) (hk : k.Same k') :
    (k.parent?.any fun a => a.Same p) = true ↔ (k'.parent?.any fun a => a.Same q) = true := by
  rw [parent?_same_iff, parent?_same_iff, show k.parts = k'.parts from hk,
    show p.parts = q.parts from h]

end

end Path

end TreeTally
