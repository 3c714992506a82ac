import TreeTally.Disk.Files
import TreeTally.Proofs.Path.Parts

namespace TreeTally

theorem bind_eq_ok {ε α β : Type} {x : Except ε α} {f : α → Except ε β} {b : β} :
    (x >>= f) = .ok b ↔ ∃ a, x = .ok a ∧ f a = .ok b := by
  cases x <;> simp [bind, Except.bind]

namespace Path

variable {p : Path} {t : List Char}

theorem join_relative (p : Path) (ht : t.head? ≠ some '/') : p.join t =
    if p.chars = [] ∨ p.chars.getLast? = some '/' then ⟨p.chars ++ t⟩ else ⟨p.chars ++ '/' :: t⟩ := by
  rw [join, if_neg ht]

theorem head?_join (hp : p.chars ≠ []) (ht : t.head? ≠ some '/') :
    (p.join t).chars.head? = p.chars.head? := by
  obtain ⟨c, r, hc⟩ := List.exists_cons_of_ne_nil hp
  rw [join_relative p ht]
  split <;> simp [hc]

end Path

namespace Disk

/-- A piece of a path that stands for an entry of a folder. -/
structure Named (n : List Char) : Prop where
  ne_nil : n ≠ []
  ne_dot : n ≠ ['.']
  ne_up : n ≠ ['.', '.']
  short : (String.ofList n).utf8ByteSize ≤ nameLimit

/-- Where the target of a link is followed from. -/
def springboard (l : Location) (target : List Char) : Location :=
  if target.head? = some '/' then [] else l

/-- From a location with so many links left, the pieces of a path lead to a location with so many
left. A last piece that names a link may be one that is not followed. -/
inductive Leads (d : Disk) (follow : Bool) :
    Nat → Location → List (List Char) → Nat → Location → Prop
  | here (k : Nat) (l : Location) : Leads d follow k l [] k l
  | stay {k k' : Nat} {l l' : Location} {p : List Char} {ps : List (List Char)}
      (hl : d.isFolder l = true) (hp : p = [] ∨ p = ['.']) (h : Leads d follow k l ps k' l') :
      Leads d follow k l (p :: ps) k' l'
  | up {k k' : Nat} {l l' : Location} {ps : List (List Char)}
      (hl : d.isFolder l = true) (h : Leads d follow k l.dropLast ps k' l') :
      Leads d follow k l (['.', '.'] :: ps) k' l'
  | down {k k' : Nat} {l l' : Location} {p : List Char} {ps : List (List Char)} {n : DiskNode}
      (hl : d.isFolder l = true) (hp : Named p) (hn : d.node? (l ++ [p]) = some n)
      (hlink : ∀ t, n ≠ .link t) (h : Leads d follow k (l ++ [p]) ps k' l') :
      Leads d follow k l (p :: ps) k' l'
  | last {k : Nat} {l : Location} {p t : List Char}
      (hl : d.isFolder l = true) (hp : Named p) (hn : d.node? (l ++ [p]) = some (.link t))
      (hf : follow = false) : Leads d follow k l [p] k (l ++ [p])
  | jump {k k' : Nat} {l l' : Location} {p t : List Char} {ps : List (List Char)}
      (hl : d.isFolder l = true) (hp : Named p) (hn : d.node? (l ++ [p]) = some (.link t))
      (hf : ps ≠ [] ∨ follow = true)
      (h : Leads d follow k (springboard l t) (piecesAt '/' t ++ ps) k' l') :
      Leads d follow (k + 1) l (p :: ps) k' l'

/-- What becomes of a link when so many are left. -/
def leap (d : Disk) (follow : Bool) :
    Nat → Location → List (List Char) → Except SystemCode Location
  | 0 => fun _ _ => .error .linkLoop
  | k + 1 => d.walk follow k

section

variable {d : Disk} {follow : Bool} {k k' k'' : Nat} {l l' l'' : Location} {p t : List Char}
variable {ps qs : List (List Char)} {n : DiskNode}

theorem walk_eq_scan (d : Disk) (follow : Bool) (k : Nat) :
    d.walk follow k = d.scan follow (d.leap follow k) := by
  cases k <;> rfl

theorem leads_of_scan {jump : Location → List (List Char) → Except SystemCode Location}
    (hjump : ∀ o rest l', jump o rest = .ok l' →
      ∃ m k', k = m + 1 ∧ d.Leads follow m o rest k' l')
    (h : d.scan follow jump l ps = .ok l') : ∃ k', d.Leads follow k l ps k' l' := by
  induction ps generalizing l with
  | nil =>
      obtain rfl : l = l' := Except.ok.inj h
      exact ⟨k, .here k l⟩
  | cons p ps ih =>
      rw [scan] at h
      by_cases hl : d.isFolder l = true
      · rw [if_neg (by simp [hl])] at h
        by_cases hdot : p = [] ∨ p = ['.']
        · rw [if_pos hdot] at h
          obtain ⟨k', hk⟩ := ih h
          exact ⟨k', .stay hl hdot hk⟩
        rw [if_neg hdot] at h
        by_cases hup : p = ['.', '.']
        · rw [if_pos hup] at h
          obtain ⟨k', hk⟩ := ih h
          exact ⟨k', hup ▸ .up hl hk⟩
        rw [if_neg hup] at h
        by_cases hlong : nameLimit < (String.ofList p).utf8ByteSize
        · rw [if_pos hlong] at h
          cases h
        rw [if_neg hlong] at h
        obtain ⟨hnil, hone⟩ := not_or.1 hdot
        have hp : Named p := ⟨hnil, hone, hup, Nat.not_lt.1 hlong⟩
        cases hn : d.node? (l ++ [p]) with
        | none =>
            rw [hn] at h
            cases h
        | some n =>
            rw [hn] at h
            cases n with
            | link t =>
                by_cases hlast : ps.isEmpty ∧ !follow
                · simp only [if_pos hlast] at h
                  obtain rfl : l ++ [p] = l' := Except.ok.inj h
                  obtain rfl : ps = [] := List.isEmpty_iff.1 hlast.1
                  exact ⟨k, .last hl hp hn (by simpa using hlast.2)⟩
                · simp only [if_neg hlast] at h
                  obtain ⟨m, k', rfl, hm⟩ := hjump _ _ _ h
                  refine ⟨k', .jump hl hp hn ?_ hm⟩
                  cases follow with
                  | true => exact .inr rfl
                  | false => exact .inl fun he => hlast (by simp [he])
            | folder | file | special =>
                obtain ⟨k', hk⟩ := ih h
                exact ⟨k', .down hl hp hn nofun hk⟩
      · rw [if_pos (by simpa using hl)] at h
        cases h

theorem leads_of_walk (h : d.walk follow k l ps = .ok l') : ∃ k', d.Leads follow k l ps k' l' := by
  induction k generalizing l ps l' with
  | zero => exact leads_of_scan (fun _ _ _ h => by cases h) h
  | succ k ih =>
      refine leads_of_scan (fun o rest l' h => ?_) h
      obtain ⟨k', hk⟩ := ih h
      exact ⟨k, k', rfl, hk⟩

theorem Named.not_dot (h : Named p) : ¬(p = [] ∨ p = ['.']) := not_or.2 ⟨h.ne_nil, h.ne_dot⟩

section

variable {jump : Location → List (List Char) → Except SystemCode Location}

theorem scan_link (hl : d.isFolder l = true) (hp : Named p) (hn : d.node? (l ++ [p]) = some (.link t)) :
    d.scan follow jump l (p :: ps) = if ps.isEmpty ∧ !follow then .ok (l ++ [p])
      else jump (springboard l t) (piecesAt '/' t ++ ps) := by
  rw [scan, if_neg (by simp [hl]), if_neg hp.not_dot, if_neg hp.ne_up,
    if_neg (Nat.not_lt.2 hp.short), hn]
  rfl

theorem scan_entry (hl : d.isFolder l = true) (hp : Named p) (hn : d.node? (l ++ [p]) = some n)
    (hlink : ∀ t, n ≠ .link t) :
    d.scan follow jump l (p :: ps) = d.scan follow jump (l ++ [p]) ps := by
  rw [scan, if_neg (by simp [hl]), if_neg hp.not_dot, if_neg hp.ne_up,
    if_neg (Nat.not_lt.2 hp.short), hn]
  cases n with
  | link t => exact absurd rfl (hlink t)
  | folder | file | special => rfl

end

theorem walk_of_leads (h : d.Leads follow k l ps k' l') : d.walk follow k l ps = .ok l' := by
  induction h with
  | here k l =>
      rw [walk_eq_scan]
      rfl
  | stay hl hp h ih =>
      rw [walk_eq_scan] at ih ⊢
      rw [scan, if_neg (by simp [hl]), if_pos hp, ih]
  | up hl h ih =>
      rw [walk_eq_scan] at ih ⊢
      rw [scan, if_neg (by simp [hl]), if_neg (by simp), if_pos rfl, ih]
  | down hl hp hn hlink h ih =>
      rw [walk_eq_scan] at ih ⊢
      rw [scan_entry hl hp hn hlink, ih]
  | last hl hp hn hf =>
      rw [walk_eq_scan, scan_link hl hp hn]
      exact if_pos ⟨rfl, by simp [hf]⟩
  | jump hl hp hn hf h ih =>
      rw [walk_eq_scan, scan_link hl hp hn]
      refine (if_neg ?_).trans ih
      rintro ⟨hps, hfollow⟩
      rcases hf with hf | rfl
      · exact hf (List.isEmpty_iff.1 hps)
      · cases hfollow

theorem Leads.folder (h : d.Leads follow k l ps k' l') (hps : ps ≠ []) : d.isFolder l = true := by
  cases h with
  | here => exact absurd rfl hps
  | stay hl | up hl | down hl | last hl | jump hl => exact hl

theorem Leads.cut (h : d.Leads follow k l (ps ++ qs) k'' l'') (hqs : qs ≠ []) :
    ∃ k' l', d.Leads true k l ps k' l' ∧ d.Leads follow k' l' qs k'' l'' := by
  generalize hxs : ps ++ qs = xs at h
  induction h generalizing ps with
  | here k l => exact absurd (List.append_eq_nil_iff.1 hxs).2 hqs
  | stay hl hp h ih =>
      rcases ps with _ | ⟨q, ps⟩
      · obtain rfl : qs = _ :: _ := hxs
        exact ⟨_, _, .here _ _, .stay hl hp h⟩
      · obtain ⟨rfl, hrest⟩ := List.cons.inj hxs
        obtain ⟨k', l', h₁, h₂⟩ := ih hrest
        exact ⟨k', l', .stay hl hp h₁, h₂⟩
  | up hl h ih =>
      rcases ps with _ | ⟨q, ps⟩
      · obtain rfl : qs = _ :: _ := hxs
        exact ⟨_, _, .here _ _, .up hl h⟩
      · obtain ⟨rfl, hrest⟩ := List.cons.inj hxs
        obtain ⟨k', l', h₁, h₂⟩ := ih hrest
        exact ⟨k', l', .up hl h₁, h₂⟩
  | down hl hp hn hlink h ih =>
      rcases ps with _ | ⟨q, ps⟩
      · obtain rfl : qs = _ :: _ := hxs
        exact ⟨_, _, .here _ _, .down hl hp hn hlink h⟩
      · obtain ⟨rfl, hrest⟩ := List.cons.inj hxs
        obtain ⟨k', l', h₁, h₂⟩ := ih hrest
        exact ⟨k', l', .down hl hp hn hlink h₁, h₂⟩
  | last hl hp hn hf =>
      rcases ps with _ | ⟨q, ps⟩
      · obtain rfl : qs = _ :: _ := hxs
        exact ⟨_, _, .here _ _, .last hl hp hn hf⟩
      · obtain ⟨-, hrest⟩ := List.cons.inj hxs
        exact absurd (List.append_eq_nil_iff.1 hrest).2 hqs
  | @jump k k' l l' p t xs hl hp hn hf h ih =>
      rcases ps with _ | ⟨q, ps⟩
      · obtain rfl : qs = _ :: _ := hxs
        exact ⟨_, _, .here _ _, .jump hl hp hn hf h⟩
      · -- The target comes before what was left of the first part, and the cut behind both.
        obtain ⟨rfl, rfl⟩ := List.cons.inj hxs
        obtain ⟨k', l', h₁, h₂⟩ := ih (List.append_assoc (piecesAt '/' t) ps qs)
        exact ⟨k', l', .jump hl hp hn (.inr rfl) h₁, h₂⟩

theorem Leads.join (h : d.Leads true k l ps k' l') (h' : d.Leads follow k' l' qs k'' l'')
    (hqs : qs ≠ []) : d.Leads follow k l (ps ++ qs) k'' l'' := by
  induction h with
  | here k l => exact h'
  | stay hl hp h ih => exact .stay hl hp (ih h')
  | up hl h ih => exact .up hl (ih h')
  | down hl hp hn hlink h ih => exact .down hl hp hn hlink (ih h')
  | last hl hp hn hf => cases hf
  | jump hl hp hn hf h ih =>
      refine .jump hl hp hn (.inl fun he => hqs (List.append_eq_nil_iff.1 he).2) ?_
      exact List.append_assoc _ _ qs ▸ ih h'

theorem leads_append (hqs : qs ≠ []) : d.Leads follow k l (ps ++ qs) k'' l'' ↔
    ∃ k' l', d.Leads true k l ps k' l' ∧ d.Leads follow k' l' qs k'' l'' :=
  ⟨fun h => h.cut hqs, fun ⟨_, _, h, h'⟩ => h.join h' hqs⟩

theorem leads_slash : d.Leads true k l (ps ++ [[]]) k' l' ↔
    d.Leads true k l ps k' l' ∧ d.isFolder l' = true := by
  rw [leads_append (List.cons_ne_nil _ _)]
  constructor
  · rintro ⟨k₁, l₁, h, h'⟩
    cases h' with
    | stay hl _ h' =>
        cases h'
        exact ⟨h, hl⟩
    | down _ hp | last _ hp | jump _ hp => exact absurd rfl hp.ne_nil
  · rintro ⟨h, hl⟩
    exact ⟨k', l', h, .stay hl (.inl rfl) (.here k' l')⟩

theorem leads_join {p : Path} (hp : p.chars ≠ []) (ht : t.head? ≠ some '/') :
    d.Leads follow k l (piecesAt '/' (p.join t).chars) k'' l'' ↔
      ∃ k' l', d.Leads true k l (piecesAt '/' p.chars) k' l' ∧
        d.Leads follow k' l' (piecesAt '/' t) k'' l'' := by
  have hne := piecesAt_ne_nil '/' t
  rw [Path.join_relative p ht]
  by_cases hslash : p.chars.getLast? = some '/'
  · obtain ⟨a, ha⟩ := List.getLast?_eq_some_iff.1 hslash
    have hleft : piecesAt '/' (a ++ ['/']) = piecesAt '/' a ++ [[]] := piecesAt_append _ _ _
    rw [if_pos (.inr hslash), ha, List.append_assoc, List.singleton_append, piecesAt_append,
      leads_append hne, hleft]
    constructor
    · rintro ⟨k', l', h, h'⟩
      exact ⟨k', l', leads_slash.2 ⟨h, h'.folder hne⟩, h'⟩
    · rintro ⟨k', l', h, h'⟩
      exact ⟨k', l', (leads_slash.1 h).1, h'⟩
  · rw [if_neg (not_or.2 ⟨hp, hslash⟩), piecesAt_append, leads_append hne]

theorem Leads.left_le (h : d.Leads follow k l ps k' l') : k' ≤ k := by
  induction h with
  | here | last => exact Nat.le_refl _
  | stay _ _ _ ih | up _ _ ih | down _ _ _ _ _ ih => exact ih
  | jump _ _ _ _ _ ih => exact Nat.le_succ_of_le ih

theorem Leads.followed (h : d.Leads false k l ps k' l') :
    d.Leads true k l ps k' l' ∨ ∃ t, d.node? l' = some (.link t) := by
  induction h with
  | here k l => exact .inl (.here k l)
  | stay hl hp h ih => exact ih.imp_left (.stay hl hp)
  | up hl h ih => exact ih.imp_left (.up hl)
  | down hl hp hn hlink h ih => exact ih.imp_left (.down hl hp hn hlink)
  | last hl hp hn hf => exact .inr ⟨_, hn⟩
  | jump hl hp hn hf h ih => exact ih.imp_left (.jump hl hp hn (.inr rfl))

theorem Leads.name (h : d.Leads follow k l [p] k' l') (hp : Proper p) :
    d.isFolder l = true ∧ Named p ∧ ∃ n, d.node? (l ++ [p]) = some n ∧
      (k' = k ∧ l' = l ++ [p] ∨ ∃ t m, n = .link t ∧ follow = true ∧ k = m + 1 ∧ k' ≤ m) := by
  obtain ⟨hnil, hdot, hup, -⟩ := hp
  cases h with
  | stay hl h => exact absurd h (not_or.2 ⟨hnil, hdot⟩)
  | up => exact absurd rfl hup
  | down hl hp hn hlink h =>
      cases h
      exact ⟨hl, hp, _, hn, .inl ⟨rfl, rfl⟩⟩
  | last hl hp hn => exact ⟨hl, hp, _, hn, .inl ⟨rfl, rfl⟩⟩
  | jump hl hp hn hf h =>
      exact ⟨hl, hp, _, hn, .inr ⟨_, _, rfl, hf.resolve_left (not_not_intro rfl), rfl, h.left_le⟩⟩

theorem leads_name (hl : d.isFolder l = true) (hp : Named p) (hn : d.node? (l ++ [p]) = some n)
    (hlink : follow = true → ∀ t, n ≠ .link t) : d.Leads follow k l [p] k (l ++ [p]) := by
  cases n with
  | link t =>
      refine .last hl hp hn ?_
      cases follow with
      | true => exact absurd rfl (hlink rfl t)
      | false => rfl
  | folder | file | special => exact .down hl hp hn nofun (.here _ _)

end

structure Takes (p : Path) : Prop where
  no_nul : '\x00' ∉ p.chars
  ne_nil : p.chars ≠ []
  short : p.display.utf8ByteSize < pathLimit

def outset (d : Disk) (p : Path) : Location := if p.chars.head? = some '/' then [] else d.current

variable {d : Disk} {p : Path} {follow : Bool} {l : Location} {i : EntryInfo} {t : List Char}

theorem outset_join (hp : p.chars ≠ []) (ht : t.head? ≠ some '/') :
    d.outset (p.join t) = d.outset p := by
  rw [outset, outset, Path.head?_join hp ht]

theorem takes_of_find (h : d.find p follow = .ok l) : Takes p := by
  rw [find] at h
  split at h
  · cases h
  split at h
  · cases h
  split at h
  · cases h
  rename_i hnul hnil hlong
  exact ⟨by simpa using hnul, hnil, Nat.not_le.1 hlong⟩

theorem Takes.find (h : Takes p) (d : Disk) (follow : Bool) : d.find p follow =
    (d.walk follow linkLimit (d.outset p) (piecesAt '/' p.chars)).mapError .system := by
  rw [Disk.find, if_neg (by simpa using h.no_nul), if_neg h.ne_nil, if_neg (Nat.not_le.2 h.short)]
  rfl

theorem find_eq_ok : d.find p follow = .ok l ↔
    Takes p ∧ ∃ k, d.Leads follow linkLimit (d.outset p) (piecesAt '/' p.chars) k l := by
  constructor
  · intro h
    have htakes := takes_of_find h
    rw [htakes.find] at h
    refine ⟨htakes, ?_⟩
    cases hw : d.walk follow linkLimit (d.outset p) (piecesAt '/' p.chars) with
    | error e =>
        rw [hw] at h
        cases h
    | ok l' =>
        rw [hw] at h
        obtain rfl : l' = l := Except.ok.inj h
        exact leads_of_walk hw
  · rintro ⟨htakes, k, h⟩
    rw [htakes.find, walk_of_leads h]
    rfl

theorem queryAs_eq_ok : d.queryAs p follow = .ok i ↔
    ∃ l n, d.find p follow = .ok l ∧ d.node? l = some n ∧ i = d.info l n := by
  rw [queryAs, bind_eq_ok]
  constructor
  · rintro ⟨l, hl, h⟩
    cases hn : d.node? l with
    | none =>
        rw [hn] at h
        cases h
    | some n =>
        rw [hn] at h
        exact ⟨l, n, hl, hn, (Except.ok.inj h).symm⟩
  · rintro ⟨l, n, hl, hn, rfl⟩
    refine ⟨l, hl, ?_⟩
    rw [hn]
    rfl

theorem openFolder_eq_ok : d.openFolder p = .ok l ↔ d.find p true = .ok l ∧ d.isFolder l = true := by
  rw [openFolder, bind_eq_ok]
  constructor
  · rintro ⟨l', hl, h⟩
    cases hfolder : d.isFolder l' with
    | true =>
        rw [hfolder] at h
        obtain rfl : l' = l := Except.ok.inj h
        exact ⟨hl, hfolder⟩
    | false =>
        rw [hfolder] at h
        cases h
  · rintro ⟨hl, hfolder⟩
    refine ⟨l, hl, ?_⟩
    rw [hfolder]
    rfl

end Disk

end TreeTally
