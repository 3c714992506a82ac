import TreeTally.Proofs.Walk.Ended

namespace TreeTally

/-- What is counted comes to no more. Folders that could not be listed are left out of account, for
there may be more of them or fewer. -/
structure Tally.Bounds (t u : Tally) : Prop where
  bytes : t.bytes ≤ u.bytes
  files : t.files ≤ u.files
  folders : t.folders ≤ u.folders

namespace Tally.Bounds

variable {t t' u u' : Tally}

theorem refl (t : Tally) : t.Bounds t := ⟨Nat.le_refl _, Nat.le_refl _, Nat.le_refl _⟩

theorem add (h : t.Bounds u) (h' : t'.Bounds u') : (t + t').Bounds (u + u') :=
  ⟨Nat.add_le_add h.bytes h'.bytes, Nat.add_le_add h.files h'.files,
    Nat.add_le_add h.folders h'.folders⟩

theorem capped (h : t.Bounds u) : t.capped.Bounds u.capped := by
  refine ⟨?_, h.files, h.folders⟩
  have hbytes := h.bytes
  show min t.bytes maxBytes ≤ min u.bytes maxBytes
  omega

theorem of_add (h : t.Bounds u) (v : Tally) : t.Bounds (v + u) :=
  ⟨Nat.le_add_left_of_le h.bytes, Nat.le_add_left_of_le h.files, Nat.le_add_left_of_le h.folders⟩

theorem of_nothing (u : Tally) (n : Nat) : (⟨0, 0, 0, n⟩ : Tally).Bounds u :=
  ⟨Nat.zero_le _, Nat.zero_le _, Nat.zero_le _⟩

end Tally.Bounds

inductive Listed.Withheld : Listed → Listed → Prop
  | told (c : Child) : Withheld (.ok c) (.ok c)
  | failed (f : Fault) (e : Listed) : Withheld (.error f) e

/-- The second file system answers like the first, where it does not fail instead. -/
structure FileSystem.Withholds (fs fs' : FileSystem) (follow : Bool) : Prop where
  stat : ∀ p i, fs'.stat p follow = .ok i → fs.stat p follow = .ok i
  list : ∀ p entries', fs'.list p follow = .ok entries' → ∃ entries,
    fs.list p follow = .ok entries ∧ List.Forall₂ Listed.Withheld entries' entries

def Unfailing (events : List Event) : Prop := ∀ p f, .bad p f ∉ events

theorem unfailing_append {a b : List Event} : Unfailing (a ++ b) ↔ Unfailing a ∧ Unfailing b := by
  simp only [Unfailing, List.mem_append, not_or, forall_and]

theorem mem_of_heard {e : Event} {l : List Signal} (h : e ∈ heardOf l) : .event e ∈ l := by
  obtain ⟨s, hs, he⟩ := List.mem_filterMap.1 (List.mem_of_mem_filter h)
  cases s with
  | event e' => exact Option.some.inj he ▸ hs
  | log m => cases he

/-- What is met where answers are withheld, beside what would be met there. -/
structure Cut (t t' : Tally) (events : List Event) (same : Prop) : Prop where
  bounds : t.Bounds t'
  exact : t.unreadable = 0 → Unfailing events → same

section

variable {fs fs' : FileSystem} {follow : Bool} {home : DeviceId}

mutual

theorem Sight.cut (h : fs.Withholds fs' follow) : ∀ (s' s : Sight) {p : Path} {i : EntryInfo},
    s'.Shown fs' follow home p i → s.Shown fs follow home p i →
    Cut s'.total s.total (s'.calls p) (s' = s)
  | .foreign, s, p, i, hs', hs => by
      cases s with
      | foreign => exact ⟨.refl _, fun _ _ => rfl⟩
      | _ => exact absurd hs.1 hs'
  | .leaf n, s, p, i, ⟨hd, hk, hn⟩, hs => by
      cases s with
      | foreign => exact absurd hd hs
      | leaf m =>
          obtain rfl : n = m := hn.symm.trans hs.2.2
          exact ⟨.refl _, fun _ _ => rfl⟩
      | _ => exact absurd hs.2.1 hk
  | .barred f, s, p, i, ⟨hd, hk, hl⟩, hs => ⟨.of_nothing _ _, nofun⟩
  | .folder inside', s, p, i, ⟨hd, hk, entries', hl', hin'⟩, hs => by
      obtain ⟨entries, hl, hall⟩ := h.list p entries' hl'
      cases s with
      | foreign => exact absurd hd hs
      | leaf m => exact absurd hk hs.2.1
      | barred g => cases hl.symm.trans hs.2.2
      | folder inside =>
          obtain ⟨-, -, entries₀, hl₀, hin⟩ := hs
          obtain rfl := Except.ok.inj (hl.symm.trans hl₀)
          obtain ⟨hbounds, hexact⟩ := Sights.cut h inside' inside hall hin' hin
          refine ⟨.add (.refl _) hbounds, fun hzero hclean => congrArg Sight.folder (hexact ?_ ?_)⟩
          · simpa [Sight.total] using hzero
          · exact (unfailing_append (a := [_])).1 hclean |>.2

theorem Sights.cut (h : fs.Withholds fs' follow) : ∀ (s' s : Sights) {p : Path}
    {entries' entries : List Listed}, List.Forall₂ Listed.Withheld entries' entries →
    s'.Shown fs' follow home p entries' → s.Shown fs follow home p entries →
    Cut s'.total s.total (s'.calls p) (s' = s)
  | .nil, s, _, [], _, .nil, _, hs => by
      cases s with
      | nil => exact ⟨.refl _, fun _ _ => rfl⟩
      | _ => cases hs
  | .bad f rest', s, p, _, _, .cons (.failed _ (.error g)) hall, ⟨_, hrest'⟩, hs => by
      refine ⟨?_, fun _ hclean => absurd List.mem_cons_self (hclean p f)⟩
      cases s with
      | bad g' rest => exact (Sights.cut h rest' rest hall hrest' hs.2).bounds
      | _ => cases hs
  | .bad f rest', s, p, _, _, .cons (.failed _ (.ok c)) hall, ⟨_, hrest'⟩, hs => by
      refine ⟨?_, fun _ hclean => absurd List.mem_cons_self (hclean p f)⟩
      cases s with
      | entry n sight rest =>
          have hrest := (Sights.cut h rest' rest hall hrest' hs.2.2).bounds
          exact hrest.of_add sight.total
      | _ => cases hs
  | .entry n sight' rest', s, p, _, _, .cons (.told c) hall, ⟨hn', hsight', hrest'⟩, hs => by
      cases s with
      | entry m sight rest =>
          obtain ⟨hn, hsight, hrest⟩ := hs
          obtain ⟨hbounds, hexact⟩ := Sight.cut h sight' sight hsight' hsight
          obtain ⟨hbounds', hexact'⟩ := Sights.cut h rest' rest hall hrest' hrest
          refine ⟨hbounds.add hbounds', fun hzero hclean => ?_⟩
          obtain ⟨-, hclean⟩ := (unfailing_append (a := [_])).1 hclean
          obtain ⟨hclean, hclean'⟩ := unfailing_append.1 hclean
          obtain ⟨hzero, hzero'⟩ := Nat.add_eq_zero_iff.1 hzero
          rw [← hn', ← hn, hexact hzero (hn' ▸ hclean), hexact' hzero' hclean']
      | _ => cases hs

end

end

section

variable {P P' : Plan}

/-- The second plan counts where some answers to the first are withheld. -/
structure Plan.Withholds (P P' : Plan) : Prop where
  fs : P.fs.Withholds P'.fs P.options.follow
  follow : P'.options.follow = P.options.follow
  lone : P'.lone = P.lone

variable (hP : P.Withholds P')
  (hsights : ∀ p i, ∃ s : Sight, s.Shown P.fs P.options.follow i.device p i)

include hP hsights

theorem Plan.Withholds.exists_root {r : Path} {s' : Sight} (h : P'.Shows r s') (hb : P'.Bears s') :
    ∃ s, P.Shows r s ∧ P.Bears s ∧ Cut s'.total s.total (s'.calls r) (s' = s) := by
  obtain ⟨i, hi, hs'⟩ := h
  rw [hP.follow] at hi hs'
  obtain ⟨s, hs⟩ := hsights r i
  refine ⟨s, ⟨i, hP.fs.stat r i hi, hs⟩, ?_, s'.cut hP.fs s hs' hs⟩
  rcases hb with hlone | hb
  · exact .inl (hP.lone.symm.trans hlone)
  · refine .inr fun f hf => ?_
    -- What refuses to be listed where nothing is withheld does so where something is.
    subst hf
    obtain ⟨hd, hk, hl⟩ := hs
    cases s' with
    | foreign => exact hs' hd
    | leaf n => exact hs'.2.1 hk
    | barred g => exact hb g rfl
    | folder inside =>
        obtain ⟨-, -, entries', hl', -⟩ := hs'
        obtain ⟨entries, hl₀, -⟩ := hP.fs.list r entries' hl'
        cases hl.symm.trans hl₀

theorem Plan.Withholds.exists_roots (l' : List (Path × Sight))
    (h : ∀ x ∈ l', P'.Shows x.1 x.2 ∧ P'.Bears x.2) :
    ∃ l : List (Path × Sight), l.map Prod.fst = l'.map Prod.fst ∧
      (∀ x ∈ l, P.Shows x.1 x.2 ∧ P.Bears x.2) ∧
      Cut (rootsTotal l') (rootsTotal l) (rootsCalls l') (l' = l) := by
  induction l' with
  | nil => exact ⟨[], rfl, nofun, .refl _, fun _ _ => rfl⟩
  | cons x l' ih =>
      obtain ⟨⟨hx, hb⟩, hl'⟩ := List.forall_mem_cons.1 h
      obtain ⟨s, hs, hsb, hbounds, hexact⟩ := hP.exists_root hsights hx hb
      obtain ⟨l, hroots, hl, hbounds', hexact'⟩ := ih hl'
      refine ⟨(x.1, s) :: l, congrArg (x.1 :: ·) hroots,
        List.forall_mem_cons.2 ⟨⟨hs, hsb⟩, hl⟩, ?_, fun hzero hclean => ?_⟩
      · rw [rootsTotal, rootsTotal, List.map_cons, List.map_cons, List.sum_cons, List.sum_cons]
        exact hbounds.add hbounds'
      · rw [rootsTotal, List.map_cons, List.sum_cons, Tally.unreadable_add] at hzero
        obtain ⟨hzero, hzero'⟩ := Nat.add_eq_zero_iff.1 hzero
        rw [rootsCalls, List.flatMap_cons, ← List.singleton_append, List.append_assoc] at hclean
        obtain ⟨hclean, hclean'⟩ := unfailing_append.1 (unfailing_append.1 hclean).2
        rw [← hexact hzero hclean, ← hexact' hzero' hclean']

end

variable {fs fs' : FileSystem} {options options' : Options} {clock' : Nat → Instant}
variable {roots : List Path} {fuel : Nat} {r' : Report} {t' : Tally}

theorem finds_of_withheld (clock : Nat → Instant) (hfs : fs.Withholds fs' options.follow)
    (hfollow : options'.follow = options.follow)
    (hsights : ∀ p i, ∃ s : Sight, s.Shown fs options.follow i.device p i)
    (hcount : (Plan.ofOptions fs' options' clock' roots).count fuel {} roots = some r')
    (hr' : r'.ending = .outcome (.ok t')) : ∃ l t,
      (Plan.ofOptions fs options clock roots).Finds (fun _ _ => True) roots l [] (.ok t) ∧
      t'.Bounds t ∧ (t'.unreadable = 0 → (∀ p f, .event (.bad p f) ∉ r'.signals) → t' = t) := by
  obtain ⟨l', calls, hfinds, hlasts, rfl⟩ := finds_of_outcome hcount hr'
  have hP : (Plan.ofOptions fs options clock roots).Withholds
      (Plan.ofOptions fs' options' clock' roots) := ⟨hfs, hfollow, rfl⟩
  have hheard := (Plan.tells_events (o := .ok t') hlasts hfinds.no_report).1
  cases hfinds with
  | through l' h =>
      obtain ⟨l, hroots, hl, hbounds, hexact⟩ :=
        hP.exists_roots hsights l' fun x hx => ⟨(h x hx).1, (h x hx).2.1⟩
      refine ⟨l, _, ?_, hbounds.capped, fun hzero hclean => ?_⟩
      · rw [← hroots] at hl ⊢
        exact .through l fun x hx => ⟨(hl x hx).1, (hl x hx).2, trivial⟩
      rw [hexact hzero fun p f hmem => hclean p f ?_]
      rw [List.append_nil] at hheard
      exact mem_of_heard (hheard ▸ hmem)

end TreeTally
