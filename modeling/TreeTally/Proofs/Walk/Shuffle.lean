import Mathlib.Data.List.Perm.Basic
import TreeTally.Proofs.Walk.Accounts

namespace TreeTally

/-- The file systems give the same answers, save that the entries of a listing may be in any order. -/
structure FileSystem.Shuffles (fs fs' : FileSystem) : Prop where
  stat : ∀ p follow, fs'.stat p follow = fs.stat p follow
  refusal : ∀ p follow f, fs.list p follow = .error f → fs'.list p follow = .error f
  listing : ∀ p follow entries, fs.list p follow = .ok entries →
    ∃ entries', fs'.list p follow = .ok entries' ∧ entries.Perm entries'

section

variable {fs fs' : FileSystem} {follow : Bool} {home : DeviceId} {p : Path} {t : Tally}
variable {entries entries' : List Listed}

def Listed.Adds (fs : FileSystem) (follow : Bool) (home : DeviceId) (p : Path) : Listed → Tally → Prop
  | .error _, t => t = 0
  | .ok c, t => ∃ s : Sight, s.Shown fs follow home (p.join c.name) c.info ∧ s.total = t

theorem exists_sights : (∃ s : Sights, s.Shown fs follow home p entries ∧ s.total = t) ↔
    ∃ ts, List.Forall₂ (Listed.Adds fs follow home p) entries ts ∧ ts.sum = t := by
  induction entries generalizing t with
  | nil =>
      constructor
      · rintro ⟨s, hs, rfl⟩
        cases s with
        | nil => exact ⟨[], .nil, rfl⟩
        | _ => cases hs
      · rintro ⟨ts, hts, rfl⟩
        cases hts
        exact ⟨.nil, trivial, rfl⟩
  | cons entry entries ih =>
      constructor
      · rintro ⟨s, hs, rfl⟩
        rcases entry with f | c
        · cases s with
          | bad g s =>
              obtain ⟨ts, hts, hsum⟩ := ih.1 ⟨s, hs.2, rfl⟩
              exact ⟨0 :: ts, .cons rfl hts, (zero_add _).trans hsum⟩
          | _ => cases hs
        · cases s with
          | entry n sight s =>
              obtain ⟨ts, hts, hsum⟩ := ih.1 ⟨s, hs.2.2, rfl⟩
              exact ⟨sight.total :: ts, .cons ⟨sight, hs.2.1, rfl⟩ hts,
                congrArg (sight.total + ·) hsum⟩
          | _ => cases hs
      · rintro ⟨ts, hts, rfl⟩
        cases hts with
        | @cons _ u _ us hentry hrest =>
            obtain ⟨s, hs, hsum⟩ := ih.2 ⟨us, hrest, rfl⟩
            rcases entry with f | c
            · obtain rfl : u = 0 := hentry
              exact ⟨.bad f s, ⟨rfl, hs⟩, hsum.trans (zero_add _).symm⟩
            · obtain ⟨sight, hsight, rfl⟩ := hentry
              exact ⟨.entry c.name sight s, ⟨rfl, hsight, hs⟩, congrArg (sight.total + ·) hsum⟩

theorem Sights.Shown.perm (h : entries.Perm entries') {s : Sights}
    (hs : s.Shown fs follow home p entries) :
    ∃ s' : Sights, s'.Shown fs follow home p entries' ∧ s'.total = s.total := by
  obtain ⟨ts, hts, hsum⟩ := exists_sights.1 ⟨s, hs, rfl⟩
  obtain ⟨ts', hts', hperm⟩ := List.perm_comp_forall₂ h.symm hts
  exact exists_sights.2 ⟨ts', hts', hperm.sum_eq.trans hsum⟩

mutual

theorem Sight.Shown.shuffled (h : fs.Shuffles fs') : ∀ (s : Sight) {p : Path} {i : EntryInfo},
    s.Shown fs follow home p i → ∃ s' : Sight, s'.Shown fs' follow home p i ∧ s'.total = s.total ∧
      ((∀ f, s ≠ .barred f) → ∀ f, s' ≠ .barred f)
  | .foreign, _, _, hs => ⟨.foreign, hs, rfl, id⟩
  | .leaf n, _, _, hs => ⟨.leaf n, hs, rfl, id⟩
  | .barred f, p, _, ⟨hd, hk, hl⟩ => ⟨.barred f, ⟨hd, hk, h.refusal p follow f hl⟩, rfl, id⟩
  | .folder inside, p, _, ⟨hd, hk, entries, hl, hin⟩ => by
      obtain ⟨entries', hl', hperm⟩ := h.listing p follow entries hl
      obtain ⟨inside', hin', htotal⟩ := Sights.Shown.shuffled h inside hin
      obtain ⟨inside'', hin'', htotal'⟩ := Sights.Shown.perm hperm hin'
      refine ⟨.folder inside'', ⟨hd, hk, entries', hl', hin''⟩, ?_, fun _ => nofun⟩
      exact congrArg (⟨0, 0, 1, 0⟩ + ·) (htotal'.trans htotal)

theorem Sights.Shown.shuffled (h : fs.Shuffles fs') : ∀ (s : Sights) {p : Path}
    {entries : List Listed}, s.Shown fs follow home p entries →
    ∃ s' : Sights, s'.Shown fs' follow home p entries ∧ s'.total = s.total
  | .nil, _, [], _ => ⟨.nil, trivial, rfl⟩
  | .bad f rest, _, .error _ :: _, ⟨hf, hrest⟩ => by
      obtain ⟨rest', hrest', htotal⟩ := Sights.Shown.shuffled h rest hrest
      exact ⟨.bad f rest', ⟨hf, hrest'⟩, htotal⟩
  | .entry n sight rest, _, .ok c :: _, ⟨hn, hsight, hrest⟩ => by
      obtain ⟨sight', hsight', htotal, -⟩ := Sight.Shown.shuffled h sight hsight
      obtain ⟨rest', hrest', htotal'⟩ := Sights.Shown.shuffled h rest hrest
      exact ⟨.entry n sight' rest', ⟨hn, hsight', hrest'⟩, congrArg₂ (· + ·) htotal htotal'⟩

end

end

section

variable {P : Plan} {fs' : FileSystem} {roots : List Path} {l : List (Path × Sight)}
variable {calls : List Event} {o : Outcome}

theorem exists_shuffled {Q : Path → Sight → Prop} (h : P.fs.Shuffles fs')
    (hl : ∀ x ∈ l, P.Shows x.1 x.2 ∧ P.Bears x.2 ∧ Q x.1 x.2) :
    ∃ l', l'.map Prod.fst = l.map Prod.fst ∧ rootsTotal l' = rootsTotal l ∧
      ∀ x ∈ l', ({ P with fs := fs' } : Plan).Shows x.1 x.2 ∧ P.Bears x.2 ∧ True := by
  induction l with
  | nil => exact ⟨[], rfl, rfl, nofun⟩
  | cons x l ih =>
      obtain ⟨r, sight⟩ := x
      obtain ⟨⟨⟨i, hi, hs⟩, hbears, -⟩, hl⟩ := List.forall_mem_cons.1 hl
      obtain ⟨l', hfst, htotal, hl'⟩ := ih hl
      obtain ⟨sight', hs', hsame, hbarred⟩ := Sight.Shown.shuffled h sight hs
      refine ⟨(r, sight') :: l', congrArg (r :: ·) hfst, congrArg₂ (· + ·) hsame htotal, ?_⟩
      refine List.forall_mem_cons.2 ⟨⟨⟨i, (h.stat r _).trans hi, hs'⟩, ?_, trivial⟩, hl'⟩
      exact hbears.imp id hbarred

theorem Plan.Finds.shuffled {Q : Path → Sight → Prop} (h : P.Finds Q roots l calls o)
    (hfs : P.fs.Shuffles fs') : ∃ l',
      ({ P with fs := fs' } : Plan).Finds (fun _ _ => True) roots l' calls o ∧
      rootsTotal l' = rootsTotal l := by
  cases h with
  | through l hl =>
      obtain ⟨l', hfst, htotal, hl'⟩ := exists_shuffled hfs hl
      refine ⟨l', ?_, htotal⟩
      rw [← hfst, ← htotal]
      exact .through l' hl'
  | lost l hl r f hr rest =>
      obtain ⟨l', hfst, htotal, hl'⟩ := exists_shuffled hfs hl
      refine ⟨l', ?_, htotal⟩
      rw [← hfst]
      exact .lost l' hl' r f ((hfs.stat r _).trans hr) rest
  | refused r i f hlone hr hk hf _ =>
      have hr' := (hfs.stat r P.options.follow).trans hr
      exact ⟨[], .refused r i f hlone hr' hk (hfs.refusal r _ f hf) trivial, rfl⟩

/-- What a count comes to depends on its outcome and on how often it asks the clock. -/
theorem Plan.tells_congr {P' : Plan} {l' : List (Path × Sight)} (hclock : P'.clock = P.clock)
    (hinterval : P'.options.interval = P.options.interval) (h : rootsTotal l' = rootsTotal l) :
    (P'.tells l' calls o).ending = (P.tells l calls o).ending := by
  have hlasts : P'.Lasts (rootsTotal l').met ↔ P.Lasts (rootsTotal l).met := by
    rw [Plan.Lasts, Plan.Lasts, Plan.outset, Plan.outset, hclock, hinterval, h]
  by_cases hl : P.Lasts (rootsTotal l).met
  · rw [P.tells_lasting hl, P'.tells_lasting (hlasts.2 hl)]
  · rw [P.tells_overrun hl, P'.tells_overrun (hlasts.not.2 hl)]

end

/-- In whatever order the listings come back, a finite traversal comes to the same end: the same
totals, the same root with the same fault, or a clock that overruns. -/
theorem count_shuffled {fs fs' : FileSystem} {roots : List Path} (options : Options)
    (clock : Nat → Instant) (h : fs.Finite options.follow roots) (hfs : fs.Shuffles fs') :
    ∃ n, ∀ fuel, n < fuel → ∃ r r',
      (Plan.ofOptions fs options clock roots).count fuel {} roots = some r ∧
      (Plan.ofOptions fs' options clock roots).count fuel {} roots = some r' ∧
      r'.ending = r.ending := by
  obtain ⟨l, calls, o, hfinds⟩ := h.exists_finds
  let P := Plan.ofOptions fs options clock roots
  have hP : P.Finds (fun _ _ => True) roots l calls o := hfinds options clock rfl
  have hfs' : P.fs.Shuffles fs' := hfs
  obtain ⟨l', hP', htotal⟩ := hP.shuffled hfs'
  obtain ⟨n, hn⟩ := hP.exists_count
  obtain ⟨n', hn'⟩ := hP'.exists_count
  refine ⟨max n n', fun fuel hfuel => ?_⟩
  exact ⟨_, _, hn fuel (Nat.lt_of_le_of_lt (Nat.le_max_left n n') hfuel),
    hn' fuel (Nat.lt_of_le_of_lt (Nat.le_max_right n n') hfuel), Plan.tells_congr rfl rfl htotal⟩

def FileSystem.reversed (fs : FileSystem) : FileSystem where
  stat := fs.stat
  list p follow := (fs.list p follow).map List.reverse

theorem shuffles_reversed (fs : FileSystem) : fs.Shuffles fs.reversed := by
  constructor
  · exact fun _ _ => rfl
  · intro p follow f hf
    exact congrArg (Except.map List.reverse) hf
  · intro p follow entries hentries
    refine ⟨entries.reverse, ?_, entries.reverse_perm.symm⟩
    exact congrArg (Except.map List.reverse) hentries

def FileSystem.heavy : FileSystem where
  stat _ _ := .ok ⟨.folder, 0, ⟨""⟩⟩
  list p _ :=
    if p.chars = ['/'] then
      .ok [.ok ⟨['x'], .file, Tally.maxBytes, ⟨""⟩⟩, .ok ⟨['y'], .file, 1, ⟨""⟩⟩,
        .ok ⟨['z'], .folder, 0, ⟨""⟩⟩]
    else .error (.denied p)

theorem count_shuffled_heavy :
    let roots : List Path := [⟨['/']⟩]
    let P : FileSystem → Plan := fun fs => Plan.ofOptions fs {} (fun _ => ⟨0⟩) roots
    FileSystem.heavy.Finite false roots ∧ FileSystem.heavy.Shuffles FileSystem.heavy.reversed ∧
      ∃ fuel r r', (P .heavy).count fuel {} roots = some r ∧
        (P FileSystem.heavy.reversed).count fuel {} roots = some r' ∧ r'.ending = r.ending ∧
        r.ending = .outcome (.ok ⟨Tally.maxBytes, 2, 1, 1⟩) := by
  intro roots P
  have hrun : ((P .heavy).count 40 {} roots).bind Report.total? =
      some ⟨Tally.maxBytes, 2, 1, 1⟩ := by decide +kernel
  obtain ⟨r₀, hcount₀, ht₀⟩ := Option.bind_eq_some_iff.1 hrun
  have hend₀ := Report.total?_eq_some.1 ht₀
  have hfinite : FileSystem.heavy.Finite false roots :=
    ⟨{}, fun _ => ⟨0⟩, 40, r₀, _, rfl, hcount₀, hend₀⟩
  have hfs := shuffles_reversed .heavy
  obtain ⟨n, h⟩ := count_shuffled {} (fun _ => ⟨0⟩) hfinite hfs
  obtain ⟨r, r', hcount, hcount', hsame⟩ := h (n + 1) (Nat.lt_succ_self n)
  obtain rfl := Plan.count_unique hcount₀ hcount
  exact ⟨hfinite, hfs, n + 1, r₀, r', hcount, hcount', hsame, hend₀⟩

end TreeTally
