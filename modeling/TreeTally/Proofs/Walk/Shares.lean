import Mathlib.Algebra.BigOperators.Group.List.Basic
import TreeTally.Proofs.Walk.Accounts

namespace TreeTally

namespace Tally

variable {t u : Tally}

theorem capped_capped : t.capped.capped = t.capped := by
  ext <;> simp [capped]

theorem capped_add_capped : (t.capped + u.capped).capped = (t + u).capped := by
  ext <;> simp only [capped, bytes_add, files_add, folders_add, unreadable_add]
  omega

theorem capped_sum_capped (ts : List Tally) : (ts.map capped).sum.capped = ts.sum.capped := by
  induction ts with
  | nil => rfl
  | cons t ts ih =>
      rw [List.map_cons, List.sum_cons, List.sum_cons, ← capped_add_capped, capped_capped, ih,
        capped_add_capped]

end Tally

section

variable {fs : FileSystem} {follow : Bool} {home : DeviceId}

mutual

theorem Sight.Shown.unique : ∀ (s s' : Sight) {p : Path} {i : EntryInfo},
    s.Shown fs follow home p i → s'.Shown fs follow home p i → s = s'
  | .foreign, s', p, i, h, h' => by
      cases s' with
      | foreign => rfl
      | _ => exact absurd h'.1 h
  | .leaf n, s', p, i, ⟨hd, hk, hn⟩, h' => by
      cases s' with
      | foreign => exact absurd hd h'
      | leaf m => exact congrArg Sight.leaf (hn.symm.trans h'.2.2)
      | _ => exact absurd h'.2.1 hk
  | .barred f, s', p, i, ⟨hd, hk, hl⟩, h' => by
      cases s' with
      | foreign => exact absurd hd h'
      | leaf m => exact absurd hk h'.2.1
      | barred g => exact congrArg Sight.barred (Except.error.inj (hl.symm.trans h'.2.2))
      | folder inside =>
          obtain ⟨-, -, entries, hl', -⟩ := h'
          cases hl.symm.trans hl'
  | .folder inside, s', p, i, ⟨hd, hk, entries, hl, hin⟩, h' => by
      cases s' with
      | foreign => exact absurd hd h'
      | leaf m => exact absurd hk h'.2.1
      | barred g => cases hl.symm.trans h'.2.2
      | folder inside' =>
          obtain ⟨-, -, entries', hl', hin'⟩ := h'
          obtain rfl := Except.ok.inj (hl.symm.trans hl')
          exact congrArg Sight.folder (Sights.Shown.unique inside inside' hin hin')

theorem Sights.Shown.unique : ∀ (s s' : Sights) {p : Path} {entries : List Listed},
    s.Shown fs follow home p entries → s'.Shown fs follow home p entries → s = s'
  | .nil, s', _, [], _, h' => by
      cases s' with
      | nil => rfl
      | _ => cases h'
  | .bad f rest, s', _, .error g :: _, ⟨hf, h⟩, h' => by
      cases s' with
      | bad f' rest' => rw [← hf, ← h'.1, Sights.Shown.unique rest rest' h h'.2]
      | _ => cases h'
  | .entry n sight rest, s', _, .ok d :: _, ⟨hn, hs, h⟩, h' => by
      cases s' with
      | entry m sight' rest' =>
          obtain ⟨hm, hs', h'⟩ := h'
          rw [← hn, ← hm, Sight.Shown.unique sight sight' hs hs',
            Sights.Shown.unique rest rest' h h']
      | _ => cases h'

end

end

/-- What each root adds, by what it shows. -/
def FileSystem.Shares (fs : FileSystem) (follow : Bool) (c : Path → Tally) : Prop :=
  ∀ r i s, fs.stat r follow = .ok i → Sight.Shown fs follow i.device r i s → c r = s.total.capped

theorem exists_shares (fs : FileSystem) (follow : Bool) : ∃ c, fs.Shares follow c := by
  have hall : ∀ r, ∃ t, ∀ i s, fs.stat r follow = .ok i → Sight.Shown fs follow i.device r i s →
      t = s.total.capped := by
    intro r
    by_cases h : ∃ i s, fs.stat r follow = .ok i ∧ Sight.Shown fs follow i.device r i s
    · obtain ⟨i, s, hi, hs⟩ := h
      refine ⟨s.total.capped, fun i' s' hi' hs' => ?_⟩
      obtain rfl := Except.ok.inj (hi.symm.trans hi')
      rw [Sight.Shown.unique s s' hs hs']
    · exact ⟨0, fun i s hi hs => absurd ⟨i, s, hi, hs⟩ h⟩
  choose c hc using hall
  exact ⟨c, hc⟩

def FileSystem.Counts (fs : FileSystem) (options : Options) (clock : Nat → Instant)
    (roots : List Path) (o : Outcome) : Prop :=
  ∃ fuel r, (Plan.ofOptions fs options clock roots).count fuel {} roots = some r ∧
    r.ending = .outcome o

/-- The root is a folder that refuses to be listed. -/
def FileSystem.Bars (fs : FileSystem) (follow : Bool) (r : Path) (f : Fault) : Prop :=
  (∃ i, fs.stat r follow = .ok i ∧ i.kind = .folder) ∧ fs.list r follow = .error f

section

variable {fs : FileSystem} {options : Options} {clock : Nat → Instant} {c : Path → Tally}
variable {roots : List Path} {l : List (Path × Sight)} {calls : List Event} {o : Outcome} {q : Path}

theorem counts_of_finds {Q : Path → Sight → Prop}
    (h : (Plan.ofOptions fs options clock roots).Finds Q roots l calls o)
    (hlasts : (Plan.ofOptions fs options clock roots).Lasts (rootsTotal l).met) :
    fs.Counts options clock roots o := by
  obtain ⟨n, hn⟩ := h.exists_count
  refine ⟨n + 1, _, hn (n + 1) (Nat.lt_succ_self n), ?_⟩
  rw [Plan.tells_lasting hlasts]

theorem shares_total (hc : fs.Shares options.follow c)
    (hl : ∀ x ∈ l, (Plan.ofOptions fs options clock roots).Shows x.1 x.2) :
    ((l.map Prod.fst).map c).sum.capped = (rootsTotal l).capped := by
  have hmap : (l.map Prod.fst).map c = (l.map fun x => x.2.total).map Tally.capped := by
    rw [List.map_map, List.map_map]
    refine List.map_congr_left fun x hx => ?_
    obtain ⟨i, hi, hs⟩ := hl x hx
    exact hc x.1 i x.2 hi hs
  rw [hmap]
  exact Tally.capped_sum_capped _

theorem counts_of_shown (hc : fs.Shares options.follow c) (hlen : 2 ≤ roots.length)
    (h : ∀ r ∈ roots, ∃ s, (Plan.ofOptions fs options clock roots).Shows r s)
    (hlasts : (Plan.ofOptions fs options clock roots).Lasts (roots.map c).sum.met) :
    fs.Counts options clock roots (.ok (roots.map c).sum.capped) := by
  obtain ⟨l, rfl, hl⟩ := exists_zip roots h
  have htotal := shares_total hc hl
  have hbears : (Plan.ofOptions fs options clock (l.map Prod.fst)).lone = false :=
    decide_eq_false (Nat.not_lt.2 hlen)
  have hmet : ((l.map Prod.fst).map c).sum.met = (rootsTotal l).met := by
    rw [← Tally.met_capped, htotal, Tally.met_capped]
  rw [htotal]
  rw [hmet] at hlasts
  exact counts_of_finds (Q := fun _ _ => True)
    (.through l fun x hx => ⟨hl x hx, .inl hbears, trivial⟩) hlasts

theorem shown_of_counts {t : Tally} (hc : fs.Shares options.follow c)
    (h : fs.Counts options clock roots (.ok t)) :
    (∀ r ∈ roots, ∃ s, (Plan.ofOptions fs options clock roots).Shows r s) ∧
      t = (roots.map c).sum.capped ∧
      (Plan.ofOptions fs options clock roots).Lasts (roots.map c).sum.met := by
  obtain ⟨fuel, r, hcount, hend⟩ := h
  obtain ⟨l, calls, hfinds, hlasts, -⟩ := finds_of_outcome hcount hend
  obtain ⟨hroots, -, rfl⟩ := hfinds.through_of_ok
  have hl := hfinds.shown.2
  have htotal := shares_total hc hl
  rw [← hroots] at htotal
  refine ⟨fun q hq => ?_, htotal.symm, ?_⟩
  · rw [hroots] at hq
    obtain ⟨x, hx, rfl⟩ := List.mem_map.1 hq
    exact ⟨x.2, hl x hx⟩
  · rw [← Tally.met_capped, htotal]
    exact hlasts

theorem met_le_of_sublist {part : List Path} (h : part.Sublist roots) :
    (part.map c).sum.met ≤ (roots.map c).sum.met := by
  induction h with
  | slnil => exact Nat.le_refl _
  | cons r _ ih =>
      rw [List.map_cons, List.sum_cons, Tally.met_add]
      omega
  | cons_cons r _ ih =>
      rw [List.map_cons, List.sum_cons, Tally.met_add, List.map_cons, List.sum_cons, Tally.met_add]
      omega

theorem counts_barred {f : Fault} (h : fs.Bars options.follow q f) :
    fs.Counts options clock [q] (.error (.unreadable q f)) := by
  obtain ⟨⟨i, hi, hk⟩, hf⟩ := h
  exact ⟨6, _, count_barred rfl hi hk hf (Nat.lt_succ_self 5), rfl⟩

theorem shares_barred {f : Fault} {follow : Bool} (hc : fs.Shares follow c)
    (h : fs.Bars follow q f) : c q = ⟨0, 0, 0, 1⟩ := by
  obtain ⟨⟨i, hi, hk⟩, hf⟩ := h
  exact hc q i (.barred f) hi ⟨rfl, hk, hf⟩

theorem counts_alone {s : Sight} (hc : fs.Shares options.follow c)
    (hs : (Plan.ofOptions fs options clock [q]).Shows q s)
    (hbars : ∀ f, ¬fs.Bars options.follow q f)
    (hlasts : (Plan.ofOptions fs options clock [q]).Lasts (c q).met) :
    fs.Counts options clock [q] (.ok (c q)) := by
  obtain ⟨i, hi, hshown⟩ := hs
  have hshare := hc q i s hi hshown
  have hbears : ∀ f, s ≠ .barred f := by
    rintro f rfl
    exact hbars f ⟨⟨i, hi, hshown.2.1⟩, hshown.2.2⟩
  have htotal : rootsTotal [(q, s)] = s.total := add_zero s.total
  have hfinds : (Plan.ofOptions fs options clock [q]).Finds (fun _ _ => True) [q] [(q, s)] []
      (.ok (c q)) := by
    rw [hshare, ← htotal]
    refine .through [(q, s)] fun x hx => ?_
    obtain rfl := List.mem_singleton.1 hx
    exact ⟨⟨i, hi, hshown⟩, .inr hbears, trivial⟩
  refine counts_of_finds hfinds ?_
  rw [htotal, ← Tally.met_capped, ← hshare]
  exact hlasts

end

/-- The totals of a count are what its roots add, however they are ordered or parted. -/
structure FileSystem.AddsUp (fs : FileSystem) (options : Options) (clock : Nat → Instant)
    (c : Path → Tally) (roots : List Path) (t : Tally) : Prop where
  sum : t = (roots.map c).sum.capped
  alone : ∀ r ∈ roots, (∀ f, ¬fs.Bars options.follow r f) → fs.Counts options clock [r] (.ok (c r))
  reorder : ∀ roots' : List Path, roots'.Perm roots → fs.Counts options clock roots' (.ok t)
  split : ∀ parts : List (List Path), parts.flatten.Perm roots → (∀ part ∈ parts, 2 ≤ part.length) →
    ∃ ts, List.Forall₂ (fun part u => fs.Counts options clock part (.ok u)) parts ts ∧
      t = ts.sum.capped

section

variable {fs : FileSystem} {options : Options} {clock : Nat → Instant} {c : Path → Tally}
variable {roots : List Path} {t : Tally}

theorem adds_up (hc : fs.Shares options.follow c) (hlen : 2 ≤ roots.length)
    (h : fs.Counts options clock roots (.ok t)) : fs.AddsUp options clock c roots t := by
  obtain ⟨hshown, rfl, hlasts⟩ := shown_of_counts hc h
  constructor
  · rfl
  · intro r hr hbars
    obtain ⟨s, hs⟩ := hshown r hr
    refine counts_alone hc hs hbars (Plan.Lasts.of_le hlasts ?_)
    have hle := met_le_of_sublist (c := c) (List.singleton_sublist.2 hr)
    rwa [List.map_singleton, List.sum_singleton] at hle
  · intro roots' hperm
    have hsum := (hperm.map c).sum_eq
    rw [← hsum] at hlasts ⊢
    refine counts_of_shown hc (hperm.length_eq ▸ hlen) (fun r hr => ?_) hlasts
    exact hshown r (hperm.mem_iff.1 hr)
  · -- Each part asks the clock for no more than all roots together have asked.
    intro parts hperm hparts
    refine ⟨parts.map fun part => (part.map c).sum.capped, ?_, ?_⟩
    · refine List.forall₂_map_right_iff.2 (List.forall₂_same.2 fun part hpart => ?_)
      have hsub : part.Sublist parts.flatten := List.sublist_flatten_of_mem hpart
      refine counts_of_shown hc (hparts part hpart) (fun r hr => ?_) (Plan.Lasts.of_le hlasts ?_)
      · exact hshown r (hperm.mem_iff.1 (hsub.subset hr))
      · rw [← (hperm.map c).sum_eq]
        exact met_le_of_sublist hsub
    · have hmap : (parts.map fun part => (part.map c).sum.capped) =
          (parts.map fun part => (part.map c).sum).map Tally.capped := by
        rw [List.map_map]
        rfl
      rw [hmap, Tally.capped_sum_capped, ← (hperm.map c).sum_eq, List.map_flatten, List.sum_flatten,
        List.map_map]
      rfl

end

theorem first_unique {A : Path → Prop} {l l' m m' : List Path} {a b : Path}
    (h : l ++ a :: m = l' ++ b :: m') (hl : ∀ x ∈ l, A x) (ha : ¬A a) (hl' : ∀ x ∈ l', A x)
    (hb : ¬A b) : l = l' ∧ a = b := by
  induction l generalizing l' with
  | nil =>
      cases l' with
      | nil => exact ⟨rfl, (List.cons.inj h).1⟩
      | cons x l' =>
          obtain ⟨rfl, -⟩ := List.cons.inj h
          exact absurd (hl' a List.mem_cons_self) ha
  | cons x l ih =>
      cases l' with
      | nil =>
          obtain ⟨rfl, -⟩ := List.cons.inj h
          exact absurd (hl x List.mem_cons_self) hb
      | cons y l' =>
          obtain ⟨rfl, htail⟩ := List.cons.inj h
          obtain ⟨rfl, rfl⟩ := ih htail (List.forall_mem_cons.1 hl).2 (List.forall_mem_cons.1 hl').2
          exact ⟨rfl, rfl⟩

/-- What a count has seen that stops at a root: the roots before it in blocks, and one look at it. -/
def FileSystem.StopsAt (fs : FileSystem) (follow : Bool) (before : List Path) (q : Path)
    (events : List Event) : Prop :=
  ∃ rounds : List (Path × List Event), events = eventsOfRounds rounds ++ [.stat q] ∧
    rounds.map Prod.fst = before ∧ ∀ x ∈ rounds, RootBlock fs follow x.1 x.2

section

variable {fs : FileSystem} {options : Options} {clock : Nat → Instant} {roots : List Path}
variable {fuel : Nat} {r : Report} {o : Outcome}

section

variable (hlen : 2 ≤ roots.length)
variable (hcount : (Plan.ofOptions fs options clock roots).count fuel {} roots = some r)
variable (hend : r.ending = .outcome o)

include hlen hcount hend

theorem through_or_stops : ((∃ t, o = .ok t) ∧ ∀ q ∈ roots, ∃ i, fs.stat q options.follow = .ok i) ∨
    ∃ before q after f, roots = before ++ q :: after ∧
      (∀ p ∈ before, ∃ i, fs.stat p options.follow = .ok i) ∧
      fs.stat q options.follow = .error f ∧ o = .error (.unreadable q f) ∧
      fs.StopsAt options.follow before q r.events := by
  obtain ⟨l, calls, hfinds, hlasts, rfl⟩ := finds_of_outcome hcount hend
  have hlone : (Plan.ofOptions fs options clock roots).lone = false :=
    decide_eq_false (Nat.not_lt.2 hlen)
  have hl := hfinds.shown.2
  have hstat : ∀ p ∈ l.map Prod.fst, ∃ i, fs.stat p options.follow = .ok i := by
    intro p hp
    obtain ⟨x, hx, rfl⟩ := List.mem_map.1 hp
    obtain ⟨i, hi, -⟩ := hl x hx
    exact ⟨i, hi⟩
  rcases hfinds.several hlone with ⟨hroots, rfl⟩ | ⟨q, f, rest, hroots, hf, rfl, rfl⟩
  · exact .inl ⟨⟨_, rfl⟩, hroots ▸ hstat⟩
  · obtain ⟨u, hu, -⟩ := Plan.exists_pace hlasts
    obtain ⟨rounds, hevents, hfst, hblocks⟩ := blocks_roots hl hu
    refine .inr ⟨_, q, rest, f, hroots, hstat, hf, rfl, rounds, ?_, hfst, hblocks⟩
    show eventsOf _ = _
    rw [Plan.tells_lasting hlasts, eventsOf_append, hevents]
    rfl

end

end

/-- Each root adds what it alone tells. A count over several roots that comes to an outcome has
totals exactly if it can look at every root, and those are what its roots add; else it stops at the
first root that it cannot look at, and asks for nothing behind that. -/
theorem count_shares (fs : FileSystem) (follow : Bool) : ∃ c : Path → Tally,
    (∀ options clock q t, options.follow = follow → fs.Counts options clock [q] (.ok t) → c q = t) ∧
    (∀ q f, fs.Bars follow q f → c q = ⟨0, 0, 0, 1⟩ ∧ ∀ options clock, options.follow = follow →
      fs.Counts options clock [q] (.error (.unreadable q f))) ∧
    ∀ options clock roots fuel r o, options.follow = follow → 2 ≤ roots.length →
      (Plan.ofOptions fs options clock roots).count fuel {} roots = some r →
      r.ending = .outcome o →
      ((∃ t, o = .ok t) ↔ ∀ q ∈ roots, ∃ i, fs.stat q follow = .ok i) ∧
      (∀ t, o = .ok t → fs.AddsUp options clock c roots t) ∧
      ∀ before q after f, roots = before ++ q :: after →
        (∀ p ∈ before, ∃ i, fs.stat p follow = .ok i) → fs.stat q follow = .error f →
        o = .error (.unreadable q f) ∧ fs.StopsAt follow before q r.events := by
  obtain ⟨c, hc⟩ := exists_shares fs follow
  refine ⟨c, ?_, ?_, ?_⟩
  · rintro options clock q t rfl h
    obtain ⟨hshown, ht, -⟩ := shown_of_counts hc h
    obtain ⟨s, i, hi, hs⟩ := hshown q List.mem_cons_self
    rw [List.map_singleton, List.sum_singleton, hc q i s hi hs, Tally.capped_capped] at ht
    exact (hc q i s hi hs).trans ht.symm
  · intro q f h
    refine ⟨shares_barred hc h, ?_⟩
    rintro options clock rfl
    exact counts_barred h
  · rintro options clock roots fuel r o rfl hlen hcount hend
    have hlost {p : Path} {g : Fault} (hp : fs.stat p options.follow = .error g) :
        ¬∃ i, fs.stat p options.follow = .ok i := by
      rintro ⟨i, hi⟩
      cases hi.symm.trans hp
    refine ⟨?_, ?_, ?_⟩
    · rcases through_or_stops hlen hcount hend with ⟨hok, hall⟩ | ⟨_, q, _, f, rfl, -, hf, rfl, -⟩
      · exact ⟨fun _ => hall, fun _ => hok⟩
      · constructor
        · rintro ⟨t, ht⟩
          cases ht
        · intro hall
          exact absurd (hall q (List.mem_append_right _ List.mem_cons_self)) (hlost hf)
    · rintro t rfl
      exact adds_up hc hlen ⟨fuel, r, hcount, hend⟩
    · rintro before q after f hroots hbefore hq
      rcases through_or_stops hlen hcount hend with
        ⟨-, hall⟩ | ⟨before', q', after', f', hroots', hbefore', hq', rfl, hstops⟩
      · refine absurd (hall q ?_) (hlost hq)
        rw [hroots]
        exact List.mem_append_right _ List.mem_cons_self
      · obtain ⟨rfl, rfl⟩ := first_unique (hroots.symm.trans hroots') hbefore (hlost hq) hbefore'
          (hlost hq')
        obtain rfl := Except.error.inj (hq.symm.trans hq')
        exact ⟨rfl, hstops⟩

theorem count_shares_varied :
    let roots : List Path := [⟨['/']⟩, ⟨['/', 'y']⟩]
    let clock : Nat → Instant := fun _ => ⟨0⟩
    ∃ (c : Path → Tally) (fuel : Nat) (r : Report),
      (Plan.ofOptions .varied {} clock roots).count fuel {} roots = some r ∧
      r.ending = .outcome (.ok ⟨3, 1, 2, 2⟩) ∧
      c ⟨['/']⟩ = ⟨3, 1, 2, 1⟩ ∧ c ⟨['/', 'y']⟩ = ⟨0, 0, 0, 1⟩ ∧
      FileSystem.varied.AddsUp {} clock c roots ⟨3, 1, 2, 2⟩ := by
  intro roots clock
  have hboth : ((Plan.ofOptions .varied {} clock roots).count 60 {} roots).bind Report.total? =
      some ⟨3, 1, 2, 2⟩ := by decide +kernel
  have hfirst : ((Plan.ofOptions .varied {} clock [⟨['/']⟩]).count 60 {} [⟨['/']⟩]).bind
      Report.total? = some ⟨3, 1, 2, 1⟩ := by decide +kernel
  obtain ⟨r, hcount, ht⟩ := Option.bind_eq_some_iff.1 hboth
  obtain ⟨r', hcount', ht'⟩ := Option.bind_eq_some_iff.1 hfirst
  have hend := Report.total?_eq_some.1 ht
  obtain ⟨c, halone, hbarred, hall⟩ := count_shares .varied false
  have hbars : FileSystem.varied.Bars false ⟨['/', 'y']⟩ (.denied ⟨['/', 'y']⟩) :=
    ⟨⟨_, rfl, rfl⟩, rfl⟩
  refine ⟨c, 60, r, hcount, hend, ?_, (hbarred _ _ hbars).1, ?_⟩
  · exact halone {} clock _ _ rfl ⟨60, r', hcount', Report.total?_eq_some.1 ht'⟩
  · exact (hall {} clock roots 60 r _ rfl (Nat.le_refl 2) hcount hend).2.1 _ rfl

end TreeTally
