import TreeTally.Proofs.Walk.Listings

namespace TreeTally

def eventsOfRounds (rounds : List (Path × List Event)) : List Event :=
  rounds.flatMap fun x => .stat x.1 :: x.2

/-- A round in which listings are asked for as they are in a sight. -/
structure Round (s : Sight) (x : Path × List Event) : Prop where
  no_stat : ∀ p, .stat p ∉ x.2
  lists : x.2.filterMap Event.list? <+: s.lists x.1

variable {P : Plan}

theorem rounds_course (l : List (Path × Sight)) (s : Pace) : ∃ rounds : List (Path × List Event),
    eventsOf (P.course l s).signals = eventsOfRounds rounds ∧
      rounds.map Prod.fst <+: l.map Prod.fst ∧
      ((P.course l s).pace ≠ none → rounds.map Prod.fst = l.map Prod.fst) ∧
      ∀ x ∈ rounds, ∃ sight, (x.1, sight) ∈ l ∧ Round sight x := by
  induction l generalizing s with
  | nil => exact ⟨[], rfl, List.prefix_rfl, fun _ => rfl, nofun⟩
  | cons y l ih =>
      obtain ⟨r, sight⟩ := y
      have hasks := asks_sight P sight r s
      have hround : Round sight (r, eventsOf (sight.course P r s).signals) :=
        ⟨hasks.no_stat, hasks.lists⟩
      cases hp : (sight.course P r s).pace with
      | none =>
          -- The clock overran below this root, and no other root is looked at.
          have hcourse : P.course ((r, sight) :: l) s =
              (sight.course P r s).after [.event (.stat r)] := by
            rw [Plan.course, Course.andThen, hp]
          refine ⟨[(r, eventsOf (sight.course P r s).signals)], ?_, ?_, ?_, ?_⟩
          · rw [hcourse, Course.after, eventsOf_append]
            simp [eventsOfRounds]
          · exact (List.prefix_cons_inj r).2 List.nil_prefix
          · rw [hcourse]
            exact fun hn => absurd hp hn
          · intro x hx
            obtain rfl := List.mem_singleton.1 hx
            exact ⟨sight, List.mem_cons_self, hround⟩
      | some q =>
          obtain ⟨rounds, hevents, hprefix, hall, hrounds⟩ := ih q
          have hcourse : P.course ((r, sight) :: l) s =
              ((P.course l q).after (sight.course P r s).signals).after [.event (.stat r)] := by
            rw [Plan.course, Course.andThen, hp]
          refine ⟨(r, eventsOf (sight.course P r s).signals) :: rounds, ?_, ?_, ?_, ?_⟩
          · rw [hcourse, Course.after, Course.after, eventsOf_append, eventsOf_append, hevents]
            simp [eventsOfRounds]
          · exact (List.prefix_cons_inj r).2 hprefix
          · rw [hcourse]
            exact fun hn => congrArg (r :: ·) (hall hn)
          · intro x hx
            rcases List.mem_cons.1 hx with rfl | hx
            · exact ⟨sight, List.mem_cons_self, hround⟩
            · obtain ⟨sight', hmem, h⟩ := hrounds x hx
              exact ⟨sight', List.mem_cons_of_mem _ hmem, h⟩

theorem exists_zip {β : Type} {Q : Path → β → Prop} (roots : List Path)
    (h : ∀ r ∈ roots, ∃ s, Q r s) :
    ∃ l : List (Path × β), l.map Prod.fst = roots ∧ ∀ x ∈ l, Q x.1 x.2 := by
  induction roots with
  | nil => exact ⟨[], rfl, nofun⟩
  | cons r roots ih =>
      obtain ⟨s, hs⟩ := h r List.mem_cons_self
      obtain ⟨l, hl, hall⟩ := ih fun q hq => h q (List.mem_cons_of_mem _ hq)
      exact ⟨(r, s) :: l, congrArg (r :: ·) hl, List.forall_mem_cons.2 ⟨hs, hall⟩⟩

/-- The sight at a root does not fail the count by itself. -/
def Plan.Bears (P : Plan) (s : Sight) : Prop := P.lone = false ∨ ∀ f, s ≠ .barred f

/-- What a count that is left alone finds, unless its clock overruns: the sights of the roots that it
goes through, the calls that it makes after those, and its outcome. Whatever a root shows, `Q` holds
of it. -/
inductive Plan.Finds (P : Plan) (Q : Path → Sight → Prop) :
    List Path → List (Path × Sight) → List Event → Outcome → Prop
  | through (l : List (Path × Sight)) (h : ∀ x ∈ l, P.Shows x.1 x.2 ∧ P.Bears x.2 ∧ Q x.1 x.2) :
      P.Finds Q (l.map Prod.fst) l [] (.ok (rootsTotal l).capped)
  | lost (l : List (Path × Sight)) (h : ∀ x ∈ l, P.Shows x.1 x.2 ∧ P.Bears x.2 ∧ Q x.1 x.2)
      (r : Path) (f : Fault) (hr : P.fs.stat r P.options.follow = .error f) (rest : List Path) :
      P.Finds Q (l.map Prod.fst ++ r :: rest) l [.stat r] (.error (.unreadable r f))
  | refused (r : Path) (i : EntryInfo) (f : Fault) (hlone : P.lone = true)
      (hr : P.fs.stat r P.options.follow = .ok i) (hk : i.kind = .folder)
      (hf : P.fs.list r P.options.follow = .error f) (hQ : Q r (.barred f)) :
      P.Finds Q [r] [] [.stat r, .list r] (.error (.unreadable r f))

theorem all_or_first {A B : Path → Prop} (roots : List Path) (h : ∀ r ∈ roots, A r ∨ B r) :
    (∀ r ∈ roots, A r) ∨
      ∃ before r after, roots = before ++ r :: after ∧ B r ∧ ∀ q ∈ before, A q := by
  induction roots with
  | nil => exact .inl nofun
  | cons r roots ih =>
      rcases h r List.mem_cons_self with hr | hr
      · have hrest : ∀ q ∈ roots, A q ∨ B q := fun q hq => h q (List.mem_cons_of_mem _ hq)
        rcases ih hrest with hall | ⟨before, q, after, rfl, hq, hbefore⟩
        · exact .inl (List.forall_mem_cons.2 ⟨hr, hall⟩)
        · exact .inr ⟨r :: before, q, after, rfl, hq, List.forall_mem_cons.2 ⟨hr, hbefore⟩⟩
      · exact .inr ⟨[], r, roots, rfl, hr, nofun⟩

theorem exists_barred {fs : FileSystem} {options : Options} {clock : Nat → Instant}
    {l : List (Path × Sight)}
    (h : ¬∀ x ∈ l, (Plan.ofOptions fs options clock (l.map Prod.fst)).Bears x.2) :
    (Plan.ofOptions fs options clock (l.map Prod.fst)).lone = true ∧
      ∃ r f, l = [(r, .barred f)] := by
  obtain ⟨⟨r, s⟩, hx, hs⟩ : ∃ x ∈ l,
      ¬(Plan.ofOptions fs options clock (l.map Prod.fst)).Bears x.2 := by simpa using h
  rw [Plan.Bears, not_or] at hs
  obtain ⟨hlone, hbarred⟩ := hs
  obtain ⟨f, rfl⟩ : ∃ f, s = .barred f := by simpa using hbarred
  refine ⟨by simpa using hlone, r, f, ?_⟩
  have hlen : l.length < 2 := by
    refine Nat.lt_of_not_le fun hlen => hlone ?_
    have hmore : ¬(l.map Prod.fst).length < 2 := by
      rw [List.length_map]
      exact Nat.not_lt.2 hlen
    exact decide_eq_false hmore
  match l, hx, hlen with
  | [y], hx, _ => rw [List.mem_singleton.1 hx]

theorem finds_of_shown {Q : Path → Sight → Prop} {fs : FileSystem} {options : Options}
    {clock : Nat → Instant} {roots rest : List Path} {l : List (Path × Sight)}
    (hroots : roots = l.map Prod.fst ++ rest)
    (h : ∀ x ∈ l, (Plan.ofOptions fs options clock roots).Shows x.1 x.2 ∧ Q x.1 x.2)
    (hrest : rest = [] ∨ ∃ r f after, rest = r :: after ∧ fs.stat r options.follow = .error f) :
    ∃ l calls o, (Plan.ofOptions fs options clock roots).Finds Q roots l calls o := by
  rcases hrest with rfl | ⟨r, f, after, rfl, hf⟩
  · rw [List.append_nil] at hroots
    subst hroots
    by_cases hbears : ∀ x ∈ l, (Plan.ofOptions fs options clock (l.map Prod.fst)).Bears x.2
    · exact ⟨l, _, _, .through l fun x hx => ⟨(h x hx).1, hbears x hx, (h x hx).2⟩⟩
    · obtain ⟨hlone, r, f, rfl⟩ := exists_barred hbears
      obtain ⟨⟨i, hi, -, hk, hlist⟩, hQ⟩ := h _ List.mem_cons_self
      exact ⟨_, _, _, .refused r i f hlone hi hk hlist hQ⟩
  · subst hroots
    refine ⟨l, _, _, .lost l (fun x hx => ?_) r f hf after⟩
    refine ⟨(h x hx).1, .inl (decide_eq_false ?_), (h x hx).2⟩
    have hpos := List.length_pos_of_mem hx
    simp only [List.length_append, List.length_cons, List.length_map]
    omega

theorem finds_of_sights {Q : Path → Sight → Prop} (fs : FileSystem) (options : Options)
    (clock : Nat → Instant) (roots : List Path)
    (h : ∀ r ∈ roots, ∀ i, fs.stat r options.follow = .ok i →
      ∃ s : Sight, s.Shown fs options.follow i.device r i ∧ Q r s) :
    ∃ l calls o, (Plan.ofOptions fs options clock roots).Finds Q roots l calls o := by
  have hsights : ∀ r ∈ roots, (∃ s, (Plan.ofOptions fs options clock roots).Shows r s ∧ Q r s) ∨
      ∃ f, fs.stat r options.follow = .error f := by
    intro r hr
    cases hstat : fs.stat r options.follow with
    | error f => exact .inr ⟨f, rfl⟩
    | ok i =>
        obtain ⟨s, hs, hQ⟩ := h r hr i hstat
        exact .inl ⟨s, ⟨i, hstat, hs⟩, hQ⟩
  rcases all_or_first roots hsights with hall | ⟨before, r, after, rfl, ⟨f, hf⟩, hbefore⟩
  · obtain ⟨l, rfl, hl⟩ := exists_zip roots hall
    exact finds_of_shown (List.append_nil _).symm hl (.inl rfl)
  · obtain ⟨l, rfl, hl⟩ := exists_zip before hbefore
    exact finds_of_shown rfl hl (.inr ⟨r, f, after, rfl, hf⟩)

/-- A count of some roots that has come to its end, in rounds. -/
structure Plan.Completes (P : Plan) (Q : Path → Sight → Prop) (roots : List Path) (r : Report) :
    Prop where
  ending : (∃ o, r.ending = .outcome o) ∨ r.ending = .clockOverrun ∧ P.Overruns
  rounds : ∃ rounds last, r.events = eventsOfRounds rounds ++ last ∧
    (∀ e ∈ last, ∃ t, e = .progress t) ∧ rounds.map Prod.fst <+: roots ∧
    ∀ x ∈ rounds, x.2 = [] ∨ ∃ s, Q x.1 s ∧ Round s x
  total : ∀ t, r.ending = .outcome (.ok t) → ∃ l : List (Path × Sight),
    l.map Prod.fst = roots ∧ (∀ x ∈ l, Q x.1 x.2) ∧ t = (rootsTotal l).capped

theorem rootsCost_le {l : List (Path × Sight)} {bound : Nat} (h : ∀ x ∈ l, x.2.cost + 1 ≤ bound) :
    rootsCost l ≤ l.length * bound := by
  induction l with
  | nil => exact Nat.zero_le _
  | cons x l ih =>
      obtain ⟨hx, hl⟩ := List.forall_mem_cons.1 h
      have hrest := ih hl
      rw [rootsCost] at hrest ⊢
      rw [List.map_cons, List.sum_cons, List.length_cons, Nat.succ_mul]
      omega

theorem folders_rootsTotal_le {l : List (Path × Sight)} {bound : Nat}
    (h : ∀ x ∈ l, x.2.total.folders ≤ bound) : (rootsTotal l).folders ≤ l.length * bound := by
  induction l with
  | nil => exact Nat.zero_le _
  | cons x l ih =>
      obtain ⟨hx, hl⟩ := List.forall_mem_cons.1 h
      have hrest := ih hl
      rw [rootsTotal] at hrest ⊢
      rw [List.map_cons, List.sum_cons, Tally.folders_add, List.length_cons, Nat.succ_mul]
      omega

variable {Q : Path → Sight → Prop} {roots : List Path}

theorem completes_of_course {l : List (Path × Sight)} {rest : List Path}
    {close : Pace → Report} (h : ∀ x ∈ l, Q x.1 x.2) (hroots : roots = l.map Prod.fst ++ rest)
    (hclose : ∀ s : Pace, s.tally = (rootsTotal l).capped →
      (∃ o, (close s).ending = .outcome o) ∧
      (∃ asked last, (close s).events = eventsOfRounds (asked.map (·, [])) ++ last ∧
        (∀ e ∈ last, ∃ t, e = .progress t) ∧ asked <+: rest) ∧
      ∀ t, (close s).ending = .outcome (.ok t) → rest = [] ∧ t = s.tally) :
    P.Completes Q roots
      ((P.course l ⟨{}, ⟨P.options.interval, none⟩, 0⟩).report close) := by
  have hgains : (P.course l ⟨{}, ⟨P.options.interval, none⟩, 0⟩).Gains P (0 + rootsTotal l) :=
    gains_roots _ rfl rfl
  rw [zero_add, Course.Gains] at hgains
  obtain ⟨rounds, hevents, hprefix, hall, hrounds⟩ :=
    rounds_course (P := P) l ⟨{}, ⟨P.options.interval, none⟩, 0⟩
  have hround : ∀ x ∈ rounds, x.2 = [] ∨ ∃ s, Q x.1 s ∧ Round s x := by
    intro x hx
    obtain ⟨sight, hmem, hround⟩ := hrounds x hx
    exact .inr ⟨sight, h _ hmem, hround⟩
  rw [Course.report]
  cases hp : (P.course l ⟨{}, ⟨P.options.interval, none⟩, 0⟩).pace with
  | none =>
      rw [hp] at hgains
      refine ⟨.inr ⟨rfl, hgains⟩, ⟨rounds, [], ?_, List.forall_mem_nil _, ?_, hround⟩, ?_⟩
      · exact hevents.trans (List.append_nil _).symm
      · exact hroots ▸ hprefix.trans (List.prefix_append _ _)
      · intro t ht
        cases ht
  | some s =>
      rw [hp] at hgains hall
      obtain ⟨hending, ⟨asked, last, hclosing, hlast, hasked⟩, htotal⟩ := hclose s hgains.1
      refine ⟨.inl hending, ⟨rounds ++ asked.map (·, []), last, ?_, hlast, ?_, ?_⟩, ?_⟩
      · show eventsOf (_ ++ _) = _
        rw [eventsOf_append, hevents, show eventsOf (close s).signals = _ from hclosing,
          ← List.append_assoc, eventsOfRounds, eventsOfRounds, eventsOfRounds, List.flatMap_append]
      · have hfst : (asked.map (fun r => (r, ([] : List Event)))).map Prod.fst = asked := by
          simp [Function.comp_def]
        rw [List.map_append, hall (Option.some_ne_none s), hfst, hroots]
        exact (List.prefix_append_right_inj _).2 hasked
      · intro x hx
        rcases List.mem_append.1 hx with hx | hx
        · exact hround x hx
        · obtain ⟨r, -, rfl⟩ := List.mem_map.1 hx
          exact .inl rfl
      · intro t ht
        obtain ⟨hrest, rfl⟩ := htotal t ht
        refine ⟨l, ?_, h, hgains.1⟩
        rw [hroots, hrest, List.append_nil]

theorem Plan.Finds.completes {l : List (Path × Sight)} {calls : List Event} {o : Outcome}
    (h : P.Finds Q roots l calls o) {bound : Nat}
    (hcost : ∀ r s, Q r s → s.cost + 1 ≤ bound) : ∃ r,
      (∀ fuel, roots.length * bound + 5 < fuel → P.count fuel {} roots = some r) ∧
        P.Completes Q roots r := by
  cases h with
  | through l h =>
      have hle : rootsCost l ≤ l.length * bound := rootsCost_le fun x hx => hcost _ _ (h x hx).2.2
      refine ⟨_, fun fuel hfuel => count_shown (fun x hx => ⟨(h x hx).1, (h x hx).2.1⟩) ?_, ?_⟩
      · rw [List.length_map] at hfuel
        omega
      · refine completes_of_course (fun x hx => (h x hx).2.2) (List.append_nil _).symm fun s _ => ?_
        refine ⟨⟨_, rfl⟩, ⟨[], [.progress s.tally], rfl, ?_, List.nil_prefix⟩, ?_⟩
        · exact fun e he => ⟨_, List.mem_singleton.1 he⟩
        · intro t ht
          cases ht
          exact ⟨rfl, rfl⟩
  | lost l h r f hr rest =>
      have hle : rootsCost l ≤ l.length * bound := rootsCost_le fun x hx => hcost _ _ (h x hx).2.2
      refine ⟨_, fun fuel hfuel =>
        count_unshown (fun x hx => ⟨(h x hx).1, (h x hx).2.1⟩) hr ?_ rest, ?_⟩
      · rw [List.length_append, List.length_map, Nat.add_mul] at hfuel
        omega
      · refine completes_of_course (fun x hx => (h x hx).2.2) rfl fun s _ => ?_
        refine ⟨⟨_, rfl⟩, ⟨[r], [], rfl, nofun, ?_⟩, nofun⟩
        exact (List.prefix_cons_inj r).2 List.nil_prefix
  | refused r i f hlone hr hk hf hQ =>
      refine ⟨_, fun fuel hfuel => count_barred hlone hr hk hf (by omega), .inl ⟨_, rfl⟩,
        ⟨[(r, [.list r])], [], rfl, nofun, List.prefix_rfl, ?_⟩, nofun⟩
      intro x hx
      obtain rfl := List.mem_singleton.1 hx
      exact .inr ⟨.barred f, hQ, fun p hp => by simp at hp, List.prefix_rfl⟩

end TreeTally
