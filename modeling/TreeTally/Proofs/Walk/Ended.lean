import TreeTally.Proofs.Walk.Interrupt
import TreeTally.Proofs.Walk.Moments
import TreeTally.Proofs.Walk.Rounds

namespace TreeTally

namespace Walk

variable {P : Plan} {w v : Walk} {k l m n : Nat} {s : Option Signal} {r : Report}

theorem advance_add : (advance P (k + l) w).2 = (advance P l (advance P k w).2).2 := by
  rw [advance_trans (k := k) rfl rfl]

/-- So many steps take the walk to an end, and not to that of its clock. -/
def EndsIn (P : Plan) (m : Nat) (w : Walk) : Prop :=
  ∃ e, (advance P m w).2.stage = .done e ∧ e ≠ .clockOverrun

theorem EndsIn.after (h : EndsIn P m w) (k : Nat) : EndsIn P (m - k) (advance P k w).2 := by
  obtain ⟨e, he, hne⟩ := h
  refine ⟨e, ?_, hne⟩
  rcases Nat.le_total k m with hk | hk
  · rwa [← advance_add, Nat.add_sub_cancel' hk]
  · -- The walk has ended before, and stays where it is.
    obtain ⟨l, rfl⟩ := Nat.exists_eq_add_of_le hk
    have hzero : m - (m + l) = 0 := by omega
    rw [hzero, advance_add, advance_done he]
    exact he

theorem EndsIn.step (h : EndsIn P m w) (hw : w.finished? = none) (hs : w.step P false = (v, s)) :
    ∃ n < m, EndsIn P n v := by
  obtain ⟨e, he, hne⟩ := h
  cases m with
  | zero =>
      have hsome : w.finished? = some e := finished?_eq_some.2 he
      rw [hsome] at hw
      cases hw
  | succ m =>
      rw [advance_succ, hs] at he
      exact ⟨m, Nat.lt_succ_self m, e, he, hne⟩

theorem EndsIn.follows {c : Course} {next : Pace → Walk} (h : EndsIn P m w)
    (hc : Follows P k w c next) : ∃ q, c.pace = some q ∧ EndsIn P (m - k) (next q) := by
  have hafter := h.after k
  rw [Follows] at hc
  cases hp : c.pace with
  | none =>
      rw [hp] at hc
      obtain ⟨v, hv, hd⟩ := hc
      rw [hv] at hafter
      obtain ⟨e, he, hne⟩ := hafter
      rw [advance_done hd] at he
      exact absurd (Stage.done.inj (he.symm.trans hd)) hne
  | some q =>
      rw [hp] at hc
      rw [hc] at hafter
      exact ⟨q, rfl, hafter⟩

theorem exists_met (m : Nat) :
    (∀ (w : Walk) (p : Path) (i : EntryInfo) (home : DeviceId),
      EndsIn P m { w with stage := .inspect p (.ok i) } →
      (w.frames.head?.map (·.device)).getD i.device = home →
      ∃ s : Sight, s.Shown P.fs P.options.follow home p i) ∧
    ∀ (entries : List Listed) (w : Walk) (p : Path) (home : DeviceId),
      EndsIn P m { w with stage := .pull, frames := ⟨p, home, entries⟩ :: w.frames } →
      ∃ s : Sights, s.Shown P.fs P.options.follow home p entries := by
  -- Each step leaves fewer of them to the end, and so does the course through an entry, behind which
  -- the rest of its listing is met.
  induction m using Nat.strongRecOn with
  | ind m ih =>
      constructor
      · intro w p i home h hhome
        have hstep := step_inspect (P := P) (p := p) w hhome
        by_cases hd : home = i.device
        · by_cases hk : i.kind = .folder
          · rw [if_neg (not_not_intro hd), if_pos hk] at hstep
            cases hl : P.fs.list p P.options.follow with
            | error f => exact ⟨.barred f, hd, hk, hl⟩
            | ok entries =>
                rw [hl] at hstep
                have hopen : ({ w with stage := .opened p home (.ok entries) } : Walk).step P false =
                    ({ w with stage := .pull, frames := ⟨p, home, entries⟩ :: w.frames,
                              tally := w.tally.addFolder }, none) := rfl
                obtain ⟨n, hn, h⟩ := h.step rfl hstep
                obtain ⟨n', hn', h⟩ := h.step rfl hopen
                obtain ⟨inside, hin⟩ := (ih n' (by omega)).2 entries
                  { w with tally := w.tally.addFolder } p home h
                exact ⟨.folder inside, hd, hk, entries, hl, hin⟩
          · exact ⟨.leaf i.size, hd, hk, rfl⟩
        · exact ⟨.foreign, hd⟩
      · intro entries w p home h
        cases entries with
        | nil => exact ⟨.nil, trivial⟩
        | cons entry entries =>
            let inner : Walk := { w with frames := ⟨p, home, entries⟩ :: w.frames }
            cases entry with
            | error f =>
                obtain ⟨n, hn, h⟩ := h.step rfl rfl
                have hskip : ({ inner with stage := .received p (.error f) } : Walk).step P false =
                    ({ inner with stage := .pull }, some (.log (.skippedEntry p f))) := rfl
                obtain ⟨n', hn', h⟩ := h.step rfl hskip
                obtain ⟨rest, hrest⟩ := (ih n' (by omega)).2 entries w p home h
                exact ⟨.bad f rest, rfl, hrest⟩
            | ok c =>
                obtain ⟨n, hn, h⟩ := h.step rfl rfl
                have hvisit : ({ inner with stage := .received p (.ok c) } : Walk).step P false =
                    ({ inner with stage := .visit (p.join c.name) (some c.info) }, none) := rfl
                obtain ⟨n', hn', h⟩ := h.step rfl hvisit
                have hinspect : ({ inner with stage := .visit (p.join c.name) (some c.info) } :
                    Walk).step P false =
                    ({ inner with stage := .inspect (p.join c.name) (.ok c.info) }, none) := rfl
                obtain ⟨n'', hn'', h⟩ := h.step rfl hinspect
                obtain ⟨sight, hsight⟩ := (ih n'' (by omega)).1 inner _ _ home h rfl
                have hchild := follows_sight sight inner hsight rfl (.inl (List.cons_ne_nil _ _))
                obtain ⟨q, -, h⟩ := h.follows hchild
                obtain ⟨rest, hrest⟩ := (ih (n'' - sight.cost) (by omega)).2 entries
                  (w.atPace q) p home h
                exact ⟨.entry c.name sight rest, rfl, hsight, hrest⟩

theorem EndsIn.shows_next {roots rest : List Path} {l : List (Path × Sight)} {r : Path} {i : EntryInfo}
    (h : EndsIn P m (start P.options roots)) (hroots : roots = l.map Prod.fst ++ r :: rest)
    (hl : ∀ x ∈ l, P.Shows x.1 x.2 ∧ P.Bears x.2) (hi : P.fs.stat r P.options.follow = .ok i) :
    ∃ s, P.Shows r s := by
  subst hroots
  obtain ⟨n, -, h⟩ := h.step rfl rfl
  obtain ⟨q, -, h⟩ := h.follows (follows_roots l (start P.options (l.map Prod.fst ++ r :: rest))
    (r :: rest) hl)
  let here : Walk := { (start P.options []).atPace q with roots := rest }
  have hvisit : ({ here with stage := .visit r none } : Walk).step P false =
      ({ here with stage := .inspect r (.ok i) }, some (.event (.stat r))) := by
    rw [← hi]
    rfl
  obtain ⟨n', -, h⟩ := h.step rfl hvisit
  obtain ⟨s, hs⟩ := (exists_met n').1 here r i i.device h rfl
  exact ⟨s, i, hi, hs⟩

theorem EndsIn.exists_shown {roots before after : List Path} (h : EndsIn P m (start P.options roots))
    (hlone : P.lone = true → roots.length < 2) (hroots : roots = before ++ after)
    (hstat : ∀ q ∈ before, ∃ i, P.fs.stat q P.options.follow = .ok i) :
    ∃ l : List (Path × Sight), l.map Prod.fst = before ∧ ∀ x ∈ l, P.Shows x.1 x.2 := by
  induction before using List.reverseRecOn generalizing after with
  | nil => exact ⟨[], rfl, nofun⟩
  | append_singleton before r ih =>
      rw [List.append_assoc] at hroots
      obtain ⟨l, rfl, hl⟩ := ih hroots fun q hq => hstat q (List.mem_append_left _ hq)
      have hbears : ∀ x ∈ l, P.Shows x.1 x.2 ∧ P.Bears x.2 := by
        intro x hx
        refine ⟨hl x hx, .inl ?_⟩
        by_contra hP
        have hlen := hlone (by simpa using hP)
        have hpos := List.length_pos_of_mem hx
        rw [hroots] at hlen
        simp only [List.length_append, List.length_map, List.length_cons] at hlen
        omega
      obtain ⟨i, hi⟩ := hstat r (List.mem_append_right _ List.mem_cons_self)
      obtain ⟨s, hs⟩ := h.shows_next hroots hbears hi
      refine ⟨l ++ [(r, s)], by simp, fun x hx => ?_⟩
      rcases List.mem_append.1 hx with hx | hx
      · exact hl x hx
      · obtain rfl := List.mem_singleton.1 hx
        exact hs

theorem Runs.advance {fuel : Nat} (h : Runs P fuel w r) :
    ∃ v, advance P fuel w = (r.signals, v) ∧ v.stage = .done r.ending := by
  induction h with
  | done hd => exact ⟨_, advance_done hd, hd⟩
  | step hw hs hr ih =>
      obtain ⟨u, hu, hd⟩ := ih
      refine ⟨u, ?_, hd⟩
      rw [advance_succ, hs, hu]

/-- A token that is cancelled before the end of a walk is seen in time. -/
theorem drive_stopped {fuel seen : Nat} (h : w.drive P n fuel true seen = some r)
    (hw : w.finished? = none) : ∃ t, r.ending = .outcome (.error (.cancelled t)) := by
  induction fuel generalizing w seen r with
  | zero => cases h
  | succ fuel ih =>
      by_cases hreads : w.stage.readsToken = true
      · have hstop : w.step P true = (w.cancel, none) := by
          rw [step, hreads]
          rfl
        rw [drive_silent hw hstop] at h
        cases fuel with
        | zero => cases h
        | succ fuel =>
            rw [drive_done (e := .outcome (.error (.cancelled w.tally))) rfl] at h
            exact ⟨w.tally, congrArg Report.ending (Option.some.inj h).symm⟩
      · have hpull : w.step P true = w.pull := by
          cases hs : w.stage with
          | pull => simp [step, proceed, hs, Stage.readsToken]
          | done e =>
              rw [finished?, hs] at hw
              cases hw
          | _ =>
              rw [hs] at hreads
              exact absurd rfl hreads
        cases hf : w.frames with
        | nil =>
            have hresume : w.step P true = (w.resume, none) := by rw [hpull, pull, hf]
            rw [drive_silent hw hresume] at h
            exact ih h (resume_unfinished w)
        | cons f fs =>
            obtain ⟨v, e, hv, -, -, ha⟩ := pull_frame hf
            rw [drive_event hw (hpull.trans hv), Bool.true_or] at h
            obtain ⟨r', hr', rfl⟩ := Option.map_eq_some_iff.1 h
            exact ih (r := r') hr' ha.1

theorem drive_alone {fuel seen : Nat} {t : Tally} (h : w.drive P n fuel false seen = some r)
    (hr : r.ending = .outcome (.ok t)) : w.drive P 0 fuel false seen = some r := by
  induction fuel generalizing w seen r with
  | zero => cases h
  | succ fuel ih =>
      cases hw : w.finished? with
      | some e =>
          have hd := finished?_eq_some.1 hw
          rw [drive_done hd] at h ⊢
          exact h
      | none =>
          rcases hs : w.step P false with ⟨v, _ | e | m⟩
          · rw [drive_silent hw hs] at h ⊢
            exact ih h hr
          · rw [drive_event hw hs] at h ⊢
            obtain ⟨r', hr', rfl⟩ := Option.map_eq_some_iff.1 h
            cases hn : seen + 1 == n with
            | false =>
                rw [hn] at hr'
                exact Option.map_eq_some_iff.2 ⟨r', ih hr' hr, rfl⟩
            | true =>
                rw [hn] at hr'
                cases hv : v.finished? with
                | none =>
                    obtain ⟨t', ht'⟩ := drive_stopped hr' hv
                    cases ht'.symm.trans hr
                | some e' =>
                    have hd := finished?_eq_some.1 hv
                    cases fuel with
                    | zero => cases hr'
                    | succ fuel =>
                        rw [drive_done hd] at hr' ⊢
                        rw [hr']
                        rfl
          · rw [drive_log hw hs] at h ⊢
            obtain ⟨r', hr', rfl⟩ := Option.map_eq_some_iff.1 h
            exact Option.map_eq_some_iff.2 ⟨r', ih hr' hr, rfl⟩

end Walk

def Report.total? (r : Report) : Option Tally :=
  match r.ending with
  | .outcome (.ok t) => some t
  | _ => none

theorem Report.total?_eq_some {r : Report} {t : Tally} :
    r.total? = some t ↔ r.ending = .outcome (.ok t) := by
  rw [total?]
  split <;> simp_all

open Walk

variable {P : Plan} {fs : FileSystem} {options : Options} {clock : Nat → Instant}
variable {roots : List Path} {fuel fuel' : Nat} {r r' : Report}

theorem Plan.count_more (h : P.count fuel {} roots = some r) (hlt : fuel < fuel') :
    P.count fuel' {} roots = some r := by
  obtain ⟨v, hv, hd⟩ := (runs_of_drive h).advance
  exact drive_of_advance hv hd hlt

theorem Plan.count_unique (h : P.count fuel {} roots = some r)
    (h' : P.count fuel' {} roots = some r') : r = r' := by
  have hmore := count_more h (Nat.lt_succ_of_le (Nat.le_max_left fuel fuel'))
  rw [count_more h' (Nat.lt_succ_of_le (Nat.le_max_right fuel fuel'))] at hmore
  exact (Option.some.inj hmore).symm

theorem Plan.count_alone {interrupt : Interrupt} {t : Tally}
    (h : P.count fuel interrupt roots = some r) (hr : r.ending = .outcome (.ok t)) :
    P.count fuel {} roots = some r := by
  rw [Plan.count] at h
  cases hb : interrupt.before with
  | true =>
      rw [hb] at h
      obtain ⟨t', ht'⟩ := drive_stopped h rfl
      cases ht'.symm.trans hr
  | false =>
      rw [hb] at h
      exact drive_alone h hr

/-- Left alone, a count of the roots comes to an outcome, be it by another clock. -/
def FileSystem.Finite (fs : FileSystem) (follow : Bool) (roots : List Path) : Prop :=
  ∃ (options : Options) (clock : Nat → Instant) (fuel : Nat) (r : Report) (o : Outcome),
    options.follow = follow ∧
    (Plan.ofOptions fs options clock roots).count fuel {} roots = some r ∧ r.ending = .outcome o

variable {Q : Path → Sight → Prop} {l : List (Path × Sight)} {calls : List Event} {o : Outcome}

theorem Plan.Finds.exists_count (h : P.Finds Q roots l calls o) :
    ∃ n, ∀ fuel, n < fuel → P.count fuel {} roots = some (P.tells l calls o) := by
  cases h with
  | through l h =>
      have hborne : ∀ x ∈ l, P.Shows x.1 x.2 ∧ P.Bears x.2 := fun x hx => ⟨(h x hx).1, (h x hx).2.1⟩
      refine ⟨_, fun fuel hfuel => (count_shown hborne hfuel).trans (congrArg some ?_)⟩
      -- The totals that are handed out are those carried, which is known once the clock has lasted.
      show (P.course l P.outset).report _ = P.tells l [] _
      by_cases hl : P.Lasts (rootsTotal l).met
      · obtain ⟨q, hq, ht⟩ := P.exists_pace hl
        rw [P.tells_lasting hl, Course.report, hq, ← ht]
        rfl
      · rw [Plan.tells, Course.report, Course.report, P.pace_overrun hl]
  | lost l h r f hr rest =>
      have hborne : ∀ x ∈ l, P.Shows x.1 x.2 ∧ P.Bears x.2 := fun x hx => ⟨(h x hx).1, (h x hx).2.1⟩
      exact ⟨_, fun fuel hfuel => count_unshown hborne hr hfuel rest⟩
  | refused r i f hlone hr hk hf _ => exact ⟨5, fun fuel hfuel => count_barred hlone hr hk hf hfuel⟩

theorem Plan.Finds.no_report (h : P.Finds Q roots l calls o) : ∀ e ∈ calls, e.progress? = none := by
  intro e he
  cases h with
  | through l h => cases he
  | lost l h r f hr rest =>
      obtain rfl := List.mem_singleton.1 he
      rfl
  | refused r i f hlone hr hk hf =>
      rcases List.mem_pair.1 he with rfl | rfl <;> rfl

theorem exists_finds_of_count (h : (Plan.ofOptions fs options clock roots).count fuel {} roots = some r)
    (hr : r.ending ≠ .clockOverrun) :
    ∃ l calls o,
      (Plan.ofOptions fs options clock roots).Finds (fun _ _ => True) roots l calls o := by
  obtain ⟨v, hv, hd⟩ := (runs_of_drive h).advance
  have hends : EndsIn (Plan.ofOptions fs options clock roots) fuel (start options roots) :=
    ⟨r.ending, (congrArg (·.2.stage) hv).trans hd, hr⟩
  have hlone : (Plan.ofOptions fs options clock roots).lone = true → roots.length < 2 :=
    of_decide_eq_true
  have hstat : ∀ q ∈ roots, (∃ i, fs.stat q options.follow = .ok i) ∨
      ∃ f, fs.stat q options.follow = .error f := by
    intro q _
    cases fs.stat q options.follow with
    | ok i => exact .inl ⟨i, rfl⟩
    | error f => exact .inr ⟨f, rfl⟩
  rcases all_or_first roots hstat with hall | ⟨before, q, after, hroots, ⟨f, hf⟩, hbefore⟩
  · have hnone := (List.append_nil roots).symm
    obtain ⟨l, hl, hshown⟩ := hends.exists_shown hlone hnone hall
    exact finds_of_shown (hl ▸ hnone) (fun x hx => ⟨hshown x hx, trivial⟩) (.inl rfl)
  · obtain ⟨l, hl, hshown⟩ := hends.exists_shown hlone hroots hbefore
    exact finds_of_shown (hl ▸ hroots) (fun x hx => ⟨hshown x hx, trivial⟩)
      (.inr ⟨q, f, after, rfl, hf⟩)

theorem finds_of_outcome (h : (Plan.ofOptions fs options clock roots).count fuel {} roots = some r)
    (hr : r.ending = .outcome o) : ∃ l calls,
      (Plan.ofOptions fs options clock roots).Finds (fun _ _ => True) roots l calls o ∧
      (Plan.ofOptions fs options clock roots).Lasts (rootsTotal l).met ∧
      r = (Plan.ofOptions fs options clock roots).tells l calls o := by
  obtain ⟨l, calls, o', hfinds⟩ := exists_finds_of_count h (by rw [hr]; exact nofun)
  obtain ⟨n, hcount⟩ := hfinds.exists_count
  obtain rfl := Plan.count_unique h (hcount (n + 1) (Nat.lt_succ_self n))
  obtain ⟨hlasts, rfl⟩ := Plan.lasts_of_tells hr
  exact ⟨l, calls, hfinds, hlasts, rfl⟩

theorem Plan.Finds.shown (h : P.Finds Q roots l calls o) :
    l.map Prod.fst <+: roots ∧ ∀ x ∈ l, P.Shows x.1 x.2 := by
  cases h with
  | through l h => exact ⟨List.prefix_rfl, fun x hx => (h x hx).1⟩
  | lost l h r f hr rest => exact ⟨List.prefix_append _ _, fun x hx => (h x hx).1⟩
  | refused r i f hlone hr hk hf hQ => exact ⟨List.nil_prefix, nofun⟩

/-- A count over several roots either goes through all of them or is lost at one. -/
theorem Plan.Finds.several (h : P.Finds Q roots l calls o) (hlone : P.lone = false) :
    roots = l.map Prod.fst ∧ o = .ok (rootsTotal l).capped ∨
      ∃ q f rest, roots = l.map Prod.fst ++ q :: rest ∧ P.fs.stat q P.options.follow = .error f ∧
        calls = [.stat q] ∧ o = .error (.unreadable q f) := by
  cases h with
  | through l h => exact .inl ⟨rfl, rfl⟩
  | lost l h q f hq rest => exact .inr ⟨q, f, rest, rfl, hq, rfl, rfl⟩
  | refused q i f h => cases hlone.symm.trans h

theorem Plan.Finds.through_of_ok {t : Tally} (h : P.Finds Q roots l calls (.ok t)) :
    roots = l.map Prod.fst ∧ calls = [] ∧ t = (rootsTotal l).capped := by
  cases h with
  | through l h => exact ⟨rfl, rfl, rfl⟩

/-- The plans differ in their clocks and intervals at most. -/
structure Plan.Alike (P P' : Plan) : Prop where
  fs : P'.fs = P.fs
  follow : P'.options.follow = P.options.follow
  lone : P'.lone = P.lone

theorem Plan.Alike.shows {P' : Plan} (hP : P.Alike P') {x : Path × Sight}
    (h : P.Shows x.1 x.2 ∧ P.Bears x.2 ∧ Q x.1 x.2) :
    P'.Shows x.1 x.2 ∧ P'.Bears x.2 ∧ Q x.1 x.2 := by
  rw [Plan.Shows, Plan.Bears, hP.fs, hP.follow, hP.lone]
  exact h

theorem Plan.Finds.alike {P' : Plan} (h : P.Finds Q roots l calls o) (hP : P.Alike P') :
    P'.Finds Q roots l calls o := by
  cases h with
  | through l h => exact .through l fun x hx => hP.shows (h x hx)
  | lost l h r f hr rest =>
      rw [← hP.fs, ← hP.follow] at hr
      exact .lost l (fun x hx => hP.shows (h x hx)) r f hr rest
  | refused r i f hlone hr hk hf hQ =>
      rw [← hP.fs, ← hP.follow] at hr hf
      exact .refused r i f (hP.lone.trans hlone) hr hk hf hQ

theorem FileSystem.Finite.exists_finds {follow : Bool} (h : fs.Finite follow roots) :
    ∃ l calls o, ∀ (options : Options) (clock : Nat → Instant), options.follow = follow →
      (Plan.ofOptions fs options clock roots).Finds (fun _ _ => True) roots l calls o := by
  obtain ⟨options₀, clock₀, fuel, r, o', rfl, hcount, hend⟩ := h
  obtain ⟨l, calls, hfinds, -⟩ := finds_of_outcome hcount hend
  exact ⟨l, calls, o', fun options clock hsame => hfinds.alike ⟨rfl, hsame, rfl⟩⟩

end TreeTally
