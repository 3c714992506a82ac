import TreeTally.Proofs.Throttle
import TreeTally.Proofs.Walk.Roots

namespace TreeTally

mutual

/-- The totals at the moments of a sight, where `t` was counted before it. -/
def Sight.moments : Sight → Tally → List Tally
  | .foreign, _ | .leaf _, _ => []
  | .barred f, t => [(t + (Sight.barred f).total).capped]
  | .folder inside, t =>
      inside.moments (t + ⟨0, 0, 1, 0⟩) ++ [(t + (Sight.folder inside).total).capped]

def Sights.moments : Sights → Tally → List Tally
  | .nil, _ => []
  | .bad _ rest, t => rest.moments t
  | .entry _ sight rest, t => sight.moments t ++ rest.moments (t + sight.total)

end

mutual

def Sight.calls : Sight → Path → List Event
  | .foreign, _ | .leaf _, _ => []
  | .barred _, p => [.list p]
  | .folder inside, p => .list p :: inside.calls p

def Sights.calls : Sights → Path → List Event
  | .nil, p => [.finish p]
  | .bad f rest, p => .bad p f :: rest.calls p
  | .entry n sight rest, p => .child p n :: (sight.calls (p.join n) ++ rest.calls p)

end

def rootsMoments : List (Path × Sight) → Tally → List Tally
  | [], _ => []
  | (_, sight) :: l, t => sight.moments t ++ rootsMoments l (t + sight.total)

def rootsCalls (l : List (Path × Sight)) : List Event :=
  l.flatMap fun x => .stat x.1 :: x.2.calls x.1

def Tally.met (t : Tally) : Nat := t.folders + t.unreadable

theorem Tally.met_add (t u : Tally) : (t + u).met = t.met + u.met := by
  simp only [met, folders_add, unreadable_add]
  omega

theorem Tally.met_capped {t : Tally} : t.capped.met = t.met := rfl

mutual

theorem Sight.length_moments : ∀ (s : Sight) (t : Tally), (s.moments t).length = s.total.met
  | .foreign, _ | .leaf _, _ | .barred _, _ => rfl
  | .folder inside, t => by
      have hinside := inside.length_moments (t + ⟨0, 0, 1, 0⟩)
      rw [Sight.moments, Sight.total, List.length_append, hinside, Tally.met_add, Nat.add_comm]
      rfl

theorem Sights.length_moments : ∀ (s : Sights) (t : Tally), (s.moments t).length = s.total.met
  | .nil, _ => rfl
  | .bad _ rest, t => rest.length_moments t
  | .entry _ sight rest, t => by
      have hsight := sight.length_moments t
      have hrest := rest.length_moments (t + sight.total)
      rw [Sights.moments, Sights.total, List.length_append, hsight, hrest, Tally.met_add]

end

theorem length_rootsMoments (l : List (Path × Sight)) (t : Tally) :
    (rootsMoments l t).length = (rootsTotal l).met := by
  induction l generalizing t with
  | nil => rfl
  | cons x l ih =>
      obtain ⟨r, sight⟩ := x
      rw [rootsMoments, List.length_append, sight.length_moments, ih, ← Tally.met_add]
      rfl

/-- A course with these moments and these calls, which sets out with some throttle and so many readings
of the clock, and has counted `t` when it gets to its end. -/
structure Course.Paced (P : Plan) (th : Throttle) (n : Nat) (t : Tally) (moments : List Tally)
    (calls : List Event) (c : Course) : Prop where
  pace : c.pace = (th.asked P.clock n moments.length).map fun th' =>
    ⟨t.capped, th', n + moments.length⟩
  snapshots : snapshotsOf c.signals = th.passes P.clock n moments
  heard : c.pace ≠ none → heardOf c.signals = calls

namespace Course.Paced

variable {P : Plan} {s : Pace} {th : Throttle} {n : Nat} {t u : Tally} {ms ms' : List Tally}
variable {es es' : List Event} {c : Course} {f : Pace → Course} {l : List Signal}

theorem idle (ht : s.tally = t.capped) (hl : snapshotsOf l = []) (hes : heardOf l = es) :
    Course.Paced P s.throttle s.readings t [] es ⟨l, some s⟩ := by
  refine ⟨?_, hl, fun _ => hes⟩
  rw [← ht]
  rfl

theorem after (h : c.Paced P th n t ms es) (hl : snapshotsOf l = [])
    (hes : heardOf l ++ es = es') : (c.after l).Paced P th n t ms es' := by
  refine ⟨h.pace, ?_, fun hc => ?_⟩
  · rw [Course.after, snapshotsOf_append, hl]
    exact h.snapshots
  · rw [Course.after, heardOf_append, h.heard hc, hes]

theorem andThen (h : c.Paced P th n t ms es)
    (h' : ∀ q : Pace, q.tally = t.capped → (f q).Paced P q.throttle q.readings u ms' es') :
    (c.andThen f).Paced P th n u (ms ++ ms') (es ++ es') := by
  have hpace := h.pace
  have hsnapshots := h.snapshots
  rw [Course.andThen]
  cases hasked : th.asked P.clock n ms.length with
  | none =>
      -- The clock overruns on the first stretch, and there is no second.
      rw [hasked] at hpace
      rw [hpace]
      constructor
      · rw [List.length_append, Throttle.asked_add, hasked]
        exact hpace
      · rw [Throttle.passes_append, hasked]
        exact hsnapshots.trans (List.append_nil _).symm
      · exact fun hc => absurd hpace hc
  | some th' =>
      rw [hasked] at hpace
      have hrest := h' ⟨t.capped, th', n + ms.length⟩ rfl
      have hheard : heardOf c.signals = es := h.heard (by rw [hpace]; exact Option.some_ne_none _)
      rw [hpace]
      constructor
      · rw [List.length_append, Throttle.asked_add, hasked, ← Nat.add_assoc]
        exact hrest.pace
      · rw [Throttle.passes_append, hasked]
        exact (snapshotsOf_append _ _).trans (congrArg₂ _ hsnapshots hrest.snapshots)
      · intro hc
        exact (heardOf_append _ _).trans (congrArg₂ _ hheard (hrest.heard hc))

end Course.Paced

variable {P : Plan} {s : Pace} {t : Tally}

theorem paced_leave (ht : s.tally = t.capped) :
    (P.leave s).Paced P s.throttle s.readings t [t.capped] [] := by
  rw [Plan.leave, ← ht]
  rcases hready : s.throttle.ready? (P.clock s.readings) with ⟨answer, throttle⟩
  cases answer with
  | none => constructor <;> simp [Throttle.asked, Throttle.passes, hready, snapshotsOf]
  | some report =>
      cases report with
      | true =>
          constructor <;>
            simp [Throttle.asked, Throttle.passes, hready, snapshotsOf, heardOf, Event.progress?, ht]
      | false =>
          constructor <;> simp [Throttle.asked, Throttle.passes, hready, snapshotsOf, heardOf, ht]

mutual

theorem paced_sight : ∀ (sight : Sight) {t : Tally} {p : Path} (s : Pace), s.tally = t.capped →
    (sight.course P p s).Paced P s.throttle s.readings (t + sight.total) (sight.moments t)
      (sight.calls p)
  | .foreign, t, p, s, ht => .idle (s := s) (ht.trans (congrArg _ (add_zero t).symm)) rfl rfl
  | .leaf n, t, p, s, ht => by
      have hfile : s.tally.addFile n = (t + ⟨n, 1, 0, 0⟩).capped := by
        rw [ht, Tally.addFile_capped]
      exact .idle (s := { s with tally := s.tally.addFile n }) hfile rfl rfl
  | .barred f, t, p, s, ht => by
      refine (paced_leave (s := { s with tally := s.tally.addUnreadable }) ?_).after rfl rfl
      rw [ht, Tally.addUnreadable_capped]
      rfl
  | .folder inside, t, p, s, ht => by
      have hopen : s.tally.addFolder = (t + ⟨0, 0, 1, 0⟩).capped := by
        rw [ht, Tally.addFolder_capped]
      have hinside := paced_sights inside (p := p) { s with tally := s.tally.addFolder } hopen
      rw [add_assoc] at hinside
      refine (hinside.andThen fun q hq => paced_leave hq).after rfl ?_
      rw [List.append_nil]
      rfl

theorem paced_sights : ∀ (sights : Sights) {t : Tally} {p : Path} (s : Pace), s.tally = t.capped →
    (sights.course P p s).Paced P s.throttle s.readings (t + sights.total) (sights.moments t)
      (sights.calls p)
  | .nil, t, p, s, ht => .idle (s := s) (ht.trans (congrArg _ (add_zero t).symm)) rfl rfl
  | .bad f rest, t, p, s, ht => (paced_sights rest s ht).after rfl rfl
  | .entry n sight rest, t, p, s, ht => by
      rw [Sights.total, ← add_assoc]
      exact ((paced_sight sight s ht).andThen fun q hq => paced_sights rest q hq).after rfl rfl

end

theorem paced_roots (l : List (Path × Sight)) (s : Pace) (ht : s.tally = t.capped) :
    (P.course l s).Paced P s.throttle s.readings (t + rootsTotal l) (rootsMoments l t)
      (rootsCalls l) := by
  induction l generalizing s t with
  | nil => exact .idle (ht.trans (congrArg _ (add_zero t).symm)) rfl rfl
  | cons x l ih =>
      obtain ⟨r, sight⟩ := x
      rw [rootsTotal, List.map_cons, List.sum_cons, ← add_assoc]
      exact ((paced_sight sight s ht).andThen fun q hq => ih q hq).after rfl rfl

def Plan.outset (P : Plan) : Pace := ⟨{}, ⟨P.options.interval, none⟩, 0⟩

/-- The clock has room for so many questions to the throttle of a count. -/
def Plan.Lasts (P : Plan) (n : Nat) : Prop := P.outset.throttle.asked P.clock 0 n ≠ none

theorem Plan.Lasts.of_le {m n : Nat} (h : P.Lasts n) (hm : m ≤ n) : P.Lasts m :=
  Throttle.asked_of_le h hm

/-- The totals at which a count reports, of those it has at some moments. -/
def Plan.chosen (P : Plan) (moments : List Tally) : List Tally :=
  P.outset.throttle.passes P.clock 0 moments

def Outcome.closing : Outcome → List Tally
  | .ok t => [t]
  | .error _ => []

/-- The report of a count that goes through some roots, makes some more calls and has an outcome. -/
def Plan.tells (P : Plan) (l : List (Path × Sight)) (calls : List Event) (o : Outcome) : Report :=
  (P.course l P.outset).report fun _ =>
    ⟨calls.map .event ++ o.closing.map fun t => .event (.progress t), .outcome o⟩

section

variable {l : List (Path × Sight)} {calls : List Event} {o : Outcome}

theorem Plan.paced (P : Plan) (l : List (Path × Sight)) : (P.course l P.outset).Paced P
    P.outset.throttle 0 (rootsTotal l) (rootsMoments l 0) (rootsCalls l) := by
  have h := paced_roots (P := P) l P.outset (t := 0) rfl
  rwa [zero_add] at h

theorem Plan.exists_pace (h : P.Lasts (rootsTotal l).met) :
    ∃ q, (P.course l P.outset).pace = some q ∧ q.tally = (rootsTotal l).capped := by
  obtain ⟨th, hth⟩ := Option.ne_none_iff_exists'.1 h
  have hpace := (P.paced l).pace
  rw [length_rootsMoments, hth] at hpace
  exact ⟨_, hpace, rfl⟩

theorem Plan.pace_overrun (h : ¬P.Lasts (rootsTotal l).met) :
    (P.course l P.outset).pace = none := by
  rw [(P.paced l).pace, length_rootsMoments, not_not.1 h]
  rfl

theorem Plan.tells_lasting (h : P.Lasts (rootsTotal l).met) : P.tells l calls o =
    ⟨(P.course l P.outset).signals ++ (calls.map .event ++
      o.closing.map fun t => .event (.progress t)), .outcome o⟩ := by
  obtain ⟨q, hq, -⟩ := P.exists_pace h
  rw [Plan.tells, Course.report, hq]

theorem Plan.tells_overrun (h : ¬P.Lasts (rootsTotal l).met) :
    (P.tells l calls o).ending = .clockOverrun := by
  rw [Plan.tells, Course.report, P.pace_overrun h]

theorem eventsOf_calls (calls : List Event) : eventsOf (calls.map .event) = calls := by
  rw [eventsOf, List.filterMap_map]
  exact List.filterMap_some

theorem eventsOf_closing (ts : List Tally) :
    eventsOf (ts.map fun t => .event (.progress t)) = ts.map .progress := by
  have h := eventsOf_calls (ts.map .progress)
  rwa [List.map_map] at h

theorem Plan.tells_events (h : P.Lasts (rootsTotal l).met)
    (hcalls : ∀ e ∈ calls, e.progress? = none) :
    heardOf (P.tells l calls o).signals = rootsCalls l ++ calls ∧
      (P.tells l calls o).snapshots = P.chosen (rootsMoments l 0) ++ o.closing := by
  have hpaced := P.paced l
  obtain ⟨q, hq, -⟩ := P.exists_pace h
  have hheard := hpaced.heard (by rw [hq]; exact Option.some_ne_none q)
  have hsnapshots := hpaced.snapshots
  rw [P.tells_lasting h]
  constructor
  · rw [heardOf_append, heardOf_append, hheard, heardOf, heardOf, eventsOf_calls, eventsOf_closing,
      List.filter_eq_self.2 fun e he => by rw [hcalls e he]; rfl, List.filter_map]
    simp [Function.comp_def, Event.progress?]
  · show snapshotsOf _ = _
    rw [snapshotsOf_append, snapshotsOf_append, hsnapshots, snapshotsOf, snapshotsOf, eventsOf_calls,
      eventsOf_closing, List.filterMap_eq_nil_iff.2 hcalls, List.filterMap_map]
    exact congrArg (P.chosen _ ++ ·) List.filterMap_some

theorem Plan.lasts_of_tells {o' : Outcome} (h : (P.tells l calls o).ending = .outcome o') :
    P.Lasts (rootsTotal l).met ∧ o' = o := by
  by_cases hl : P.Lasts (rootsTotal l).met
  · rw [P.tells_lasting hl] at h
    exact ⟨hl, (Ending.outcome.inj h).symm⟩
  · rw [P.tells_overrun hl] at h
    cases h

end

end TreeTally
