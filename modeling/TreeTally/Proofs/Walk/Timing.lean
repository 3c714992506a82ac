import TreeTally.Proofs.Walk.Accounts
import TreeTally.Proofs.Walk.Growth

namespace TreeTally

open Walk

/-- A count by a clock that lasts. It reports the moments that its throttle lets pass, and once more
at a good end. -/
structure Plan.Reports (P : Plan) (roots : List Path) (l : List (Path × Sight)) (calls : List Event)
    (o : Outcome) (r : Report) : Prop where
  shown : l.map Prod.fst <+: roots ∧ ∀ x ∈ l, P.Shows x.1 x.2
  through : ∀ t, o = .ok t → l.map Prod.fst = roots
  ending : r.ending = .outcome o
  heard : heardOf r.signals = rootsCalls l ++ calls
  snapshots : r.snapshots = P.chosen (rootsMoments l 0) ++ o.closing
  rising : r.snapshots.Pairwise (· ≤ ·)
  sublist : (P.chosen (rootsMoments l 0)).Sublist (rootsMoments l 0).tail
  at_once : P.options.interval = ⟨0⟩ → P.chosen (rootsMoments l 0) = (rootsMoments l 0).tail
  number : ∀ t, o = .ok t → P.options.interval = ⟨0⟩ → r.snapshots.length = max 1 t.met
  last : ∀ t, o = .ok t → ∃ before, r.signals = before ++ [.event (.progress t)] ∧
    snapshotsOf before = P.chosen (rootsMoments l 0)

theorem Plan.lasts_of_roomy (P : Plan) (h : Roomy P.clock P.options.interval) (n : Nat) : P.Lasts n := by
  obtain ⟨t, ht⟩ := Throttle.exists_asked (t := P.outset.throttle) h 0 n
  rw [Plan.Lasts, ht]
  exact Option.some_ne_none t

variable {fs : FileSystem} {follow : Bool} {roots : List Path}

/-- A finite traversal finds the same, asks the same questions and ends alike by every clock and at
every interval. -/
theorem count_paced (h : fs.Finite follow roots) :
    ∃ l calls o, ∀ (options : Options) (clock : Nat → Instant), options.follow = follow →
      (∀ k, clock k ≤ clock (k + 1)) → Roomy clock options.interval →
      let P := Plan.ofOptions fs options clock roots
      ∃ fuel r, P.count fuel {} roots = some r ∧ P.Reports roots l calls o r := by
  obtain ⟨l, calls, o, hfinds⟩ := h.exists_finds
  refine ⟨l, calls, o, fun options clock hsame hmono hroom => ?_⟩
  intro P
  have hP : P.Finds (fun _ _ => True) roots l calls o := hfinds options clock hsame
  obtain ⟨n, hcount⟩ := hP.exists_count
  have hrun := hcount (n + 1) (Nat.lt_succ_self n)
  have hlasts := P.lasts_of_roomy hroom (rootsTotal l).met
  obtain ⟨hheard, hsnapshots⟩ := P.tells_events (o := o) hlasts hP.no_report
  have hat_once (hzero : P.options.interval = ⟨0⟩) :
      P.chosen (rootsMoments l 0) = (rootsMoments l 0).tail :=
    Throttle.passes_at_once (t := P.outset.throttle) hzero (hzero ▸ hroom) hmono rfl
  refine ⟨n + 1, _, hrun, ?_⟩
  constructor
  · exact hP.shown
  · rintro t rfl
    exact hP.through_of_ok.1.symm
  · rw [P.tells_lasting hlasts]
  · exact hheard
  · exact hsnapshots
  · obtain ⟨v, hv, -⟩ := (runs_of_drive hrun).advance
    exact ((tracks_start options roots).advance hv).rising
  · exact Throttle.passes_unarmed (t := P.outset.throttle) rfl
  · exact hat_once
  · rintro t rfl hzero
    obtain ⟨-, -, rfl⟩ := hP.through_of_ok
    rw [hsnapshots, hat_once hzero, List.length_append, List.length_tail, length_rootsMoments,
      Tally.met_capped]
    show _ + 1 = _
    omega
  · rintro t rfl
    obtain ⟨-, rfl, -⟩ := hP.through_of_ok
    refine ⟨(P.course l P.outset).signals, ?_, (P.paced l).snapshots⟩
    rw [P.tells_lasting hlasts]
    rfl

/-- Two roots by a clock that stops at its third reading, first without an interval and then with one
of two units. -/
theorem count_paced_varied :
    let roots : List Path := [⟨['/']⟩, ⟨['/', 'y']⟩]
    let clock : Nat → Instant := fun k => ⟨(min k 3 : Nat)⟩
    let P : Duration → Plan := fun d => Plan.ofOptions .varied { interval := d } clock roots
    FileSystem.varied.Finite false roots ∧ (∀ k, clock k ≤ clock (k + 1)) ∧
      (∀ d ∈ [⟨0⟩, ⟨2⟩], Roomy clock d) ∧
      ∃ l calls,
        (∃ fuel r, (P ⟨0⟩).count fuel {} roots = some r ∧
          (P ⟨0⟩).Reports roots l calls (.ok ⟨3, 1, 2, 2⟩) r ∧
          r.snapshots = [⟨0, 0, 2, 1⟩, ⟨3, 1, 2, 1⟩, ⟨3, 1, 2, 2⟩, ⟨3, 1, 2, 2⟩]) ∧
        ∃ fuel r, (P ⟨2⟩).count fuel {} roots = some r ∧
          (P ⟨2⟩).Reports roots l calls (.ok ⟨3, 1, 2, 2⟩) r ∧
          r.snapshots = [⟨3, 1, 2, 1⟩, ⟨3, 1, 2, 2⟩] := by
  intro roots clock P
  have hmono : ∀ k, clock k ≤ clock (k + 1) := fun k => by
    show ((min k 3 : Nat) : Int) ≤ (min (k + 1) 3 : Nat)
    omega
  have hroom : ∀ d ∈ [(⟨0⟩ : Duration), ⟨2⟩], Roomy clock d := by
    intro d hd k
    have hle : d.nanos ≤ 2 := by
      rcases List.mem_pair.1 hd with rfl | rfl
      · exact Nat.zero_le 2
      · exact Nat.le_refl 2
    rw [Instant.add?, if_pos]
    · exact Option.some_ne_none _
    · show ((min k 3 : Nat) : Int) + d.nanos < 9223372036854775808 * 1000000000
      omega
  have hzero : ((P ⟨0⟩).count 60 {} roots).map (fun r => (r.total?, r.snapshots)) =
      some (some ⟨3, 1, 2, 2⟩,
        [⟨0, 0, 2, 1⟩, ⟨3, 1, 2, 1⟩, ⟨3, 1, 2, 2⟩, ⟨3, 1, 2, 2⟩]) := by decide +kernel
  have htwo : ((P ⟨2⟩).count 60 {} roots).map (fun r => (r.total?, r.snapshots)) =
      some (some ⟨3, 1, 2, 2⟩, [⟨3, 1, 2, 1⟩, ⟨3, 1, 2, 2⟩]) := by decide +kernel
  obtain ⟨r₀, hcount₀, hr₀⟩ := Option.map_eq_some_iff.1 hzero
  obtain ⟨r₂, hcount₂, hr₂⟩ := Option.map_eq_some_iff.1 htwo
  obtain ⟨ht₀, hs₀⟩ := Prod.mk.inj hr₀
  obtain ⟨-, hs₂⟩ := Prod.mk.inj hr₂
  have hend₀ := Report.total?_eq_some.1 ht₀
  have hfinite : FileSystem.varied.Finite false roots :=
    ⟨{ interval := ⟨0⟩ }, clock, 60, r₀, _, rfl, hcount₀, hend₀⟩
  obtain ⟨l, calls, o, h⟩ := count_paced hfinite
  obtain ⟨n₀, s₀, hrun₀, hreports₀⟩ := h { interval := ⟨0⟩ } clock rfl hmono (hroom _ (by simp))
  obtain ⟨n₂, s₂, hrun₂, hreports₂⟩ := h { interval := ⟨2⟩ } clock rfl hmono (hroom _ (by simp))
  obtain rfl := Plan.count_unique hcount₀ hrun₀
  obtain rfl := Plan.count_unique hcount₂ hrun₂
  obtain rfl : o = .ok ⟨3, 1, 2, 2⟩ := Ending.outcome.inj (hreports₀.ending.symm.trans hend₀)
  exact ⟨hfinite, hmono, hroom, l, calls, ⟨n₀, r₀, hrun₀, hreports₀, hs₀⟩,
    n₂, r₂, hrun₂, hreports₂, hs₂⟩

end TreeTally
