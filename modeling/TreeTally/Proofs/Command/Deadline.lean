import TreeTally.Proofs.Command.Count
import TreeTally.Proofs.Disk.Follow

namespace TreeTally.Command

open Background

variable {w : Surroundings} {s : Settings} {args : List String} {now : Instant}

/-- The program ends by itself, with one of its codes. -/
def ProgramEnd.Exits (e : ProgramEnd) : Prop :=
  ∃ code output errors, e = .exit code output errors ∧ code ∈ [0, exitFailure, exitCancelled]

/-- The deadline lies past the end of the clock. -/
def Settings.Overruns (s : Settings) (now : Instant) : Prop :=
  ∃ d, s.timeout = some d ∧ Instant.limit ≤ now.nanos + d.nanos

theorem exits_showResult (s : Settings) (errors : String) (o : Option Outcome) :
    (showResult s errors o).Exits := by
  rcases o with _ | (⟨t⟩ | ⟨p, f⟩) | t <;> exact ⟨_, _, _, rfl, by decide⟩

theorem overruns_iff : s.timeout.map now.add? = some none ↔ s.Overruns now := by
  have hnone (d : Duration) : now.add? d = none ↔ Instant.limit ≤ now.nanos + d.nanos := by
    rw [Instant.add?, ← not_lt]
    split <;> simp [*]
  rw [Settings.Overruns]
  cases s.timeout <;> simp [hnone]

theorem exists_endsIn (hd : w.disk.Sound) (hroom : Roomy w.workerClock s.interval) :
    ∃ n, Walk.EndsIn (jobSpec w s).plan n (.start s.options s.roots) := by
  have hshallow : ∀ p ∈ s.roots, w.disk.fileSystem.Shallow s.options.follow w.disk.depth p :=
    fun p _ => hd.shallow_either s.options.follow p
  obtain ⟨r, hcount, hr⟩ := FileSystem.Shallow.exhausts w.workerClock (w.disk.narrow _) hshallow
  rcases hr.ending with ⟨o, ho⟩ | ⟨-, k, hk⟩
  · exact endsIn_paced rfl (hcount _ (Nat.lt_succ_self _)) ho hroom
  · exact absurd hk (hroom k)

/-- No interval that can be asked for leads past the end of a clock in its first half. A time limit
does exactly if the deadline lies past the end, and then the program crashes, however long it may wait.
Else it ends with one of its codes, and it does end as long as its worker goes on. -/
theorem count_exits (hparse : Settings.parse (isOn w.followVariable) args = .ok s)
    (hclock : ∀ n, (w.workerClock n).nanos < 2 ^ 62 * nanosPerSecond) :
    Roomy w.workerClock s.interval ∧
    (s.Overruns (w.ownClock 0) →
      ∀ turns, runWithin w turns ("count" :: args) = some (.crash "")) ∧
    (¬s.Overruns (w.ownClock 0) →
      (∀ turns e, runWithin w turns ("count" :: args) = some e → e.Exits) ∧
      (w.disk.Sound → (∀ n, ∃ k, n ≤ ∑ i ∈ Finset.range k, w.pace i) →
        ∃ least, ∀ turns : Settings → Nat, least ≤ turns s →
          ∃ e, runWithin w turns ("count" :: args) = some e ∧ e.Exits)) := by
  have hroom := roomy_of_early hparse hclock
  obtain ⟨b₀, b, j, hstart, hstarted⟩ := startCount_started (w := w) (Settings.roots_ne_nil hparse)
  obtain ⟨errors, hall⟩ := runWithin_started hparse hstart
  refine ⟨hroom, fun hover turns => ?_, fun hfits => ?_⟩
  · exact (hall turns).trans (if_pos (overruns_iff.2 hover))
  · have hrun (turns : Settings → Nat) := (hall turns).trans (if_neg (mt overruns_iff.1 hfits))
    refine ⟨fun turns e he => ?_, fun hd hpace => ?_⟩
    · obtain ⟨c, -, rfl⟩ := Option.map_eq_some_iff.1 ((hrun turns).symm.trans he)
      exact exits_showResult s _ _
    · obtain ⟨n, hends⟩ := exists_endsIn hd hroom
      obtain ⟨least, hleast⟩ := exists_await_until (s.timeout.map (w.ownClock 0).add?).join
        hstarted hends hpace
      refine ⟨least, fun turns hturns => ?_⟩
      obtain ⟨c, hc⟩ := hleast (turns s) hturns
      exact ⟨_, (hrun turns).trans (congrArg (Option.map _) hc), exits_showResult s _ _⟩

theorem sampleSurroundings_early (n : Nat) :
    (sampleSurroundings.workerClock n).nanos < 2 ^ 62 * nanosPerSecond := by
  show (min (n : Int) 3) < 2 ^ 62 * (1000000000 : Nat)
  omega

/-- The longest time limit that is accepted crashes the program, a shorter one does not. -/
theorem count_exits_sample :
    let w := sampleSurroundings
    let args (limit : String) := ["-q", "--timeout-secs", limit, "/d"]
    (∀ turns, runWithin w turns ("count" :: args "18446744073709551615") = some (.crash "")) ∧
      ∃ s, Settings.parse (isOn w.followVariable) (args "3") = .ok s ∧
        ∃ least, ∀ turns : Settings → Nat, least ≤ turns s →
          ∃ e, runWithin w turns ("count" :: args "3") = some e ∧ e.Exits := by
  intro w args
  have hlong : Settings.parse (isOn w.followVariable) (args "18446744073709551615") = .ok
      { roots := [⟨['/', 'd']⟩], quiet := true, timeout := some (.ofSeconds Tally.maxBytes) } := by rfl
  have hshort : Settings.parse (isOn w.followVariable) (args "3") = .ok
      { roots := [⟨['/', 'd']⟩], quiet := true, timeout := some (.ofSeconds 3) } := by rfl
  obtain ⟨-, hcrash, -⟩ := count_exits hlong sampleSurroundings_early
  obtain ⟨-, -, hexits⟩ := count_exits hshort sampleSurroundings_early
  refine ⟨hcrash ⟨_, rfl, by decide⟩, _, hshort, (hexits ?_).2 (by decide) fun n => ⟨n, ?_⟩⟩
  · rintro ⟨d, ⟨⟩, hover⟩
    exact absurd hover (by decide)
  · show n ≤ ∑ _i ∈ Finset.range n, 1
    rw [Finset.sum_const, Finset.card_range, smul_eq_mul, Nat.mul_one]

/-- Not every number that is accepted for the time limit can be reckoned with. -/
theorem not_always_exits : ¬∀ (w : Surroundings) (args : List String) (s : Settings),
    Settings.parse (isOn w.followVariable) args = .ok s →
    (∀ n, (w.workerClock n).nanos < 2 ^ 62 * nanosPerSecond) →
    (∀ n, (w.ownClock n).nanos < 2 ^ 62 * nanosPerSecond) →
    ∀ turns e, runWithin w turns ("count" :: args) = some e → e.Exits := by
  intro h
  let w : Surroundings := { sampleSurroundings with ownClock := fun _ => ⟨7⟩ }
  let args := ["--timeout-secs", "18446744073709551615", "/d"]
  have hparse : Settings.parse (isOn w.followVariable) args = .ok
      { roots := [⟨['/', 'd']⟩], timeout := some (.ofSeconds Tally.maxBytes) } := by rfl
  obtain ⟨b₀, b, j, hstart, -⟩ := startCount_started (w := w) (Settings.roots_ne_nil hparse)
  obtain ⟨errors, hall⟩ := runWithin_started hparse hstart
  have hown : (7 : Int) < 2 ^ 62 * nanosPerSecond := by decide
  have hcrash : runWithin w (fun _ => 1) ("count" :: args) = some (.crash "") :=
    (hall _).trans (if_pos (by decide))
  obtain ⟨_, _, _, hexit, -⟩ :=
    h w args _ hparse sampleSurroundings_early (fun _ => hown) _ _ hcrash
  cases hexit

end TreeTally.Command
