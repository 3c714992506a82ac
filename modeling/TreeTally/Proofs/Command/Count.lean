import TreeTally.Proofs.Background.Lifecycle
import TreeTally.Proofs.Command.Grammar
import TreeTally.Proofs.Command.Turns
import TreeTally.Proofs.Walk.Timing

namespace TreeTally

section

variable {fs : FileSystem} {options options' : Options} {clock clock' : Nat → Instant}
variable {roots : List Path} {fuel fuel' : Nat} {r r' : Report} {o o' : Outcome}

theorem Plan.Finds.not_cancelled {P : Plan} {Q : Path → Sight → Prop} {l : List (Path × Sight)}
    {calls : List Event} (h : P.Finds Q roots l calls o) (t : Tally) : o ≠ .error (.cancelled t) := by
  cases h <;> nofun

theorem finds_paced (clock' : Nat → Instant) (hfollow : options'.follow = options.follow)
    (h : (Plan.ofOptions fs options clock roots).count fuel {} roots = some r)
    (hr : r.ending = .outcome o) : ∃ l calls,
      (Plan.ofOptions fs options' clock' roots).Finds (fun _ _ => True) roots l calls o := by
  obtain ⟨l, calls, hfinds, -, -⟩ := finds_of_outcome h hr
  exact ⟨l, calls, hfinds.alike ⟨rfl, hfollow, rfl⟩⟩

theorem outcome_paced (hfollow : options'.follow = options.follow)
    (h : (Plan.ofOptions fs options clock roots).count fuel {} roots = some r)
    (hr : r.ending = .outcome o)
    (h' : (Plan.ofOptions fs options' clock' roots).count fuel' {} roots = some r')
    (hr' : r'.ending = .outcome o') : o' = o := by
  obtain ⟨l, calls, hfinds⟩ := finds_paced clock' hfollow h hr
  obtain ⟨n, hcount⟩ := hfinds.exists_count
  obtain rfl := Plan.count_unique h' (hcount (n + 1) (Nat.lt_succ_self n))
  exact (Plan.lasts_of_tells hr').2

theorem endsIn_paced (hfollow : options'.follow = options.follow)
    (h : (Plan.ofOptions fs options clock roots).count fuel {} roots = some r)
    (hr : r.ending = .outcome o) (hroom : Roomy clock' options'.interval) :
    ∃ n, Walk.EndsIn (Plan.ofOptions fs options' clock' roots) n (.start options' roots) := by
  obtain ⟨l, calls, hfinds⟩ := finds_paced clock' hfollow h hr
  obtain ⟨n, hcount⟩ := hfinds.exists_count
  obtain ⟨v, hv, hd⟩ := (Walk.runs_of_drive (hcount (n + 1) (Nat.lt_succ_self n))).advance
  refine ⟨n + 1, .outcome o, ?_, nofun⟩
  rw [Plan.tells_lasting (Plan.lasts_of_roomy _ hroom _)] at hd
  exact (congrArg (·.2.stage) hv).trans hd

end

namespace Command

open Background

namespace Settings

variable {followDefault : Bool} {args : List String} {s : Settings}

theorem roots_ne_nil (h : parse followDefault args = .ok s) : s.roots ≠ [] := by
  obtain ⟨p, -, rfl⟩ := fits_of_parse h
  intro hnil
  have hroots : (if p.roots = [] then ["."] else p.roots) = [] := List.map_eq_nil_iff.1 hnil
  split at hroots
  · cases hroots
  · exact absurd hroots ‹_›

theorem interval_lt (h : parse followDefault args = .ok s) :
    s.interval.nanos < Decimal.wordLimit * 1000000 := by
  obtain ⟨p, hp, rfl⟩ := fits_of_parse h
  show (((p.last? .interval).map Duration.ofMillis).getD _).nanos < _
  cases hlast : p.last? .interval with
  | none => decide
  | some n =>
      obtain ⟨i, hi, hvalue⟩ := List.mem_filterMap.1 (List.mem_of_getLast? hlast)
      have hproper := hp.1 i hi
      cases i with
      | number f text m =>
          obtain ⟨-, -, -, -, -, -, -, hlt⟩ := hproper
          rw [Item.value?] at hvalue
          split at hvalue
          · obtain rfl := Option.some.inj hvalue
            exact Nat.mul_lt_mul_of_pos_right hlt (by decide)
          · cases hvalue
      | _ => cases hvalue

end Settings

variable {w : Surroundings} {s : Settings} {b c : Background Unit}

theorem free_jobSpec (w : Surroundings) (s : Settings) : (jobSpec w s).Free := ⟨rfl, rfl⟩

/-- The job has been made, and observed if progress is to be shown, and then run. -/
structure Started (task : JobSpec) (b₀ b : Background Unit) (j : Job) : Prop where
  reached : ({} : Background Unit).Reaches b₀
  job : b₀.jobs[0]? = some j
  spec : j.toJobSpec = task
  token : j.token = 0
  run : b₀.run 0 = .ok b
  calm : Calm task false b
  lane : ∃ o, b.idleLane = [.count 0 o 0 (.start task.options task.roots)]
  waiting : b.mailbox.waiting = []

theorem startCount_started (hroots : s.roots ≠ []) :
    ∃ b₀ b j, startCount w s = .ok b ∧ Started (jobSpec w s) b₀ b j := by
  let j : Job := { toJobSpec := jobSpec w s, token := 0 }
  have hcreate : ({} : Background Unit).create (jobSpec w s) =
      .ok { tokens := [false], jobs := [j] } := if_neg (by simpa [jobSpec] using hroots)
  have hcreated := reaches_create hcreate
  rw [startCount, hcreate]
  cases s.showsProgress with
  | true =>
      refine ⟨_, _, { j with observer := some 0 }, rfl, hcreated.trans (reaches_act _ (.observe 0 none 0)),
        rfl, rfl, rfl, rfl, ⟨⟨_, rfl, rfl, rfl⟩, rfl, rfl, ?_, nofun, .inr ⟨_, _, _, rfl⟩⟩, ⟨_, rfl⟩, rfl⟩
      intro o ho
      obtain rfl := List.mem_singleton.1 ho
      rfl
  | false =>
      exact ⟨_, _, j, rfl, hcreated, rfl, rfl, rfl, rfl,
        ⟨⟨_, rfl, rfl, rfl⟩, rfl, rfl, nofun, nofun, .inr ⟨_, _, _, rfl⟩⟩, ⟨_, rfl⟩, rfl⟩

theorem job_of_done (hc : ({} : Background Unit).Reaches c) {j : Job} (hjobs : c.jobs = [j]) {i : Nat}
    {o : Outcome} {st : JobState} (hdone : .done i o st ∈ c.calls) : i = 0 := by
  have hview : .done i o st ∈ (c.view i).calls :=
    List.mem_filter.2 ⟨hdone, decide_eq_true rfl⟩
  rcases lives hc i with h | ⟨j₀, label, -, sent, e, h⟩
  · rw [h.calls] at hview
    cases hview
  · obtain ⟨j', hj', -⟩ := h.exists_job
    have hlt : i < c.jobs.length := (List.getElem?_eq_some_iff.1 hj').1
    rw [hjobs] at hlt
    exact Nat.lt_one_iff.1 hlt

theorem result?_eq_some (hc : ({} : Background Unit).Reaches c) {j : Job} (hjobs : c.jobs = [j])
    {o : Outcome} (hends : c.ends 0 = [(o, stateAfter o)]) : result? c = some o := by
  have hmem (i : Nat) (o' : Outcome) (st : JobState) :
      .done i o' st ∈ c.calls → (o', st) ∈ c.ends 0 := by
    intro hdone
    obtain rfl := job_of_done hc hjobs hdone
    exact List.mem_filterMap.2 ⟨_, hdone, rfl⟩
  rw [result?]
  cases hfind : c.calls.findSome? _ with
  | none =>
      obtain ⟨x, hx, hend⟩ := List.mem_filterMap.1 (hends ▸ List.mem_singleton_self (o, stateAfter o))
      have hno := List.findSome?_eq_none_iff.1 hfind x hx
      cases x with
      | done i o'' st => cases hno
      | _ => cases hend
  | some o' =>
      obtain ⟨x, hx, hsome⟩ := List.exists_of_findSome?_eq_some hfind
      cases x with
      | done i o'' st =>
          obtain rfl : o'' = o' := Option.some.inj hsome
          have hin := hmem i o'' st hx
          rw [hends] at hin
          exact congrArg some (Prod.mk.inj (List.mem_singleton.1 hin)).1
      | _ => cases hsome

/-- Waiting for a count that was started yields what a count on the spot comes to. -/
theorem await_result {b₀ : Background Unit} {j : Job} {turns turn : Nat}
    (h : Started (jobSpec w s) b₀ b j) (hend : await w none turns turn b = some c) :
    ∃ fuel r o, (jobSpec w s).plan.count fuel {} s.roots = some r ∧ r.ending = .outcome o ∧
      result? c = some o := by
  obtain ⟨hcalm, hreaches, hdelivered⟩ := h.calm.await (free_jobSpec w s) hend
  obtain ⟨j', hjobs, -, -⟩ := hcalm.job
  have hj' : c.jobs[0]? = some j' := by rw [hjobs]; rfl
  have hd : j'.delivered = true := by
    rw [delivered, hjobs] at hdelivered
    simpa using hdelivered
  have hstart := h.reached.trans (reaches_run h.run)
  obtain ⟨label, -, hlabel, hbegun⟩ := begun_run h.reached h.job h.run
  obtain ⟨k, sent, v, o, hk, hv, -, -, hcalls⟩ :=
    begun_delivered (begun_reaches hreaches hlabel hbegun) hj' hd (hcalm.isCancelled _)
  have hends : c.ends 0 = [(o, stateAfter o)] := by
    rw [ends_eq, hcalls, List.filterMap_append]
    simp [Call.end?]
  have hcount : j.toJobSpec.plan.count (k + 1) {} j.toJobSpec.roots =
      some ⟨sent, .outcome o⟩ := Walk.drive_of_advance hk hv (Nat.lt_succ_self k)
  rw [h.spec] at hcount
  exact ⟨k + 1, _, o, hcount, rfl, result?_eq_some (hstart.trans hreaches) hjobs hends⟩

theorem after_showResult (before errors : String) (o : Option Outcome) :
    (showResult s errors o).after before = showResult s (before ++ errors) o := by
  rcases o with _ | (_ | _) | _ <;> simp [showResult, ProgramEnd.after, String.append_assoc]

theorem runWithin_started {args : List String}
    (hparse : Settings.parse (isOn w.followVariable) args = .ok s)
    (hstart : startCount w s = .ok b) :
    ∃ errors : Background Unit → String, ∀ turns : Settings → Nat,
      let due := s.timeout.map (w.ownClock 0).add?
      runWithin w turns ("count" :: args) = if due = some none then some (.crash "")
        else (await w due.join (turns s) 0 b).map fun c => showResult s (errors c) (result? c) := by
  let log := LogFilter.read (s.logSetting w.logVariable)
  let shown (c : Background Unit) : String :=
    let errors := showJournal log.1 w.logStyle c
    if s.showsProgress then errors ++ clearLine else errors
  refine ⟨fun c => complaintLines log.2 ++ shown c, fun turns => ?_⟩
  intro due
  have hcount : countWithin w s log.1 (turns s) = if due = some none then some (.crash "")
      else (await w due.join (turns s) 0 b).map fun c => showResult s (shown c) (result? c) := by
    rw [countWithin, hstart]
  have hrun : runWithin w turns ("count" :: args) =
      (countWithin w s log.1 (turns s)).map (.after (complaintLines log.2)) := by
    rw [runWithin.eq_def]
    dsimp only
    rw [if_neg (by decide), if_pos rfl, hparse]
  rw [hrun, hcount]
  split
  · rfl
  · rw [Option.map_map]
    congr 1
    funext c
    exact after_showResult _ _ _

theorem runWithin_count {args : List String}
    (hparse : Settings.parse (isOn w.followVariable) args = .ok s) (htimeout : s.timeout = none)
    (hstart : startCount w s = .ok b) :
    ∃ errors : Background Unit → String, ∀ turns : Settings → Nat,
      runWithin w turns ("count" :: args) =
        (await w none (turns s) 0 b).map fun c => showResult s (errors c) (result? c) := by
  obtain ⟨errors, hall⟩ := runWithin_started hparse hstart
  rw [htimeout] at hall
  exact ⟨errors, hall⟩

/-- What the program ends with when nobody cancels the count: the totals, or what could not be read. -/
inductive Shows (json : Bool) : Outcome → ProgramEnd → Prop
  | totals (t : Tally) (errors : String) : Shows json (.ok t)
      (.exit 0 (if json then jsonReport t false ++ "\n" else plainReport t) errors)
  | fault (p : Path) (f : Fault) (before : String) : Shows json (.error (.unreadable p f))
      (.exit 2 "" (before ++ ("error: " ++ (Failure.unreadable p f).message ++ "\n")))

theorem shows_showResult {o : Outcome} (h : ∀ t, o ≠ .error (.cancelled t)) (errors : String) :
    Shows s.json o (showResult s errors (some o)) := by
  rcases o with (t | ⟨p, f⟩) | t
  · exact absurd rfl (h t)
  · exact .fault p f errors
  · exact .totals t errors

def ProgramEnd.answer? : ProgramEnd → Option (Nat × String)
  | exit code output _ => some (code, output)
  | crash _ => none

theorem Shows.answer_eq {json : Bool} {o : Outcome} {e e' : ProgramEnd} (h : Shows json o e)
    (h' : Shows json o e') : e.answer? = e'.answer? := by
  cases h <;> cases h' <;> rfl

theorem shows_of_runWithin {args : List String} {turns : Settings → Nat} {e : ProgramEnd}
    (hparse : Settings.parse (isOn w.followVariable) args = .ok s) (htimeout : s.timeout = none)
    (hrun : runWithin w turns ("count" :: args) = some e) :
    ∃ fuel r o, (jobSpec w s).plan.count fuel {} s.roots = some r ∧ r.ending = .outcome o ∧
      Shows s.json o e := by
  obtain ⟨b₀, b, j, hstart, hstarted⟩ := startCount_started (w := w) (Settings.roots_ne_nil hparse)
  obtain ⟨errors, hall⟩ := runWithin_count hparse htimeout hstart
  rw [hall] at hrun
  obtain ⟨c, hc, rfl⟩ := Option.map_eq_some_iff.1 hrun
  obtain ⟨fuel, r, o, hcount, hr, hresult⟩ := await_result hstarted hc
  obtain ⟨l, calls, hfinds, -, -⟩ := finds_of_outcome hcount hr
  refine ⟨fuel, r, o, hcount, hr, ?_⟩
  rw [hresult]
  exact shows_showResult hfinds.not_cancelled _

theorem roomy_of_early {args : List String}
    (hparse : Settings.parse (isOn w.followVariable) args = .ok s)
    (hclock : ∀ n, (w.workerClock n).nanos < 2 ^ 62 * nanosPerSecond) :
    Roomy w.workerClock s.interval := by
  intro n
  have hinterval := Settings.interval_lt hparse
  have hn := hclock n
  rw [Instant.add?, if_pos]
  · exact Option.some_ne_none _
  · rw [Decimal.wordLimit] at hinterval
    rw [Instant.limit]
    rw [nanosPerSecond] at *
    push_cast at *
    omega

theorem exists_await_until (deadline : Option Instant) {b₀ : Background Unit} {j : Job} {n : Nat}
    (h : Started (jobSpec w s) b₀ b j)
    (hends : Walk.EndsIn (jobSpec w s).plan n (.start s.options s.roots))
    (hpace : ∀ n, ∃ k, n ≤ ∑ i ∈ Finset.range k, w.pace i) :
    ∃ least, ∀ turns, least ≤ turns → ∃ c, await w deadline turns 0 b = some c := by
  obtain ⟨o, hlane⟩ := h.lane
  have hfew : b.mailbox.waiting.length + (n + 1) ≤ n + 1 := by
    rw [h.waiting]
    exact Nat.le_of_eq (Nat.zero_add _)
  have hcoming : Coming (jobSpec w s) (n + 1) (n + 1) b :=
    ⟨⟨false, h.calm⟩, .counting hlane hends, hfew⟩
  obtain ⟨k, hk⟩ := hpace (n + 1)
  refine ⟨k + (n + 1) + 1, fun turns hturns => ?_⟩
  refine await_coming (free_jobSpec w s) k hcoming ?_ (by omega)
  simpa only [Nat.zero_add] using hk

theorem exists_await {b₀ : Background Unit} {j : Job} {n : Nat}
    (h : Started (jobSpec w s) b₀ b j)
    (hends : Walk.EndsIn (jobSpec w s).plan n (.start s.options s.roots))
    (hpace : ∀ n, ∃ k, n ≤ ∑ i ∈ Finset.range k, w.pace i) :
    ∃ least, ∀ turns, least ≤ turns → ∃ c, await w none turns 0 b = some c :=
  exists_await_until none h hends hpace

/-- Without a time limit the program reports what the count comes to on the spot, by any clock and
at any interval: the totals, or what could not be read. It never ends without a result, and it does
end as long as its worker goes on. What is shown on the way changes neither the exit code nor the
standard output. -/
theorem count_reported {args : List String}
    (hparse : Settings.parse (isOn w.followVariable) args = .ok s) (htimeout : s.timeout = none)
    {options : Options} {clock : Nat → Instant} {fuel : Nat} {r : Report} {o : Outcome}
    (hfollow : options.follow = s.follow)
    (hcount : (Plan.ofOptions w.disk.fileSystem options clock s.roots).count fuel {} s.roots = some r)
    (hr : r.ending = .outcome o) :
    (∀ turns e, runWithin w turns ("count" :: args) = some e → Shows s.json o e) ∧
    (∀ b turns c, startCount w s = .ok b → await w none turns 0 b = some c → result? c = some o) ∧
    ((∀ n, (w.workerClock n).nanos < 2 ^ 62 * nanosPerSecond) →
      (∀ n, ∃ k, n ≤ ∑ i ∈ Finset.range k, w.pace i) →
      ∃ least, ∀ turns : Settings → Nat, least ≤ turns s →
        ∃ e, runWithin w turns ("count" :: args) = some e) ∧
    ∀ (w' : Surroundings) (args' : List String) (s' : Settings), w'.disk = w.disk →
      Settings.parse (isOn w'.followVariable) args' = .ok s' → s'.timeout = none →
      s'.roots = s.roots → s'.follow = s.follow → s'.json = s.json →
      ∀ turns turns' e e', runWithin w turns ("count" :: args) = some e →
        runWithin w' turns' ("count" :: args') = some e' → e'.answer? = e.answer? := by
  -- Whatever a run shows belongs to a count with the same roots and the same files.
  have hsame {w' : Surroundings} {s' : Settings} {fuel' : Nat} {r' : Report} {o' : Outcome}
      (hdisk : w'.disk = w.disk) (hroots : s'.roots = s.roots) (hfollow' : s'.follow = s.follow)
      (hcount' : (jobSpec w' s').plan.count fuel' {} s'.roots = some r')
      (hr' : r'.ending = .outcome o') : o' = o := by
    rw [JobSpec.plan, jobSpec, hdisk, hroots] at hcount'
    exact outcome_paced (hfollow'.trans hfollow.symm) hcount hr hcount' hr'
  have hshows {w' : Surroundings} {args' : List String} {s' : Settings} {turns : Settings → Nat}
      {e : ProgramEnd} (hparse' : Settings.parse (isOn w'.followVariable) args' = .ok s')
      (htimeout' : s'.timeout = none) (hdisk : w'.disk = w.disk) (hroots : s'.roots = s.roots)
      (hfollow' : s'.follow = s.follow) (hrun : runWithin w' turns ("count" :: args') = some e) :
      Shows s'.json o e := by
    obtain ⟨fuel', r', o', hcount', hr', h⟩ := shows_of_runWithin hparse' htimeout' hrun
    exact hsame hdisk hroots hfollow' hcount' hr' ▸ h
  obtain ⟨b₀, b, j, hstart, hstarted⟩ := startCount_started (w := w) (Settings.roots_ne_nil hparse)
  refine ⟨fun turns e => hshows hparse htimeout rfl rfl rfl, fun b' turns c hb' hend => ?_,
    fun hclock hpace => ?_, ?_⟩
  · obtain rfl : b = b' := Except.ok.inj (hstart.symm.trans hb')
    obtain ⟨fuel', r', o', hcount', hr', hresult⟩ := await_result hstarted hend
    exact hsame rfl rfl rfl hcount' hr' ▸ hresult
  · have hroom : Roomy w.workerClock s.options.interval := roomy_of_early hparse hclock
    obtain ⟨n, hends⟩ := endsIn_paced hfollow.symm hcount hr hroom
    obtain ⟨least, hleast⟩ := exists_await hstarted hends hpace
    obtain ⟨errors, hall⟩ := runWithin_count hparse htimeout hstart
    refine ⟨least, fun turns hturns => ?_⟩
    obtain ⟨c, hc⟩ := hleast (turns s) hturns
    exact ⟨_, by rw [hall, hc]; rfl⟩
  · intro w' args' s' hdisk hparse' htimeout' hroots hfollow' hjson turns turns' e e' hrun hrun'
    have h := hshows hparse htimeout rfl rfl rfl hrun
    have h' := hshows hparse' htimeout' hdisk hroots hfollow' hrun'
    rw [hjson] at h'
    exact h'.answer_eq h

def sampleSurroundings : Surroundings where
  disk := { nodes := [([['d']], .folder 4096), ([['d'], ['f']], .file 5)] }
  workerClock n := ⟨min n 3⟩
  ownClock n := ⟨n⟩
  pace _ := 1

theorem count_reported_sample :
    let w := sampleSurroundings
    let w' := { w with pace := fun n => n, followVariable := some "no" }
    let args := ["-q", "--interval-ms", "7", "/d"]
    ∃ s, Settings.parse (isOn w.followVariable) args = .ok s ∧
      (∀ turns e, runWithin w turns ("count" :: args) = some e → Shows false (.ok ⟨5, 1, 1, 0⟩) e) ∧
      (∃ least, ∀ turns : Settings → Nat, least ≤ turns s →
        ∃ e, runWithin w turns ("count" :: args) = some e) ∧
      ∀ turns turns' e e', runWithin w turns ("count" :: args) = some e →
        runWithin w' turns' ["count", "/d", "-v"] = some e' → e'.answer? = e.answer? := by
  intro w w' args
  have hcount : ((Plan.ofOptions w.disk.fileSystem {} w.workerClock [⟨['/', 'd']⟩]).count 20 {}
      [⟨['/', 'd']⟩]).map Report.total? = some (some ⟨5, 1, 1, 0⟩) := by decide +kernel
  obtain ⟨r, hr, htotal⟩ := Option.map_eq_some_iff.1 hcount
  have hparse : Settings.parse (isOn w.followVariable) args = .ok
      { roots := [⟨['/', 'd']⟩], quiet := true, interval := ⟨7000000⟩ } := by rfl
  have hparse' : Settings.parse (isOn w'.followVariable) ["/d", "-v"] = .ok
      { roots := [⟨['/', 'd']⟩], verbose := true } := by rfl
  have hfollow : ({} : Options).follow = false := rfl
  obtain ⟨hshows, -, hends, hsame⟩ := count_reported hparse rfl hfollow hr
    (Report.total?_eq_some.1 htotal)
  refine ⟨_, hparse, hshows, hends ?_ ?_, ?_⟩
  · intro n
    show (min (n : Int) 3) < 2 ^ 62 * (1000000000 : Nat)
    omega
  · intro n
    refine ⟨n, ?_⟩
    show n ≤ ∑ _i ∈ Finset.range n, 1
    rw [Finset.sum_const, Finset.card_range, smul_eq_mul, Nat.mul_one]
  · intro turns turns' e e' he he'
    exact hsame w' ["/d", "-v"] _ rfl hparse' rfl rfl rfl rfl turns turns' e e' he he'

end Command

end TreeTally
