import TreeTally.Proofs.Walk.Ended

namespace TreeTally

inductive Mark
  | stat | list | child | bad | finish | progress
  | otherDevice | unreadableFolder | skippedEntry | otherMessage
  deriving DecidableEq

def Event.mark : Event → Mark
  | stat _ => .stat
  | list _ => .list
  | child _ _ => .child
  | bad _ _ => .bad
  | finish _ => .finish
  | progress _ => .progress

def LogMessage.mark : LogMessage → Mark
  | otherDevice _ => .otherDevice
  | unreadableFolder _ _ => .unreadableFolder
  | skippedEntry _ _ => .skippedEntry
  | _ => .otherMessage

def Signal.mark : Signal → Mark
  | event e => e.mark
  | log m => m.mark

def number (k : Mark) (l : List Signal) : Nat := (l.map Signal.mark).count k

def Report.number (r : Report) (k : Mark) : Nat := TreeTally.number k r.signals

def Event.stat? : Event → Option Path
  | stat p => some p
  | _ => none

def statsIn (l : List Signal) : List Path := (eventsOf l).filterMap Event.stat?

section

variable {k : Mark} {s : Signal} {l l' : List Signal}

@[simp] theorem number_nil : number k [] = 0 := rfl

@[simp] theorem number_cons :
    number k (s :: l) = number k l + if s.mark = k then 1 else 0 := by
  simp [number, List.count_cons]

@[simp] theorem number_append : number k (l ++ l') = number k l + number k l' := by
  simp [number, List.count_append]

@[simp] theorem statsIn_nil : statsIn [] = [] := rfl

@[simp] theorem statsIn_cons : statsIn (s :: l) = statsIn [s] ++ statsIn l := by
  cases s with
  | event e => cases e <;> rfl
  | log m => rfl

@[simp] theorem statsIn_append : statsIn (l ++ l') = statsIn l ++ statsIn l' := by
  rw [statsIn, eventsOf_append, List.filterMap_append]
  rfl

end

/-- What was sent and what was counted agree, where so many entries had been met before. -/
structure Balanced (met : Nat) (roots : List Path) (l : List Signal) (t : Tally) : Prop where
  stats : statsIn l = roots
  lists : number .list l = t.folders + t.unreadable
  finishes : number .finish l = t.folders
  entries : met + roots.length + number .child l =
    t.files + t.folders + t.unreadable + number .otherDevice l
  unreadable : number .unreadableFolder l = t.unreadable
  skipped : number .bad l = number .skippedEntry l

namespace Balanced

variable {met met' : Nat} {roots roots' : List Path} {l l' : List Signal} {t t' : Tally}

theorem append (h : Balanced met roots l t) (h' : Balanced met' roots' l' t') :
    Balanced (met + met') (roots ++ roots') (l ++ l') (t + t') := by
  constructor
  · rw [statsIn_append, h.stats, h'.stats]
  · rw [number_append, h.lists, h'.lists, Tally.folders_add, Tally.unreadable_add]
    omega
  · rw [number_append, h.finishes, h'.finishes, Tally.folders_add]
  · have hentries := h.entries
    have hentries' := h'.entries
    simp only [number_append, List.length_append, Tally.files_add, Tally.folders_add,
      Tally.unreadable_add]
    omega
  · rw [number_append, h.unreadable, h'.unreadable, Tally.unreadable_add]
  · rw [number_append, number_append, h.skipped, h'.skipped]

theorem between {s : Signal} (h : Balanced met roots (s :: l) t) (hs : statsIn [s] = [])
    (h' : Balanced met' roots' l' t') :
    Balanced (met' + met) (roots' ++ roots) (s :: (l' ++ l)) (t' + t) := by
  have hall := h'.append h
  have hnumber (k : Mark) : number k (s :: (l' ++ l)) = number k (l' ++ s :: l) := by
    simp only [number_cons, number_append, Nat.add_assoc]
  constructor
  · rw [← hall.stats, statsIn_cons, statsIn_append, statsIn_append, statsIn_cons (l := l), hs]
    rfl
  · rw [hnumber, hall.lists]
  · rw [hnumber, hall.finishes]
  · rw [hnumber, hnumber, hall.entries]
  · rw [hnumber, hall.unreadable]
  · rw [hnumber, hnumber, hall.skipped]

theorem child (h : Balanced 1 [] l t) (p : Path) (n : List Char) :
    Balanced 0 [] (.event (.child p n) :: l) t := by
  obtain ⟨h₁, h₂, h₃, h₄, h₅, h₆⟩ := h
  constructor <;> simp_all [Signal.mark, Event.mark, statsIn, Event.stat?]
  omega

theorem root (h : Balanced 1 [] l t) (r : Path) : Balanced 0 [r] (.event (.stat r) :: l) t := by
  obtain ⟨h₁, h₂, h₃, h₄, h₅, h₆⟩ := h
  constructor <;> simp_all [Signal.mark, Event.mark, statsIn, Event.stat?]

theorem report (h : Balanced met roots l t) (report : Option Tally) :
    Balanced met roots (l ++ (report.map fun u => .event (.progress u)).toList) t := by
  obtain ⟨h₁, h₂, h₃, h₄, h₅, h₆⟩ := h
  cases report <;> constructor <;> simp_all [Signal.mark, Event.mark, statsIn, Event.stat?]

end Balanced

section

variable {P : Plan} {c : Course} {f : Pace → Course} {s q : Pace}

theorem Course.andThen_some (h : (c.andThen f).pace = some q) : ∃ s, c.pace = some s ∧
    (f s).pace = some q ∧ (c.andThen f).signals = c.signals ++ (f s).signals := by
  rw [Course.andThen] at h ⊢
  cases hp : c.pace with
  | none =>
      rw [hp] at h
      cases hp.symm.trans h
  | some s =>
      rw [hp] at h
      exact ⟨s, rfl, h, rfl⟩

theorem Plan.leave_some (h : (P.leave s).pace = some q) : ∃ report : Option Tally,
    (P.leave s).signals = (report.map fun t => .event (.progress t)).toList := by
  rw [Plan.leave] at h ⊢
  rcases hr : s.throttle.ready? (P.clock s.readings) with ⟨answer, throttle⟩
  cases answer with
  | none =>
      rw [hr] at h
      cases h
  | some report =>
      cases report with
      | true => exact ⟨some s.tally, rfl⟩
      | false => exact ⟨none, rfl⟩

end

mutual

theorem Sight.balanced (P : Plan) : ∀ (sight : Sight) {p : Path} {s q : Pace},
    (sight.course P p s).pace = some q →
    Balanced 1 [] (sight.course P p s).signals sight.total
  | .foreign, p, s, q, _ => by constructor <;> rfl
  | .leaf n, p, s, q, _ => by constructor <;> rfl
  | .barred f, p, s, q, h => by
      obtain ⟨report, hr⟩ := Plan.leave_some h
      have hbarred : Balanced 1 []
          ([.event (.list p), .log (.unreadableFolder p f)] : List Signal) ⟨0, 0, 0, 1⟩ := by
        constructor <;> rfl
      rw [Sight.course, Course.after, hr]
      exact hbarred.report report
  | .folder inside, p, s, q, h => by
      obtain ⟨u, hu, hleave, hsignals⟩ := Course.andThen_some h
      obtain ⟨report, hr⟩ := Plan.leave_some hleave
      rw [Sight.course, Course.after, hsignals, hr, Sight.total]
      exact (inside.balanced P hu).report report

theorem Sights.balanced (P : Plan) : ∀ (sights : Sights) {p : Path} {s q : Pace},
    (sights.course P p s).pace = some q →
    Balanced 1 [] (.event (.list p) :: (sights.course P p s).signals) (⟨0, 0, 1, 0⟩ + sights.total)
  | .nil, p, s, q, _ => by constructor <;> rfl
  | .bad f rest, p, s, q, h => by
      have hskip : Balanced 0 [] ([.event (.bad p f), .log (.skippedEntry p f)] : List Signal) 0 := by
        constructor <;> rfl
      have hrest := (rest.balanced P h).between rfl hskip
      rw [zero_add, zero_add] at hrest
      exact hrest
  | .entry n sight rest, p, s, q, h => by
      obtain ⟨u, hu, hgo, hsignals⟩ := Course.andThen_some h
      rw [Sights.course, Course.after, hsignals, Sights.total, add_left_comm]
      exact (rest.balanced P hgo).between rfl ((sight.balanced P hu).child p n)

end

mutual

/-- What is seen of an entry once it is announced: nothing, if it is no folder or lies on another device
than its root, else a listing that fails or one that is read to its end. A folder may be reported on
when it is finished. -/
inductive Block (fs : FileSystem) (follow : Bool) (home : DeviceId) :
    Path → EntryInfo → List Event → Prop
  | quiet (p : Path) (i : EntryInfo) (h : home ≠ i.device ∨ i.kind ≠ .folder) :
      Block fs follow home p i []
  | refused (p : Path) (i : EntryInfo) (f : Fault) (report : Option Tally) (hd : home = i.device)
      (hk : i.kind = .folder) (h : fs.list p follow = .error f) :
      Block fs follow home p i (.list p :: (report.map .progress).toList)
  | opened (p : Path) (i : EntryInfo) (entries : List Listed) (inside : List Event)
      (report : Option Tally) (hd : home = i.device) (hk : i.kind = .folder)
      (h : fs.list p follow = .ok entries) (hin : Inside fs follow home p entries inside) :
      Block fs follow home p i (.list p :: (inside ++ (report.map .progress).toList))

/-- What is seen between a listing and its end: one entry after the other, and behind each one that
is announced the block of its path. -/
inductive Inside (fs : FileSystem) (follow : Bool) (home : DeviceId) :
    Path → List Listed → List Event → Prop
  | finish (p : Path) : Inside fs follow home p [] [.finish p]
  | bad (p : Path) (f : Fault) (entries : List Listed) (rest : List Event)
      (h : Inside fs follow home p entries rest) :
      Inside fs follow home p (.error f :: entries) (.bad p f :: rest)
  | child (p : Path) (c : Child) (entries : List Listed) (block rest : List Event)
      (hblock : Block fs follow home (p.join c.name) c.info block)
      (h : Inside fs follow home p entries rest) :
      Inside fs follow home p (.ok c :: entries) (.child p c.name :: (block ++ rest))

end

/-- What is seen of a root behind the look at it, whose answer tells the device to stay on. -/
def RootBlock (fs : FileSystem) (follow : Bool) (r : Path) (events : List Event) : Prop :=
  ∃ i, fs.stat r follow = .ok i ∧ Block fs follow i.device r i events

theorem eventsOf_report (report : Option Tally) :
    eventsOf (report.map fun t => Signal.event (.progress t)).toList =
      (report.map Event.progress).toList := by
  cases report <;> rfl

mutual

theorem Sight.block {P : Plan} {home : DeviceId} : ∀ (sight : Sight) {p : Path} {i : EntryInfo}
    {s q : Pace}, sight.Shown P.fs P.options.follow home p i →
    (sight.course P p s).pace = some q →
    Block P.fs P.options.follow home p i (eventsOf (sight.course P p s).signals)
  | .foreign, p, i, s, q, hd, _ => .quiet p i (.inl hd)
  | .leaf n, p, i, s, q, ⟨_, hk, _⟩, _ => .quiet p i (.inr hk)
  | .barred f, p, i, s, q, ⟨hd, hk, hl⟩, h => by
      obtain ⟨report, hr⟩ := Plan.leave_some h
      rw [Sight.course, Course.after, hr, eventsOf_append, eventsOf_report]
      exact .refused p i f report hd hk hl
  | .folder inside, p, i, s, q, ⟨hd, hk, entries, hl, hin⟩, h => by
      obtain ⟨u, hu, hleave, hsignals⟩ := Course.andThen_some h
      obtain ⟨report, hr⟩ := Plan.leave_some hleave
      rw [Sight.course, Course.after, hsignals, hr, List.singleton_append, eventsOf_event,
        eventsOf_append, eventsOf_report]
      exact .opened p i entries _ report hd hk hl (inside.inside hin hu)

theorem Sights.inside {P : Plan} {home : DeviceId} : ∀ (sights : Sights) {p : Path}
    {entries : List Listed} {s q : Pace}, sights.Shown P.fs P.options.follow home p entries →
    (sights.course P p s).pace = some q →
    Inside P.fs P.options.follow home p entries (eventsOf (sights.course P p s).signals)
  | .nil, p, [], s, q, _, _ => .finish p
  | .bad f rest, p, .error g :: entries, s, q, ⟨hf, hrest⟩, h => by
      subst hf
      exact .bad p g entries _ (rest.inside hrest h)
  | .entry n sight rest, p, .ok c :: entries, s, q, ⟨hn, hsight, hrest⟩, h => by
      subst hn
      obtain ⟨u, hu, hgo, hsignals⟩ := Course.andThen_some h
      rw [Sights.course, Course.after, hsignals, List.singleton_append, eventsOf_event, eventsOf_append]
      exact .child p c entries _ _ (sight.block hsight hu) (rest.inside hrest hgo)

end

section

variable {P : Plan} {l : List (Path × Sight)} {s q : Pace}

theorem balanced_roots (h : (P.course l s).pace = some q) :
    Balanced 0 (l.map Prod.fst) (P.course l s).signals (rootsTotal l) := by
  induction l generalizing s with
  | nil => constructor <;> rfl
  | cons x l ih =>
      obtain ⟨r, sight⟩ := x
      obtain ⟨u, hu, hgo, hsignals⟩ := Course.andThen_some h
      rw [Plan.course, Course.after, hsignals]
      exact ((sight.balanced P hu).root r).append (ih hgo)

theorem blocks_roots (hl : ∀ x ∈ l, P.Shows x.1 x.2) (h : (P.course l s).pace = some q) :
    ∃ rounds : List (Path × List Event),
      eventsOf (P.course l s).signals = eventsOfRounds rounds ∧
      rounds.map Prod.fst = l.map Prod.fst ∧
      ∀ x ∈ rounds, RootBlock P.fs P.options.follow x.1 x.2 := by
  induction l generalizing s with
  | nil => exact ⟨[], rfl, rfl, nofun⟩
  | cons x l ih =>
      obtain ⟨r, sight⟩ := x
      obtain ⟨⟨i, hi, hs⟩, hl⟩ := List.forall_mem_cons.1 hl
      obtain ⟨u, hu, hgo, hsignals⟩ := Course.andThen_some h
      obtain ⟨rounds, hevents, hfst, hblocks⟩ := ih hl hgo
      refine ⟨(r, eventsOf (sight.course P r s).signals) :: rounds, ?_, ?_, ?_⟩
      · rw [Plan.course, Course.after, hsignals, eventsOf_append, eventsOf_append, hevents]
        simp [eventsOfRounds]
      · exact congrArg (r :: ·) hfst
      · exact List.forall_mem_cons.2 ⟨⟨i, hi, sight.block hs hu⟩, hblocks⟩

end

variable {fs : FileSystem} {options : Options} {clock : Nat → Instant} {interrupt : Interrupt}
variable {roots : List Path} {fuel : Nat} {r : Report} {t : Tally}

theorem course_of_count (h : (Plan.ofOptions fs options clock roots).count fuel {} roots = some r)
    (hr : r.ending = .outcome (.ok t)) :
    let P := Plan.ofOptions fs options clock roots
    ∃ (l : List (Path × Sight)) (q : Pace), l.map Prod.fst = roots ∧ (∀ x ∈ l, P.Shows x.1 x.2) ∧
      (P.course l P.outset).pace = some q ∧ t = (rootsTotal l).capped ∧
      r.signals = (P.course l P.outset).signals ++ [.event (.progress t)] := by
  intro P
  obtain ⟨l, calls, hfinds, hlasts, rfl⟩ := finds_of_outcome h hr
  obtain ⟨hroots, rfl, ht⟩ := hfinds.through_of_ok
  obtain ⟨q, hq, -⟩ := P.exists_pace hlasts
  refine ⟨l, q, hroots.symm, hfinds.shown.2, hq, ht, ?_⟩
  rw [P.tells_lasting hlasts]
  rfl

theorem balanced_of_count
    (h : (Plan.ofOptions fs options clock roots).count fuel {} roots = some r)
    (hr : r.ending = .outcome (.ok t)) : Balanced 0 roots r.signals t := by
  obtain ⟨l, q, hl, -, hq, rfl, hsignals⟩ := course_of_count h hr
  have hbalanced := (balanced_roots hq).report (some (rootsTotal l).capped)
  rw [hl] at hbalanced
  rw [hsignals]
  -- Only the bytes of the totals are capped, and those are of no account.
  exact ⟨hbalanced.stats, hbalanced.lists, hbalanced.finishes, hbalanced.entries,
    hbalanced.unreadable, hbalanced.skipped⟩

/-- In a count that ends well every root is looked at once and in order and nothing else is looked
at by itself. Each folder is asked for its listing and is counted as listed or as unreadable, each
listing comes to its end, and each root and each entry of a listing is counted or passed over. What
is seen of each root is a block, in which the entries of a listing come in order and the block of
each follows its announcement. -/
theorem count_accounts
    (h : (Plan.ofOptions fs options clock roots).count fuel interrupt roots = some r)
    (hr : r.ending = .outcome (.ok t)) :
    statsIn r.signals = roots ∧
    r.number .list = t.folders + t.unreadable ∧
    r.number .finish = t.folders ∧
    roots.length + r.number .child =
      t.files + t.folders + t.unreadable + r.number .otherDevice ∧
    r.number .unreadableFolder = t.unreadable ∧
    r.number .bad = r.number .skippedEntry ∧
    ∃ rounds : List (Path × List Event), r.events = eventsOfRounds rounds ++ [.progress t] ∧
      rounds.map Prod.fst = roots ∧ ∀ x ∈ rounds, RootBlock fs options.follow x.1 x.2 := by
  have halone := Plan.count_alone h hr
  obtain ⟨hstats, hlists, hfinishes, hentries, hunreadable, hskipped⟩ := balanced_of_count halone hr
  obtain ⟨l, q, hl, hshown, hq, -, hsignals⟩ := course_of_count halone hr
  obtain ⟨rounds, hevents, hfst, hblocks⟩ := blocks_roots hshown hq
  rw [zero_add] at hentries
  refine ⟨hstats, hlists, hfinishes, hentries, hunreadable, hskipped, rounds, ?_, hfst.trans hl,
    hblocks⟩
  show eventsOf r.signals = _
  rw [hsignals, eventsOf_append, hevents]
  rfl

def FileSystem.varied : FileSystem where
  stat _ _ := .ok ⟨.folder, 0, ⟨""⟩⟩
  list p _ :=
    if p.chars = ['/'] then
      .ok [.ok ⟨['x'], .folder, 0, ⟨""⟩⟩, .ok ⟨['y'], .folder, 0, ⟨""⟩⟩, .ok ⟨['z'], .file, 3, ⟨""⟩⟩,
        .ok ⟨['w'], .folder, 0, ⟨"other"⟩⟩, .error (.unqueryable ⟨['/', 'v']⟩)]
    else if p.chars = ['/', 'x'] then .ok []
    else .error (.denied p)

theorem count_accounts_varied :
    let roots : List Path := [⟨['/']⟩, ⟨['/', 'y']⟩]
    ∃ r, (Plan.ofOptions .varied { interval := ⟨0⟩ } (fun _ => ⟨0⟩) roots).count 60 {} roots = some r ∧
      r.ending = .outcome (.ok ⟨3, 1, 2, 2⟩) ∧
      statsIn r.signals = roots ∧ r.number .list = 4 ∧ r.number .finish = 2 ∧
      2 + r.number .child = 5 + r.number .otherDevice ∧ r.number .unreadableFolder = 2 ∧
      r.number .bad = r.number .skippedEntry ∧
      ∃ rounds : List (Path × List Event),
        r.events = eventsOfRounds rounds ++ [.progress ⟨3, 1, 2, 2⟩] ∧
        rounds.map Prod.fst = roots ∧ ∀ x ∈ rounds, RootBlock .varied false x.1 x.2 := by
  intro roots
  have htotal : ((Plan.ofOptions .varied { interval := ⟨0⟩ } (fun _ => ⟨0⟩) roots).count 60 {}
      roots).bind Report.total? = some ⟨3, 1, 2, 2⟩ := by decide +kernel
  obtain ⟨r, hcount, ht⟩ := Option.bind_eq_some_iff.1 htotal
  have hend := Report.total?_eq_some.1 ht
  exact ⟨r, hcount, hend, count_accounts hcount hend⟩

end TreeTally
