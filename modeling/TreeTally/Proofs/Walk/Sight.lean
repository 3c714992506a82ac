import TreeTally.Proofs.Walk.Advance

namespace TreeTally

mutual

/-- What a walk meets at an entry. -/
inductive Sight
  /-- The entry lies on another device than its root. -/
  | foreign
  | leaf (size : Nat)
  /-- A folder that refuses to be listed. -/
  | barred (fault : Fault)
  | folder (inside : Sights)

/-- What a walk meets in a listing, in its order. -/
inductive Sights
  | nil
  | bad (fault : Fault) (rest : Sights)
  | entry (name : List Char) (sight : Sight) (rest : Sights)

end

mutual

/-- The sight is what a file system shows at a path whose metadata is known. -/
def Sight.Shown (fs : FileSystem) (follow : Bool) (home : DeviceId) (p : Path) (i : EntryInfo) :
    Sight → Prop
  | .foreign => home ≠ i.device
  | .leaf n => home = i.device ∧ i.kind ≠ .folder ∧ i.size = n
  | .barred f => home = i.device ∧ i.kind = .folder ∧ fs.list p follow = .error f
  | .folder inside => home = i.device ∧ i.kind = .folder ∧
      ∃ entries, fs.list p follow = .ok entries ∧ inside.Shown fs follow home p entries

def Sights.Shown (fs : FileSystem) (follow : Bool) (home : DeviceId) (p : Path) :
    List Listed → Sights → Prop
  | [], .nil => True
  | .error f :: rest, .bad g sights => f = g ∧ sights.Shown fs follow home p rest
  | .ok c :: rest, .entry n sight sights => c.name = n ∧
      sight.Shown fs follow home (p.join c.name) c.info ∧ sights.Shown fs follow home p rest
  | _, _ => False

end

section

variable {fs fs' : FileSystem} {follow follow' : Bool} {home : DeviceId} {R : Path → Prop}

mutual

theorem Sight.Shown.congr (hlist : ∀ p, R p → fs'.list p follow' = fs.list p follow)
    (hR : ∀ p entries c, R p → fs.list p follow = .ok entries → .ok c ∈ entries → R (p.join c.name)) :
    ∀ (s : Sight) {p : Path} {i : EntryInfo}, R p → s.Shown fs follow home p i →
      s.Shown fs' follow' home p i
  | .foreign, _, _, _, h => h
  | .leaf _, _, _, _, h => h
  | .barred _, p, _, hp, ⟨hd, hk, hl⟩ => ⟨hd, hk, (hlist p hp).trans hl⟩
  | .folder inside, p, _, hp, ⟨hd, hk, entries, hl, hin⟩ =>
      ⟨hd, hk, entries, (hlist p hp).trans hl,
        Sights.Shown.congr hlist hR inside (fun c hc => hR p entries c hp hl hc) hin⟩

theorem Sights.Shown.congr (hlist : ∀ p, R p → fs'.list p follow' = fs.list p follow)
    (hR : ∀ p entries c, R p → fs.list p follow = .ok entries → .ok c ∈ entries → R (p.join c.name)) :
    ∀ (s : Sights) {p : Path} {entries : List Listed},
      (∀ c, .ok c ∈ entries → R (p.join c.name)) → s.Shown fs follow home p entries →
      s.Shown fs' follow' home p entries
  | .nil, _, [], _, _ => trivial
  | .bad _ rest, _, .error _ :: _, hin, ⟨hf, hrest⟩ =>
      ⟨hf, Sights.Shown.congr hlist hR rest (fun c hc => hin c (List.mem_cons_of_mem _ hc)) hrest⟩
  | .entry _ sight rest, _, .ok c :: _, hin, ⟨hn, hsight, hrest⟩ =>
      ⟨hn, Sight.Shown.congr hlist hR sight (hin c List.mem_cons_self) hsight,
        Sights.Shown.congr hlist hR rest (fun c hc => hin c (List.mem_cons_of_mem _ hc)) hrest⟩

end

end

/-- What a walk carries along besides the way it still has to go. -/
structure Pace where
  tally : Tally
  throttle : Throttle
  readings : Nat

/-- What is sent over a stretch of a walk, and what is carried at its end; nothing is if the clock
overran on the way. -/
structure Course where
  signals : List Signal
  pace : Option Pace

namespace Course

def after (l : List Signal) (c : Course) : Course := ⟨l ++ c.signals, c.pace⟩

def andThen (c : Course) (f : Pace → Course) : Course :=
  match c.pace with
  | some s => (f s).after c.signals
  | none => c

end Course

def Plan.leave (P : Plan) (s : Pace) : Course :=
  match s.throttle.ready? (P.clock s.readings) with
  | (none, _) => ⟨[], none⟩
  | (some report, throttle) =>
      ⟨if report then [.event (.progress s.tally)] else [],
        some { s with throttle, readings := s.readings + 1 }⟩

mutual

def Sight.course (P : Plan) (p : Path) : Sight → Pace → Course
  | .foreign, s => ⟨[.log (.otherDevice p)], some s⟩
  | .leaf n, s => ⟨[], some { s with tally := s.tally.addFile n }⟩
  | .barred f, s =>
      (P.leave { s with tally := s.tally.addUnreadable }).after
        [.event (.list p), .log (.unreadableFolder p f)]
  | .folder inside, s =>
      ((inside.course P p { s with tally := s.tally.addFolder }).andThen P.leave).after
        [.event (.list p)]

def Sights.course (P : Plan) (p : Path) : Sights → Pace → Course
  | .nil, s => ⟨[.event (.finish p)], some s⟩
  | .bad f rest, s =>
      (rest.course P p s).after [.event (.bad p f), .log (.skippedEntry p f)]
  | .entry n sight rest, s =>
      ((sight.course P (p.join n) s).andThen (rest.course P p)).after [.event (.child p n)]

end

mutual

def Sight.cost : Sight → Nat
  | .foreign | .leaf _ => 1
  | .barred _ => 3
  | .folder inside => inside.cost + 3

def Sights.cost : Sights → Nat
  | .nil => 1
  | .bad _ rest => rest.cost + 2
  | .entry _ sight rest => sight.cost + rest.cost + 3

end

namespace Walk

variable {P : Plan} {w v : Walk} {k l : Nat} {c : Course} {next next' : Pace → Walk}

def pace (w : Walk) : Pace := ⟨w.tally, w.throttle, w.readings⟩

def atPace (w : Walk) (s : Pace) : Walk :=
  { w with tally := s.tally, throttle := s.throttle, readings := s.readings }

/-- So many steps take a walk along a course. -/
def Follows (P : Plan) (k : Nat) (w : Walk) (c : Course) (next : Pace → Walk) : Prop :=
  match c.pace with
  | some s => advance P k w = (c.signals, next s)
  | none => ∃ v, advance P k w = (c.signals, v) ∧ v.stage = .done .clockOverrun

theorem Follows.andThen {f : Pace → Course} (h : Follows P k w c next)
    (h' : ∀ s, Follows P l (next s) (f s) next') : Follows P (k + l) w (c.andThen f) next' := by
  obtain ⟨a, s | s⟩ := c
  · obtain ⟨v, hv, hd⟩ := h
    refine ⟨v, (advance_trans hv (advance_done hd)).trans ?_, hd⟩
    simp [Course.andThen]
  · have hs := h' s
    rw [Follows] at hs ⊢
    simp only [Course.andThen, Course.after]
    cases hp : (f s).pace with
    | some q =>
        rw [hp] at hs
        exact advance_trans h hs
    | none =>
        rw [hp] at hs
        obtain ⟨v, hv, hd⟩ := hs
        exact ⟨v, advance_trans h hv, hd⟩

theorem Follows.step {s : Option Signal} (h : Follows P k v c next)
    (hs : w.step P false = (v, s)) : Follows P (k + 1) w (c.after s.toList) next := by
  have hone : Follows P 1 w ⟨s.toList, some w.pace⟩ (fun _ => v) := advance_one hs
  rw [Nat.add_comm]
  exact hone.andThen fun _ => h

theorem resume_stage (w : Walk) (g : Stage) : { w with stage := g }.resume = w.resume := by
  unfold resume
  cases w.frames <;> cases w.roots <;> rfl

theorem follows_leave (w : Walk) :
    Follows P 1 { w with stage := .leave } (P.leave w.pace) (fun s => (w.atPace s).resume) := by
  rw [Plan.leave]
  have hstep : ({ w with stage := .leave } : Walk).step P false = leave P { w with stage := .leave } :=
    rfl
  rw [leave] at hstep
  rcases h : w.throttle.ready? (P.clock w.readings) with ⟨answer, throttle⟩
  cases answer with
  | none =>
      simp only [h] at hstep
      simp only [pace, h]
      exact ⟨_, advance_one hstep, rfl⟩
  | some report =>
      let q : Pace := ⟨w.tally, throttle, w.readings + 1⟩
      have hq := resume_stage (w.atPace q) .leave
      simp only [h] at hstep
      simp only [pace, h]
      apply (advance_one (hstep.trans (congrArg (·, _) hq))).trans
      cases report <;> rfl

theorem step_inspect (w : Walk) {p : Path} {i : EntryInfo} {home : DeviceId}
    (h : (w.frames.head?.map (·.device)).getD i.device = home) :
    ({ w with stage := .inspect p (.ok i) } : Walk).step P false =
      if home ≠ i.device then (w.resume, some (.log (.otherDevice p)))
      else if i.kind = .folder then
        ({ w with stage := .opened p home (P.fs.list p P.options.follow) }, some (.event (.list p)))
      else ({ w with tally := w.tally.addFile i.size }.resume, none) := by
  have hstep : ({ w with stage := .inspect p (.ok i) } : Walk).step P false =
      inspect P { w with stage := .inspect p (.ok i) } p i := rfl
  rw [hstep, inspect]
  simp only [h]
  have hw := resume_stage w (.inspect p (.ok i))
  have hf := resume_stage { w with tally := w.tally.addFile i.size } (.inspect p (.ok i))
  rw [hw, hf]

mutual

/-- A walk left alone takes the course of what it meets, unless that is a lone root that refuses to
be listed. -/
theorem follows_sight : ∀ (s : Sight) (w : Walk) {p : Path} {i : EntryInfo} {home : DeviceId},
    s.Shown P.fs P.options.follow home p i →
    (w.frames.head?.map (·.device)).getD i.device = home →
    (w.frames ≠ [] ∨ P.lone = false ∨ ∀ f, s ≠ .barred f) →
    Follows P s.cost { w with stage := .inspect p (.ok i) } (s.course P p w.pace)
      (fun q => (w.atPace q).resume)
  | .foreign, w, p, i, home, hs, hhome, _ => by
      rw [Sight.Shown] at hs
      have h := step_inspect (P := P) (p := p) w hhome
      rw [if_pos hs] at h
      exact advance_one h
  | .leaf n, w, p, i, home, hs, hhome, _ => by
      obtain ⟨hd, hk, rfl⟩ := hs
      have h := step_inspect (P := P) (p := p) w hhome
      rw [if_neg (not_not_intro hd), if_neg hk] at h
      exact advance_one h
  | .barred f, w, p, i, home, hs, hhome, hlone => by
      obtain ⟨hd, hk, hl⟩ := hs
      have h := step_inspect (P := P) (p := p) w hhome
      rw [if_neg (not_not_intro hd), if_pos hk, hl] at h
      have hfatal : ¬(w.frames.isEmpty ∧ P.lone) := by
        rintro ⟨hf, hP⟩
        rcases hlone with hn | hn | hn
        · exact hn (List.isEmpty_iff.1 hf)
        · simp [hn] at hP
        · exact hn f rfl
      have ho : ({ w with stage := .opened p home (.error f) } : Walk).step P false =
          ({ w with stage := .leave, tally := w.tally.addUnreadable },
            some (.log (.unreadableFolder p f))) := if_neg hfatal
      exact ((follows_leave { w with tally := w.tally.addUnreadable }).step ho).step h
  | .folder inside, w, p, i, home, hs, hhome, _ => by
      obtain ⟨hd, hk, entries, hl, hin⟩ := hs
      have h := step_inspect (P := P) (p := p) w hhome
      rw [if_neg (not_not_intro hd), if_pos hk, hl] at h
      have ho : ({ w with stage := .opened p home (.ok entries) } : Walk).step P false =
          ({ w with stage := .pull, frames := ⟨p, home, entries⟩ :: w.frames,
                    tally := w.tally.addFolder }, none) := rfl
      have hinside := follows_sights inside { w with tally := w.tally.addFolder } hin
      have hleave (q : Pace) : Follows P 1 { w.atPace q with stage := .leave } (P.leave q)
          (fun q => (w.atPace q).resume) := follows_leave (w.atPace q)
      exact ((hinside.andThen hleave).step ho).step h

theorem follows_sights : ∀ (s : Sights) (w : Walk) {p : Path} {home : DeviceId}
    {entries : List Listed}, s.Shown P.fs P.options.follow home p entries →
    Follows P s.cost { w with stage := .pull, frames := ⟨p, home, entries⟩ :: w.frames }
      (s.course P p w.pace) (fun q => { w.atPace q with stage := .leave })
  | .nil, w, p, home, [], _ => advance_one rfl
  | .bad f rest, w, p, home, .error g :: entries, hs => by
      obtain ⟨rfl, hrest⟩ := hs
      let inner : Walk := { w with frames := ⟨p, home, entries⟩ :: w.frames }
      have hpull : ({ w with stage := .pull, frames := ⟨p, home, .error g :: entries⟩ :: w.frames } :
          Walk).step P false =
          ({ inner with stage := .received p (.error g) }, some (.event (.bad p g))) := rfl
      have hskip : ({ inner with stage := .received p (.error g) } : Walk).step P false =
          ({ inner with stage := .pull }, some (.log (.skippedEntry p g))) := rfl
      exact ((follows_sights rest w hrest).step hskip).step hpull
  | .entry n sight rest, w, p, home, .ok c :: entries, hs => by
      obtain ⟨rfl, hsight, hrest⟩ := hs
      let inner : Walk := { w with frames := ⟨p, home, entries⟩ :: w.frames }
      have hpull : ({ w with stage := .pull, frames := ⟨p, home, .ok c :: entries⟩ :: w.frames } :
          Walk).step P false =
          ({ inner with stage := .received p (.ok c) }, some (.event (.child p c.name))) := rfl
      have hvisit : ({ inner with stage := .received p (.ok c) } : Walk).step P false =
          ({ inner with stage := .visit (p.join c.name) (some c.info) }, none) := rfl
      have hinspect : ({ inner with stage := .visit (p.join c.name) (some c.info) } : Walk).step P false =
          ({ inner with stage := .inspect (p.join c.name) (.ok c.info) }, none) := rfl
      have hchild := follows_sight sight inner hsight rfl (.inl (List.cons_ne_nil _ _))
      have hgo (q : Pace) := follows_sights rest (w.atPace q) hrest
      exact (((hchild.andThen hgo).step hinspect).step hvisit).step hpull

end

end Walk

end TreeTally
