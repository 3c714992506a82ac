import TreeTally.Proofs.Walk.Ended

namespace TreeTally

/-- What an entry of a listing adds, given what paths add. -/
def Listed.worth (worth : Path → EntryInfo → Tally) (folder : Path) : Listed → Tally
  | .ok c => worth (folder.join c.name) c.info
  | .error _ => 0

namespace FileSystem

/-- Only so many folders open one inside the other from a path on. -/
def Shallow (fs : FileSystem) (follow : Bool) : Nat → Path → Prop
  | 0, p => ∀ entries, fs.list p follow ≠ .ok entries
  | levels + 1, p => ∀ entries, fs.list p follow = .ok entries → ∀ c, .ok c ∈ entries →
      fs.Shallow follow levels (p.join c.name)

def Narrow (fs : FileSystem) (follow : Bool) (width : Nat) : Prop :=
  ∀ p entries, fs.list p follow = .ok entries → entries.length ≤ width

/-- What so many levels add from an entry on, the entry itself being the first. -/
def worth (fs : FileSystem) (follow : Bool) (home : DeviceId) : Nat → Path → EntryInfo → Tally
  | 0, _, _ => 0
  | levels + 1, p, i =>
      if home ≠ i.device then 0
      else if i.kind ≠ .folder then ⟨i.size, 1, 0, 0⟩
      else match fs.list p follow with
        | .error _ => ⟨0, 0, 0, 1⟩
        | .ok entries =>
            ⟨0, 0, 1, 0⟩ + (entries.map (Listed.worth (fs.worth follow home levels) p)).sum

def rootWorth (fs : FileSystem) (follow : Bool) (levels : Nat) (r : Path) : Tally :=
  match fs.stat r follow with
  | .ok i => fs.worth follow i.device levels r i
  | .error _ => 0

/-- The path was described so, by itself or in the listing of a folder. -/
def Tells (fs : FileSystem) (follow : Bool) (p : Path) (i : EntryInfo) : Prop :=
  fs.stat p follow = .ok i ∨
    ∃ q entries n, fs.list q follow = .ok entries ∧ .ok ⟨n, i⟩ ∈ entries ∧ p = q.join n

end FileSystem

/-- What is sent of a fault is what the file system answered: to the question for a listing of what
it had called a folder, or in a listing. -/
def Signal.Backed (fs : FileSystem) (follow : Bool) : Signal → Prop
  | .event (.bad p f) | .log (.skippedEntry p f) =>
      ∃ entries, fs.list p follow = .ok entries ∧ .error f ∈ entries
  | .log (.unreadableFolder p f) =>
      fs.list p follow = .error f ∧ ∃ i, fs.Tells follow p i ∧ i.kind = .folder
  | _ => True

section

variable {fs : FileSystem} {follow : Bool} {home : DeviceId} {width bound levels : Nat}

theorem exists_listing (levels : Nat) {p : Path} (entries : List Listed)
    (h : ∀ c, .ok c ∈ entries → ∃ s : Sight, s.Shown fs follow home (p.join c.name) c.info ∧
      s.cost + 4 ≤ bound ∧
      ∀ m, levels < m → s.total = fs.worth follow home m (p.join c.name) c.info)
    (hbound : 8 ≤ bound) :
    ∃ s : Sights, s.Shown fs follow home p entries ∧ s.cost ≤ 1 + entries.length * bound ∧
      ∀ m, levels < m → s.total = (entries.map (Listed.worth (fs.worth follow home m) p)).sum := by
  induction entries with
  | nil => exact ⟨.nil, trivial, by simp [Sights.cost], fun _ _ => rfl⟩
  | cons entry entries ih =>
      obtain ⟨rest, hshown, hcost, htotal⟩ := ih fun c hc => h c (List.mem_cons_of_mem _ hc)
      have hlen : (entry :: entries).length * bound = entries.length * bound + bound := by
        rw [List.length_cons, Nat.succ_mul]
      cases entry with
      | error f =>
          refine ⟨.bad f rest, ⟨rfl, hshown⟩, ?_, fun m hm => ?_⟩
          · rw [Sights.cost]
            omega
          · rw [Sights.total, htotal m hm, List.map_cons, List.sum_cons, Listed.worth, zero_add]
      | ok c =>
          obtain ⟨sight, hsight, hscost, hstotal⟩ := h c List.mem_cons_self
          refine ⟨.entry c.name sight rest, ⟨rfl, hsight, hshown⟩, ?_, fun m hm => ?_⟩
          · rw [Sights.cost]
            omega
          · rw [Sights.total, hstotal m hm, htotal m hm, List.map_cons, List.sum_cons, Listed.worth]

theorem exists_sight_of_listing {p : Path} {i : EntryInfo} (hbound : 8 ≤ bound)
    (h : ∀ entries, fs.list p follow = .ok entries → ∃ s : Sights,
      s.Shown fs follow home p entries ∧ s.cost + 7 ≤ bound ∧ ∀ m, levels < m + 1 →
        s.total = (entries.map (Listed.worth (fs.worth follow home m) p)).sum) :
    ∃ s : Sight, s.Shown fs follow home p i ∧ s.cost + 4 ≤ bound ∧
      ∀ m, levels < m → s.total = fs.worth follow home m p i := by
  have hworth (m : Nat) (hm : levels < m) : ∃ m', m = m' + 1 ∧ levels < m' + 1 :=
    ⟨m - 1, by omega, by omega⟩
  by_cases hd : home = i.device
  · by_cases hk : i.kind = .folder
    · cases hl : fs.list p follow with
      | error f =>
          refine ⟨.barred f, ⟨hd, hk, hl⟩, Nat.le_trans (by decide : 3 + 4 ≤ 8) hbound, fun m hm => ?_⟩
          obtain ⟨m, rfl, -⟩ := hworth m hm
          rw [FileSystem.worth, if_neg (not_not_intro hd), if_neg (not_not_intro hk), hl, Sight.total]
      | ok entries =>
          obtain ⟨inside, hin, hcost, htotal⟩ := h entries hl
          refine ⟨.folder inside, ⟨hd, hk, entries, hl, hin⟩, ?_, fun m hm => ?_⟩
          · rw [Sight.cost]
            omega
          · obtain ⟨m, rfl, hm⟩ := hworth m hm
            rw [FileSystem.worth, if_neg (not_not_intro hd), if_neg (not_not_intro hk), hl, Sight.total,
              htotal m hm]
    · refine ⟨.leaf i.size, ⟨hd, hk, rfl⟩, Nat.le_trans (by decide : 1 + 4 ≤ 8) hbound,
        fun m hm => ?_⟩
      obtain ⟨m, rfl, -⟩ := hworth m hm
      rw [FileSystem.worth, if_neg (not_not_intro hd), if_pos hk, Sight.total]
  · refine ⟨.foreign, hd, Nat.le_trans (by decide : 1 + 4 ≤ 8) hbound, fun m hm => ?_⟩
    obtain ⟨m, rfl, -⟩ := hworth m hm
    rw [FileSystem.worth, if_pos hd, Sight.total]

theorem FileSystem.Shallow.exists_sight {p : Path} (h : fs.Shallow follow levels p)
    (hnarrow : fs.Narrow follow width) (home : DeviceId) (i : EntryInfo) :
    ∃ s : Sight, s.Shown fs follow home p i ∧ s.cost + 4 ≤ 8 * (width + 2) ^ levels ∧
      ∀ m, levels < m → s.total = fs.worth follow home m p i := by
  induction levels generalizing p i with
  | zero => exact exists_sight_of_listing (Nat.le_refl _) fun entries hl => absurd hl (h entries)
  | succ levels ih =>
      let bound := 8 * (width + 2) ^ levels
      have hbound : 8 ≤ bound := Nat.le_mul_of_pos_right 8 (Nat.pow_pos (Nat.succ_pos _))
      have hnext : 8 * (width + 2) ^ (levels + 1) = width * bound + 2 * bound := by
        rw [Nat.pow_succ, ← Nat.mul_assoc, Nat.mul_comm, Nat.add_mul]
      rw [hnext]
      refine exists_sight_of_listing (by omega) fun entries hl => ?_
      obtain ⟨inside, hin, hcost, htotal⟩ := exists_listing levels entries
        (fun c hc => ih (h entries hl c hc) c.info) hbound
      refine ⟨inside, hin, ?_, fun m hm => htotal m (Nat.lt_of_succ_lt_succ hm)⟩
      have hlen : entries.length * bound ≤ width * bound :=
        Nat.mul_le_mul_right bound (hnarrow p entries hl)
      change inside.cost ≤ 1 + entries.length * bound at hcost
      omega

end

section

variable {P : Plan} {home : DeviceId} {follow : Bool} {c : Course}

theorem backed_andThen {f : Pace → Course} {Q : Signal → Prop} (h : ∀ x ∈ c.signals, Q x)
    (hf : ∀ s, ∀ x ∈ (f s).signals, Q x) : ∀ x ∈ (c.andThen f).signals, Q x := by
  rw [Course.andThen]
  cases c.pace with
  | none => exact h
  | some s =>
      intro x hx
      rcases List.mem_append.1 hx with hx | hx
      · exact h x hx
      · exact hf s x hx

theorem backed_leave (s : Pace) : ∀ x ∈ (P.leave s).signals, x.Backed P.fs P.options.follow := by
  rw [Plan.leave]
  split
  · exact List.forall_mem_nil _
  · split
    · exact List.forall_mem_singleton.2 trivial
    · exact List.forall_mem_nil _

mutual

theorem Sight.backed (P : Plan) : ∀ (sight : Sight) {p : Path} {i : EntryInfo} (s : Pace),
    P.fs.Tells P.options.follow p i → sight.Shown P.fs P.options.follow home p i →
    ∀ x ∈ (sight.course P p s).signals, x.Backed P.fs P.options.follow
  | .foreign, _, _, _, _, _ => List.forall_mem_singleton.2 trivial
  | .leaf _, _, _, _, _, _ => nofun
  | .barred _, _, i, _, hi, ⟨_, hk, hl⟩ =>
      List.forall_mem_cons.2 ⟨trivial, List.forall_mem_cons.2 ⟨⟨hl, i, hi, hk⟩, backed_leave _⟩⟩
  | .folder inside, _, _, _, _, ⟨_, _, _, hl, hin⟩ =>
      List.forall_mem_cons.2 ⟨trivial, backed_andThen
        (inside.backed P _ hl (fun _ he => he) hin) backed_leave⟩

theorem Sights.backed (P : Plan) : ∀ (sights : Sights) {p : Path} {entries all : List Listed}
    (s : Pace), P.fs.list p P.options.follow = .ok all → (∀ e ∈ entries, e ∈ all) →
    sights.Shown P.fs P.options.follow home p entries →
    ∀ x ∈ (sights.course P p s).signals, x.Backed P.fs P.options.follow
  | .nil, _, [], _, _, _, _, _ => List.forall_mem_singleton.2 trivial
  | .bad f rest, p, .error g :: entries, all, s, hl, hall, hs => by
      obtain ⟨hg, hentries⟩ := List.forall_mem_cons.1 hall
      obtain ⟨rfl, hrest⟩ := hs
      refine List.forall_mem_cons.2 ⟨⟨all, hl, hg⟩, List.forall_mem_cons.2 ⟨⟨all, hl, hg⟩, ?_⟩⟩
      exact rest.backed P s hl hentries hrest
  | .entry n sight rest, p, .ok c :: entries, all, s, hl, hall, hs => by
      obtain ⟨hc, hentries⟩ := List.forall_mem_cons.1 hall
      obtain ⟨rfl, hsight, hrest⟩ := hs
      refine List.forall_mem_cons.2 ⟨trivial, backed_andThen ?_ fun q => ?_⟩
      · exact sight.backed P s (.inr ⟨p, all, c.name, hl, hc, rfl⟩) hsight
      · exact rest.backed P q hl hentries hrest

end

theorem backed_roots {l : List (Path × Sight)} (h : ∀ x ∈ l, P.Shows x.1 x.2) (s : Pace) :
    ∀ x ∈ (P.course l s).signals, x.Backed P.fs P.options.follow := by
  induction l generalizing s with
  | nil => exact nofun
  | cons y l ih =>
      obtain ⟨⟨i, hi, hs⟩, hl⟩ := List.forall_mem_cons.1 h
      exact List.forall_mem_cons.2 ⟨trivial, backed_andThen (y.2.backed P s (.inl hi) hs) (ih hl)⟩

theorem Plan.Finds.backed {Q : Path → Sight → Prop} {roots : List Path} {l : List (Path × Sight)}
    {calls : List Event} {o : Outcome} (h : P.Finds Q roots l calls o) :
    ∀ x ∈ (P.tells l calls o).signals, x.Backed P.fs P.options.follow := by
  have hcourse := backed_roots h.shown.2 P.outset
  have hcalls : ∀ e ∈ calls, (Signal.event e).Backed P.fs P.options.follow := by
    intro e he
    cases h with
    | through => cases he
    | lost =>
        obtain rfl := List.mem_singleton.1 he
        trivial
    | refused => rcases List.mem_pair.1 he with rfl | rfl <;> trivial
  rw [Plan.tells, Course.report]
  cases (P.course l P.outset).pace with
  | none => exact hcourse
  | some q =>
      intro x hx
      rcases List.mem_append.1 hx with hx | hx
      · exact hcourse x hx
      rcases List.mem_append.1 hx with hx | hx
      · obtain ⟨e, he, rfl⟩ := List.mem_map.1 hx
        exact hcalls e he
      · obtain ⟨t, -, rfl⟩ := List.mem_map.1 hx
        trivial

end

/-- What a count comes to where only so many folders open one inside the other. -/
structure FileSystem.Exhausts (fs : FileSystem) (options : Options) (clock : Nat → Instant)
    (levels : Nat) (roots : List Path) (r : Report) : Prop where
  ending : (∃ o, r.ending = .outcome o) ∨
    r.ending = .clockOverrun ∧ (Plan.ofOptions fs options clock roots).Overruns
  backed : ∀ x ∈ r.signals, x.Backed fs options.follow
  total : ∀ t, r.ending = .outcome (.ok t) → ∀ m, levels < m →
    t = ((roots.map (fs.rootWorth options.follow m)).sum).capped
  good : (∀ q ∈ roots, ∃ i, fs.stat q options.follow = .ok i ∧
      (i.kind = .folder → ∃ entries, fs.list q options.follow = .ok entries)) →
    ∀ f, r.ending ≠ .outcome (.error f)

theorem FileSystem.Shallow.exhausts {fs : FileSystem} {options : Options} {width levels : Nat}
    {roots : List Path} (clock : Nat → Instant) (hnarrow : fs.Narrow options.follow width)
    (h : ∀ r ∈ roots, fs.Shallow options.follow levels r) : ∃ r,
      (∀ fuel, roots.length * (8 * (width + 2) ^ levels) + 5 < fuel →
        (Plan.ofOptions fs options clock roots).count fuel {} roots = some r) ∧
      fs.Exhausts options clock levels roots r := by
  let Q (q : Path) (s : Sight) : Prop := s.cost + 4 ≤ 8 * (width + 2) ^ levels ∧
    ∀ m, levels < m → s.total = fs.rootWorth options.follow m q
  have hsights : ∀ q ∈ roots, ∀ i, fs.stat q options.follow = .ok i →
      ∃ s : Sight, s.Shown fs options.follow i.device q i ∧ Q q s := by
    intro q hq i hi
    obtain ⟨s, hs, hcost, htotal⟩ := (h q hq).exists_sight hnarrow i.device i
    refine ⟨s, hs, hcost, fun m hm => ?_⟩
    rw [htotal m hm, FileSystem.rootWorth, hi]
  obtain ⟨l, calls, o, hfinds⟩ := finds_of_sights fs options clock roots hsights
  obtain ⟨r, hcount, hcompletes⟩ := hfinds.completes fun q s hq => Nat.le_of_succ_le
    (Nat.le_of_succ_le (Nat.le_of_succ_le hq.1))
  obtain ⟨n, hn⟩ := hfinds.exists_count
  obtain rfl := Plan.count_unique (hcount _ (Nat.lt_succ_self _)) (hn _ (Nat.lt_succ_self n))
  refine ⟨_, hcount, hcompletes.ending, hfinds.backed, fun t ht m hm => ?_, fun hgood f hf => ?_⟩
  · obtain ⟨l, rfl, hl, rfl⟩ := hcompletes.total t ht
    rw [List.map_map]
    refine congrArg Tally.capped (congrArg List.sum ?_)
    exact List.map_congr_left fun x hx => (hl x hx).2 m hm
  · obtain ⟨-, rfl⟩ := Plan.lasts_of_tells hf
    cases hfinds with
    | lost l h q f hq rest =>
        obtain ⟨i, hi, -⟩ := hgood q (by simp)
        cases hq.symm.trans hi
    | refused q i f hlone hq hk hl _ =>
        obtain ⟨j, hj, hopen⟩ := hgood q List.mem_cons_self
        obtain rfl : j = i := Except.ok.inj (hj.symm.trans hq)
        obtain ⟨entries, he⟩ := hopen hk
        cases hl.symm.trans he

end TreeTally
