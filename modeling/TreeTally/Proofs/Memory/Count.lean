import TreeTally.Memory.Count
import TreeTally.Proofs.Memory.Sight

namespace TreeTally

theorem FileSystem.amend_nil (fs : FileSystem) : fs.amend [] = fs := by
  have hlisted (p : Path) (l : Listed) : Amendment.amendListed [] p l = l := by
    cases l <;> rfl
  have hlist (p : Path) (answer : Except Fault (List Listed)) :
      Amendment.amendList [] p answer = answer := by
    have hid : Amendment.amendListed [] p = id := funext (hlisted p)
    cases answer with
    | error f => rfl
    | ok l =>
        show Except.ok (l.map (Amendment.amendListed [] p)) = .ok l
        rw [hid, List.map_id]
  rw [amend]
  congr
  funext p follow
  exact hlist p _

namespace Memory

open TreeTally.Path

def isLeaf (m : Memory) (p : Path) : Bool :=
  (m.nodes.find? p).any fun n => decide (n.content.kind ≠ .folder)

def sizeOf (m : Memory) (p : Path) : Nat := (m.nodes.find? p).elim 0 fun n => n.content.size

def totals (m : Memory) (seen : List Path) : Tally where
  bytes := min Tally.maxBytes ((seen.filter m.isLeaf).map m.sizeOf).sum
  files := seen.countP m.isLeaf
  folders := seen.countP m.isReadable
  unreadable := seen.countP m.isBarred

/-- The root is missing or broken. -/
def isLost (m : Memory) (r : Path) : Bool := !m.nodes.contains r || m.isBroken r

def lossOf (m : Memory) (r : Path) : Fault :=
  if m.nodes.contains r then .unqueryable r else .missing r

/-- What a count of some roots has to come to. -/
def verdict (m : Memory) (roots : List Path) : Outcome :=
  match roots.find? m.isLost with
  | some r => .error (.unreadable r (m.lossOf r))
  | none =>
      match roots.find? fun r => decide (roots.length = 1) && m.isBarred r with
      | some r => .error (.unreadable r (.denied r))
      | none => .ok (m.totals (roots.flatMap m.visible))

variable {m : Memory} {r k : Path}

theorem sum_weight (m : Memory) (seen : List Path) :
    ((seen.map m.weight).sum).capped = m.totals seen := by
  have hsum : (seen.map m.weight).sum = ⟨((seen.filter m.isLeaf).map m.sizeOf).sum,
      seen.countP m.isLeaf, seen.countP m.isReadable, seen.countP m.isBarred⟩ := by
    induction seen with
    | nil => rfl
    | cons q seen ih =>
        rw [List.map_cons, List.sum_cons, ih, weight]
        cases hq : m.nodes.find? q with
        | none =>
            have hleaf : m.isLeaf q = false := by simp [isLeaf, hq]
            have hread : m.isReadable q = false := by simp [isReadable, hq]
            have hbarred : m.isBarred q = false := by simp [isBarred, hq]
            simp [hleaf, hread, hbarred]
        | some n =>
            by_cases hk : n.content.kind = .folder
            · have hleaf : m.isLeaf q = false := by simp [isLeaf, hq, hk]
              have hread : m.isReadable q = n.readable := by simp [isReadable, hq, hk]
              have hbarred : m.isBarred q = !n.readable := by simp [isBarred, hq, hk]
              cases hr : n.readable <;>
                ext <;> simp [hk, hleaf, hread, hbarred, hr, Nat.add_comm]
            · have hleaf : m.isLeaf q = true := by simp [isLeaf, hq, hk]
              have hread : m.isReadable q = false := by simp [isReadable, hq, hk]
              have hbarred : m.isBarred q = false := by simp [isBarred, hq, hk]
              have hsize : m.sizeOf q = n.content.size := by simp [sizeOf, hq]
              ext <;> simp [hk, hleaf, hread, hbarred, hsize, Nat.add_comm]
  rw [hsum]
  simp [Tally.capped, totals, Nat.min_comm]

theorem visible_congr (h : r.Same k) : m.visible r = m.visible k := by
  have hs (q : Path) : q.Same r ↔ q.Same k := ⟨fun hr => hr.trans h, fun hk => hk.trans h.symm⟩
  have hV (q : Path) : m.Visible r q ↔ m.Visible k q := by
    simp only [Visible, AtOrAbove.congr h, hs, deviceOf_congr h]
  simp [visible, hV]

theorem length_below_le : (m.below k).length ≤ m.nodes.keys.length := List.length_filter_le _ _

/-- What a walk meets at a root, as far as a count needs to know it. -/
structure Met (m : Memory) (options : Options) (clock : Nat → Instant) (lone : Bool) (r : Path)
    (s : Sight) : Prop where
  shows : (Plan.mk m.fileSystem options clock lone).Shows r s
  total : s.total = m.weightBelow r
  cost : s.cost + 1 ≤ 7 * m.nodes.keys.length
  barred : ∀ f, s = .barred f → m.isBarred r

theorem stat_lost (h : m.isLost r) : m.stat r false = .error (m.lossOf r) := by
  cases hn : m.nodes.find? r with
  | none => simp [stat_missing hn, lossOf, Map.contains, hn]
  | some n =>
      have hq : n.queryable = false := by simpa [isLost, isBroken, Map.contains, hn] using h
      simp [stat_alone hn, hq, lossOf, Map.contains, hn]

variable {options : Options} {clock : Nat → Instant}

theorem exists_met (clock : Nat → Instant) (lone : Bool) (hc : m.Closed) (hm : m.Plain) (hf : options.follow = false)
    (h : m.isLost r = false) : ∃ s, m.Met options clock lone r s := by
  have hthere : m.nodes.contains r = true := by
    cases hr : m.nodes.contains r with
    | false => simp [isLost, hr] at h
    | true => rfl
  obtain ⟨k, hk, hs⟩ := m.nodes.contains_iff.1 hthere
  obtain ⟨n, hn⟩ := exists_node hk
  have hnr : m.nodes.find? r = some n := (m.nodes.find?_congr hs).trans hn
  have hq : n.queryable = true := by simpa [isLost, isBroken, Map.contains, hnr] using h
  obtain ⟨s, hshown, htotal, hcost, hbarred⟩ := rendered hc hm hk r n hs hn
  have hinfo : m.infoOf r n = m.infoOf k n := by rw [infoOf, infoOf, deviceOf_congr hs]
  have hstat : m.stat r false = .ok (m.infoOf k n) := by rw [stat_alone hnr, if_pos hq, hinfo]
  refine ⟨s, ⟨m.infoOf k n, hf ▸ hstat, hf ▸ hshown⟩, ?_, ?_, fun f hs' => ?_⟩
  · rw [htotal, weightBelow, weightBelow, visible_congr hs]
  · have := length_below_le (m := m) (k := k)
    omega
  · have := hbarred f hs'
    rwa [isBarred, ← m.nodes.find?_congr hs] at this

theorem exists_mets (clock : Nat → Instant) (lone : Bool) (hc : m.Closed) (hm : m.Plain)
    (hf : options.follow = false) (roots : List Path)
    (h : ∀ r ∈ roots, m.isLost r = false) :
    ∃ l : List (Path × Sight), l.map Prod.fst = roots ∧
      (∀ x ∈ l, m.Met options clock lone x.1 x.2) ∧
      rootsTotal l = ((roots.flatMap m.visible).map m.weight).sum ∧
      rootsCost l ≤ roots.length * (7 * m.nodes.keys.length) := by
  induction roots with
  | nil => exact ⟨[], rfl, by simp, rfl, Nat.zero_le _⟩
  | cons r roots ih =>
      obtain ⟨s, hs⟩ := exists_met clock lone hc hm hf (h r List.mem_cons_self)
      obtain ⟨l, hl, hmet, htotal, hcost⟩ := ih fun q hq => h q (List.mem_cons_of_mem _ hq)
      refine ⟨(r, s) :: l, by rw [List.map_cons, hl], ?_, ?_, ?_⟩
      · intro x hx
        rcases List.mem_cons.1 hx with rfl | hx
        · exact hs
        · exact hmet x hx
      · rw [rootsTotal] at htotal ⊢
        rw [List.map_cons, List.sum_cons, htotal, hs.total, List.flatMap_cons, List.map_append,
          List.sum_append, weightBelow]
      · have hone : s.cost + 1 ≤ 7 * m.nodes.keys.length := hs.cost
        rw [rootsCost] at hcost ⊢
        rw [List.map_cons, List.sum_cons, List.length_cons, Nat.succ_mul, Nat.add_comm]
        exact Nat.add_le_add hcost hone

theorem effort_suffices (m : Memory) (roots events : Nat) :
    roots * (7 * m.nodes.keys.length) + 8 < m.effort roots events := by
  have hsquare := Nat.le_mul_self m.nodes.keys.length
  have hroots : roots * (7 * m.nodes.keys.length) ≤
      roots * (8 * (m.nodes.keys.length * m.nodes.keys.length + 2)) :=
    Nat.mul_le_mul_left _ (by omega)
  rw [Nat.mul_left_comm roots 8] at hroots
  show _ < 8 * (roots * (m.nodes.keys.length * m.nodes.keys.length + 2) + events + 2)
  omega

variable {fuel : Nat} {roots : List Path}

/-- A count left alone has an outcome, unless the clock overruns. -/
def ComesTo (P : Plan) (fuel : Nat) (roots : List Path) (o : Outcome) : Prop :=
  ∃ report, P.count fuel {} roots = some report ∧
    (report.ending = .outcome o ∨ report.ending = .clockOverrun ∧ P.Overruns)

theorem comesTo_of_course {P : Plan} {l : List (Path × Sight)} {close : Pace → Report}
    {o : Outcome}
    (h : P.count fuel {} roots =
      some ((P.course l ⟨{}, ⟨P.options.interval, none⟩, 0⟩).report close))
    (hclose : ∀ s : Pace, s.tally = (rootsTotal l).capped → (close s).ending = .outcome o) :
    ComesTo P fuel roots o := by
  have hgains : (P.course l ⟨{}, ⟨P.options.interval, none⟩, 0⟩).Gains P (0 + rootsTotal l) :=
    gains_roots _ rfl rfl
  rw [zero_add] at hgains
  refine ⟨_, h, ?_⟩
  rcases hgains.ending close with ⟨s, hs, he⟩ | hover
  · exact .inl (he.trans (hclose s hs))
  · exact .inr hover

theorem comesTo_lost (hc : m.Closed) (hm : m.Plain) (hf : options.follow = false)
    {before after : List Path} (hbefore : ∀ q ∈ before, m.isLost q = false) (hr : m.isLost r)
    (hfuel : (before ++ r :: after).length * (7 * m.nodes.keys.length) + 8 < fuel) :
    ComesTo (.ofOptions m.fileSystem options clock (before ++ r :: after)) fuel
      (before ++ r :: after) (.error (.unreadable r (m.lossOf r))) := by
  let P := Plan.ofOptions m.fileSystem options clock (before ++ r :: after)
  obtain ⟨l, hl, hmet, -, hcost⟩ := exists_mets clock P.lone hc hm hf _ hbefore
  have hmany : ∀ x ∈ l, P.Shows x.1 x.2 ∧ (P.lone = false ∨ ∀ f, x.2 ≠ .barred f) := by
    intro x hx
    refine ⟨(hmet x hx).shows, .inl (decide_eq_false ?_)⟩
    have hlen : 0 < before.length := by
      rw [← hl, List.length_map]
      exact List.length_pos_of_mem hx
    simp only [List.length_append, List.length_cons]
    omega
  have hstat : P.fs.stat r P.options.follow = .error (m.lossOf r) := by
    have hlost := stat_lost hr
    rwa [← hf] at hlost
  have hless : before.length * (7 * m.nodes.keys.length) ≤
      (before ++ r :: after).length * (7 * m.nodes.keys.length) :=
    Nat.mul_le_mul_right _ (by simp)
  have hcount (hlong : rootsCost l + 3 < fuel) := count_unshown (P := P) hmany hstat hlong after
  rw [hl] at hcount
  exact comesTo_of_course (hcount (by omega)) fun _ _ => rfl

theorem comesTo_seen (hc : m.Closed) (hm : m.Plain) (hf : options.follow = false)
    (hkept : ∀ q ∈ roots, m.isLost q = false)
    (hopen : ∀ q ∈ roots, roots.length = 1 → m.isBarred q = false)
    (hfuel : roots.length * (7 * m.nodes.keys.length) + 8 < fuel) :
    ComesTo (.ofOptions m.fileSystem options clock roots) fuel roots
      (.ok (m.totals (roots.flatMap m.visible))) := by
  let P := Plan.ofOptions m.fileSystem options clock roots
  obtain ⟨l, hl, hmet, htotal, hcost⟩ :=
    exists_mets clock P.lone hc hm hf _ hkept
  have hshown : ∀ x ∈ l, P.Shows x.1 x.2 ∧ (P.lone = false ∨ ∀ f, x.2 ≠ .barred f) := by
    intro x hx
    refine ⟨(hmet x hx).shows, ?_⟩
    have hmem : x.1 ∈ roots := hl ▸ List.mem_map_of_mem hx
    by_cases hlen : roots.length = 1
    · right
      intro f he
      have hb := (hmet x hx).barred f he
      rw [hopen _ hmem hlen] at hb
      exact absurd hb (by simp)
    · have hpos : 0 < roots.length := List.length_pos_of_mem hmem
      exact .inl (decide_eq_false (by omega))
  have hlong : rootsCost l + 2 < fuel := by omega
  have hcount := count_shown hshown hlong
  rw [hl] at hcount
  apply comesTo_of_course hcount
  intro s hs
  rw [← sum_weight, ← htotal, ← hs]

theorem comesTo_barred (hf : options.follow = false) (hr : m.isLost r = false)
    (hbarred : m.isBarred r) (hfuel : 5 < fuel) :
    ComesTo (.ofOptions m.fileSystem options clock [r]) fuel [r]
      (.error (.unreadable r (.denied r))) := by
  let P := Plan.ofOptions m.fileSystem options clock [r]
  cases hn : m.nodes.find? r with
  | none => simp [isBarred, hn] at hbarred
  | some n =>
      obtain ⟨hk, hread⟩ : n.content.kind = .folder ∧ n.readable = false := by
        simpa [isBarred, hn] using hbarred
      have hq : n.queryable = true := by simpa [isLost, isBroken, Map.contains, hn] using hr
      have hstat : P.fs.stat r P.options.follow = .ok (m.infoOf r n) := by
        have hinfo := stat_alone hn
        rwa [if_pos hq, ← hf] at hinfo
      have hlist : P.fs.list r P.options.follow = .error (.denied r) := by
        have hdenied := list_alone hn hk
        rwa [if_neg (by simp [hread]), ← hf] at hdenied
      exact ⟨_, count_barred rfl hstat hk hlist hfuel, .inl rfl⟩

/-- Whatever has been built, a count that is left alone and follows no links comes to what can be
seen from its roots, unless the clock cannot be read so far ahead as the interval asks. -/
theorem count_built (d : DeviceId) (calls : List Build) (options : Options)
    (clock : Nat → Instant) (roots : List Path) (hplain : ∀ c ∈ calls, c.path.Plain)
    (hfollow : options.follow = false) :
    ∃ report, (built d calls).count [] options clock {} roots = some report ∧
      (report.ending = .outcome ((built d calls).verdict roots) ∨
        report.ending = .clockOverrun ∧ ∃ k, (clock k).add? options.interval = none) := by
  have hc := closed_built d calls
  have hm := plain_built d hplain
  generalize built d calls = m at hc hm
  have heffort := effort_suffices m roots.length 0
  have hcomes : ComesTo (.ofOptions m.fileSystem options clock roots) (m.effort roots.length 0)
      roots (m.verdict roots) := by
    rw [verdict]
    cases hlost : roots.find? m.isLost with
    | some r =>
        obtain ⟨hr, before, after, rfl, hbefore⟩ := List.find?_eq_some_iff_append.1 hlost
        exact comesTo_lost hc hm hfollow (fun q hq => by simpa using hbefore q hq) hr heffort
    | none =>
        have hkept : ∀ q ∈ roots, m.isLost q = false := fun q hq => by
          simpa using List.find?_eq_none.1 hlost q hq
        cases hbarred : roots.find? fun r => decide (roots.length = 1) && m.isBarred r with
        | some r =>
            have hr := List.find?_some hbarred
            simp only [Bool.and_eq_true, decide_eq_true_eq] at hr
            obtain ⟨q, rfl⟩ := List.length_eq_one_iff.1 hr.1
            obtain rfl : r = q := List.mem_singleton.1 (List.mem_of_find?_eq_some hbarred)
            exact comesTo_barred hfollow (hkept _ List.mem_cons_self) hr.2 (by omega)
        | none =>
            refine comesTo_seen hc hm hfollow hkept (fun q hq hlen => ?_) heffort
            simpa [hlen] using List.find?_eq_none.1 hbarred q hq
  rw [Memory.count, FileSystem.amend_nil]
  exact hcomes

def sampleCalls : List Build :=
  [.file ⟨['/', 'a', '/', 'x']⟩ 3, .mount ⟨['/', 'a', '/', 'm']⟩ ⟨"other"⟩,
    .file ⟨['/', 'a', '/', 'm', '/', 'y']⟩ 5, .unreadable ⟨['/', 'a', '/', 'u']⟩,
    .broken ⟨['/', 'a', '/', 'z']⟩, .file ⟨['/', 'a', '/', 'b', '/', 'x']⟩ 4]

theorem count_built_sample :
    ∃ report, (built ⟨"home"⟩ sampleCalls).count [] { interval := ⟨0⟩ } (fun _ => ⟨0⟩) {}
        [⟨['/', 'a']⟩, ⟨['/', 'a', '/', 'b', '/']⟩] = some report ∧
      report.ending = .outcome (.ok ⟨11, 3, 3, 1⟩) := by
  have hverdict : (built ⟨"home"⟩ sampleCalls).verdict
      [⟨['/', 'a']⟩, ⟨['/', 'a', '/', 'b', '/']⟩] = .ok ⟨11, 3, 3, 1⟩ := rfl
  obtain ⟨report, hcount, hend | ⟨-, k, hover⟩⟩ := count_built ⟨"home"⟩ sampleCalls { interval := ⟨0⟩ }
    (fun _ => ⟨0⟩) [⟨['/', 'a']⟩, ⟨['/', 'a', '/', 'b', '/']⟩] (by decide) rfl
  · exact ⟨report, hcount, hverdict ▸ hend⟩
  · cases hover

end Memory

end TreeTally
