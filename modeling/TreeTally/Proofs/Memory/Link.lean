import TreeTally.Proofs.Memory.Count
import TreeTally.Proofs.Memory.Finite

namespace TreeTally

def Tally.shut (t : Tally) : Tally := ⟨t.bytes, t.files, 0, t.folders + t.unreadable⟩

theorem Tally.shut_add (a b : Tally) : (a + b).shut = a.shut + b.shut := by
  ext <;> simp only [shut, bytes_add, files_add, folders_add, unreadable_add]
  omega

namespace Memory

open TreeTally.Path

def isLink (m : Memory) (p : Path) : Bool :=
  (m.nodes.find? p).any fun n => decide (n.content.kind = .link)

def isFolder (m : Memory) (p : Path) : Bool :=
  (m.nodes.find? p).any fun n => decide (n.content.kind = .folder)

/-- An unbroken link leads to a readable and unbroken folder without a link anywhere below it. -/
structure LinksTo (m : Memory) (l t : Path) : Prop where
  link : ∃ n, m.nodes.find? l = some n ∧ n.queryable = true ∧ n.content = .link t
  readable : m.isReadable t = true
  whole : m.isBroken t = false
  straight : ∀ k ∈ m.nodes.keys, t.AtOrAbove k → m.isLink k = false

/-- What a count comes to by way of a link to a folder: all that is in the folder, but nothing
below. -/
def glimpse (m : Memory) (t : Path) : Tally := (m.totals (m.seenChildren t)).shut.addFolder

variable {m : Memory} {k l p q t : Path} {n : Node}

theorem Tidy.plain (h : m.Tidy) (hc : m.Closed) : m.Plain := by
  intro q hq
  obtain ⟨k, hk, hsame⟩ := m.nodes.contains_iff.1 hq
  have hno (x : Part) (hx : x = .up ∨ x = .here) (hmem : x ∈ q.parts) : False := by
    obtain ⟨v, w, he⟩ := List.append_of_mem hmem
    have hk' : k.parts = (v ++ [x]) ++ w := by rw [← show q.parts = k.parts from hsame, he]; simp
    obtain ⟨k', hkey, hlast⟩ := hc.exists_key hk hk' (by simp)
    have htidy := h k' hkey
    rw [hlast, List.getLast?_concat] at htidy
    rcases hx with rfl | rfl
    · exact htidy.1 rfl
    · exact htidy.2 rfl
  exact ⟨hno _ (.inl rfl), hno _ (.inr rfl)⟩

theorem chase_straight {steps : Nat} (hn : m.nodes.find? q = some n)
    (hlink : n.content.kind ≠ .link) : m.chase p (steps + 1) q = .ok q := by
  obtain ⟨content, readable, queryable⟩ := n
  rw [chase, look, hn]
  cases content with
  | link t => exact absurd rfl hlink
  | _ => rfl

theorem resolve_straight (hn : m.nodes.find? p = some n) (hlink : n.content.kind ≠ .link)
    (follow : Bool) : m.resolve p follow = .ok p := by
  cases follow with
  | false => rfl
  | true => exact chase_straight hn hlink

theorem stat_straight (hn : m.nodes.find? p = some n) (hlink : n.content.kind ≠ .link)
    (follow : Bool) : m.stat p follow = m.stat p false := by
  rw [stat, stat, resolve_straight hn hlink follow, resolve_straight hn hlink false]

def Inside (m : Memory) (t p : Path) : Prop := ∃ k ∈ m.nodes.keys, t.AtOrAbove k ∧ p.Same k

theorem inside_child (hp : m.Inside t p) (hc : q ∈ m.childKeys p) : t.AtOrAbove q := by
  obtain ⟨k, -, habove, hsame⟩ := hp
  rw [childKeys_congr hsame] at hc
  exact habove.trans (child_above hc).1

theorem LinksTo.node (h : m.LinksTo l t) (hp : m.Inside t p) :
    ∃ n, m.nodes.find? p = some n ∧ n.content.kind ≠ .link := by
  obtain ⟨k, hk, habove, hsame⟩ := hp
  obtain ⟨n, hn⟩ := exists_node hk
  refine ⟨n, (m.nodes.find?_congr hsame).trans hn, ?_⟩
  simpa [isLink, hn] using h.straight k hk habove

theorem LinksTo.stat (h : m.LinksTo l t) (hp : m.Inside t p) (follow : Bool) :
    m.stat p follow = m.stat p false := by
  obtain ⟨n, hn, hlink⟩ := h.node hp
  exact stat_straight hn hlink follow

theorem LinksTo.list (h : m.LinksTo l t) (hp : m.Inside t p) (follow : Bool) :
    m.list p follow = m.list p false := by
  obtain ⟨n, hn, hlink⟩ := h.node hp
  have hlisted : (m.childKeys p).map (m.listed follow) = (m.childKeys p).map (m.listed false) := by
    refine List.map_congr_left fun c hc => ?_
    have hinside : m.Inside t c := ⟨c, (mem_childKeys.1 hc).1, inside_child hp hc, rfl⟩
    rw [listed, listed, h.stat hinside follow]
  by_cases hk : n.content.kind = .folder
  · rw [list_of_resolve (resolve_straight hn hlink follow) hn hk, list_alone hn hk, hlisted]
  · rw [list_leaf (resolve_straight hn hlink follow) hn hk, list_leaf rfl hn hk]

namespace LinksTo

theorem folder (h : m.LinksTo l t) : ∃ k ∈ m.nodes.keys, ∃ n, t.Same k ∧
    m.nodes.find? t = some n ∧ n.content.kind = .folder ∧ n.readable = true ∧
    n.queryable = true := by
  obtain ⟨n, hn, hkind, hr⟩ := isReadable_iff.1 h.readable
  have hthere : m.nodes.contains t = true := by simp [Map.contains, hn]
  obtain ⟨k, hk, hsame⟩ := m.nodes.contains_iff.1 hthere
  have hq : n.queryable = true := by simpa [isBroken, hn] using h.whole
  exact ⟨k, hk, n, hsame, hn, hkind, hr, hq⟩

theorem inside (h : m.LinksTo l t) : m.Inside t t := by
  obtain ⟨k, hk, n, hsame, -⟩ := h.folder
  exact ⟨k, hk, .of_same hsame, hsame⟩

theorem inside_join (hm : m.Plain) (hp : m.Inside t p) {entries : List Listed} {c : Child}
    (hl : m.list p false = .ok entries) (hc : .ok c ∈ entries) : m.Inside t (p.join c.name) := by
  obtain ⟨k, hk, habove, hsame⟩ := hp
  obtain ⟨-, rfl⟩ := list_ok hl
  obtain ⟨q, hq, hlisted⟩ := List.mem_map.1 hc
  have hq : q ∈ m.childKeys p := hq
  rw [childKeys_congr hsame] at hq
  obtain ⟨x, hx, hjoin⟩ := hm.exists_name hsame hq
  have hname : c.name = x := by
    rw [listed, hx] at hlisted
    cases hs : m.stat q false with
    | error f =>
        rw [hs] at hlisted
        cases hlisted
    | ok i =>
        rw [hs] at hlisted
        cases hlisted
        rfl
  rw [hname]
  exact ⟨q, (mem_childKeys.1 hq).1, habove.trans (child_above hq).1, hjoin⟩

variable {options : Options} (clock : Nat → Instant) (lone : Bool)

theorem exists_met (h : m.LinksTo l t) (hc : m.Closed) (hm : m.Plain)
    (hf : options.follow = true) : ∃ s, m.Met options clock lone t s := by
  obtain ⟨k, hk, n, hsame, hn, hkind, -, hq⟩ := h.folder
  have hnk : m.nodes.find? k = some n := (m.nodes.find?_congr hsame).symm.trans hn
  obtain ⟨s, hshown, htotal, hcost, hbarred⟩ := rendered hc hm hk t n hsame hnk
  have hinfo : m.infoOf t n = m.infoOf k n := by rw [infoOf, infoOf, deviceOf_congr hsame]
  have hstat : m.stat t true = .ok (m.infoOf k n) := by
    rw [h.stat h.inside, stat_alone hn, if_pos hq, hinfo]
  have hfollowed : s.Shown m.fileSystem true (m.deviceOf k) t (m.infoOf k n) :=
    Sight.Shown.congr (R := m.Inside t) (fun p hp => h.list hp true)
      (fun p entries c hp hl hmem => inside_join hm hp hl hmem) s h.inside hshown
  refine ⟨s, ⟨m.infoOf k n, hf ▸ hstat, hf ▸ hfollowed⟩, ?_, ?_, fun f hs => ?_⟩
  · rw [htotal, weightBelow, weightBelow, visible_congr hsame]
  · have := length_below_le (m := m) (k := k)
    omega
  · have := hbarred f hs
    rwa [isBarred, ← m.nodes.find?_congr hsame] at this

theorem resolve (h : m.LinksTo l t) : m.resolve l true = .ok t := by
  obtain ⟨⟨readable, queryable, content⟩, hl, -, hlink⟩ := h.link
  obtain ⟨-, -, n, -, hn, hkind, -⟩ := h.folder
  subst hlink
  have hthere : m.nodes.contains t = true := by simp [Map.contains, hn]
  have hend : m.chase l 39 t = .ok t := chase_straight hn (by simp [hkind])
  show m.chase l (39 + 1) l = .ok t
  rw [chase, look, hl]
  show (if m.nodes.contains t then m.chase l 39 t else pure l) = .ok t
  rw [if_pos hthere, hend]

/-- No folder that is seen in the linked folder has a namesake below the link. -/
def Bare (m : Memory) (l t : Path) : Prop :=
  ∀ c ∈ m.seenChildren t, m.isFolder c = true →
    ∀ x ∈ c.fileName?, m.nodes.contains (l.join x) = false

instance (m : Memory) (l t : Path) : Decidable (Bare m l t) :=
  inferInstanceAs (Decidable (∀ c ∈ m.seenChildren t, _ → ∀ x ∈ c.fileName?, _))

/-- What a walk that follows links meets at the link is the folder, and everything in it as it is
seen from the folder, but that no folder in it can be listed. -/
theorem exists_sight (h : m.LinksTo l t) (hm : m.Plain) (hbare : Bare m l t)
    (hf : options.follow = true) : ∃ s : Sight,
      (Plan.mk m.fileSystem options clock lone).Shows l s ∧ (∀ f, s ≠ .barred f) ∧
      s.total = ⟨0, 0, 1, 0⟩ + ((m.seenChildren t).map fun c => (m.weight c).shut).sum ∧
      s.cost ≤ 6 * m.nodes.keys.length + 4 := by
  obtain ⟨k, hk, n, hsame, hn, hkind, hread, -⟩ := h.folder
  obtain ⟨nl, hl, hq, hlink⟩ := h.link
  have hstat : m.stat l true = .ok (m.infoOf t n) := by
    simp [Memory.stat, look, hl, hq, h.resolve, hn, bind, Except.bind, pure, Except.pure, infoOf]
  have hlist := list_of_resolve h.resolve hn hkind
  rw [if_pos hread] at hlist
  have hchildren : ∀ c ∈ m.childKeys t, m.stat c true = m.stat c false := fun c hc =>
    h.stat ⟨c, (mem_childKeys.1 hc).1, inside_child h.inside hc, rfl⟩ true
  obtain ⟨inside, hin, htotal, hcost⟩ := exists_sights_of_seen (p := l) hm
    (fun c => (m.weight c).shut) (fun _ => 6) (m.childKeys t) (fun _ hc => hc) hchildren
    (fun _ _ => by decide) fun c hc nc x hnc hx hseen => by
      have hd : m.deviceOf c = m.deviceOf t := by simpa using (Bool.and_eq_true_iff.1 hseen).2
      have hmem : c ∈ m.seenChildren t := by
        rw [seenChildren, if_pos h.readable]
        exact List.mem_filter.2 ⟨hc, hseen⟩
      by_cases hfolder : nc.content.kind = .folder
      · have hnone := hbare c hmem (by simp [isFolder, hnc, hfolder]) x hx
        have hlost : m.nodes.find? (l.join x) = none := by simpa [Map.contains] using hnone
        refine ⟨.barred (.missing (l.join x)), ⟨hd.symm, hfolder, list_missing hlost⟩, ?_,
          Nat.le_refl _⟩
        cases hr : nc.readable <;> simp [Sight.total, weight, hnc, hfolder, hr, Tally.shut]
      · refine ⟨.leaf nc.content.size, ⟨hd.symm, hfolder, rfl⟩, ?_, Nat.le_add_left 4 2⟩
        simp [Sight.total, weight, hnc, hfolder, Tally.shut]
  refine ⟨.folder inside, ⟨m.infoOf t n, hf ▸ hstat, ?_⟩, by simp, ?_, ?_⟩
  · exact ⟨rfl, hkind, _, hf ▸ hlist, hf ▸ hin⟩
  · rw [Sight.total, htotal, seenChildren, if_pos h.readable]
  · have hlen : (m.childKeys t).length ≤ m.nodes.keys.length := List.length_filter_le _ _
    rw [List.map_const', List.sum_replicate_nat] at hcost
    rw [Sight.cost]
    omega

end LinksTo

theorem sum_shut (C : List Path) :
    (C.map fun c => (m.weight c).shut).sum = ((C.map m.weight).sum).shut := by
  induction C with
  | nil => rfl
  | cons c C ih =>
      rw [List.map_cons, List.sum_cons, List.map_cons, List.sum_cons, ih, Tally.shut_add]

theorem folders_sum (f : Path → Tally) (C : List Path) :
    ((C.map f).sum).folders = (C.map fun c => (f c).folders).sum := by
  induction C with
  | nil => rfl
  | cons c C ih => rw [List.map_cons, List.sum_cons, Tally.folders_add, ih]; rfl

theorem capped_glimpse (m : Memory) (t : Path) :
    (⟨0, 0, 1, 0⟩ + ((m.seenChildren t).map fun c => (m.weight c).shut).sum).capped =
      m.glimpse t := by
  rw [sum_shut, glimpse, ← sum_weight]
  ext <;> simp [Tally.capped, Tally.shut, Tally.addFolder]

theorem LinksTo.weightBelow (h : m.LinksTo l t) (hc : m.Closed) :
    m.weightBelow t = ⟨0, 0, 1, 0⟩ + ((m.seenChildren t).map m.weightBelow).sum := by
  obtain ⟨k, hk, n, hsame, hn, hkind, hread, -⟩ := h.folder
  have hnk : m.nodes.find? k = some n := (m.nodes.find?_congr hsame).symm.trans hn
  have hseen : m.seenChildren t = m.seenChildren k := by
    have hS : m.isSeen t = m.isSeen k := funext fun c => by
      rw [isSeen, isSeen, deviceOf_congr hsame]
    rw [seenChildren, seenChildren, isReadable_congr hsame, childKeys_congr hsame, hS]
  have hvisible : m.weightBelow t = m.weightBelow k := by
    rw [Memory.weightBelow, Memory.weightBelow, visible_congr hsame]
  rw [hvisible, hseen, weightBelow_eq hc hk, weight, hnk]
  simp only [hkind, hread, if_true]

theorem weightBelow_unlisted (hc : m.Closed) (hk : k ∈ m.nodes.keys)
    (hread : m.isReadable k = false) : m.weightBelow k = (m.weight k).shut := by
  have hnone : m.seenChildren k = [] := by rw [seenChildren, if_neg (by simp [hread])]
  rw [weightBelow_eq hc hk, hnone]
  obtain ⟨n, hn⟩ := exists_node hk
  by_cases hkind : n.content.kind = .folder
  · have hr : n.readable = false := by simpa [isReadable, hn, hkind] using hread
    simp [weight, hn, hkind, hr, Tally.shut]
  · simp [weight, hn, hkind, Tally.shut]

theorem folders_weightBelow (hc : m.Closed) (hk : k ∈ m.nodes.keys)
    (hread : m.isReadable k = true) : 0 < (m.weightBelow k).folders := by
  obtain ⟨n, hn, hkind, hr⟩ := isReadable_iff.1 hread
  rw [weightBelow_eq hc hk, weight, hn]
  simp [hkind, hr]

theorem LinksTo.glimpse_eq_iff (h : m.LinksTo l t) (hc : m.Closed) :
    m.glimpse t = m.totals (m.visible t) ↔
      ∀ c ∈ m.seenChildren t, m.isReadable c = false := by
  have htotals : m.totals (m.visible t) = (m.weightBelow t).capped := (sum_weight m _).symm
  have hkey {c : Path} (hmem : c ∈ m.seenChildren t) : c ∈ m.nodes.keys :=
    (mem_childKeys.1 (mem_seenChildren.1 hmem).1).1
  rw [htotals, h.weightBelow hc, ← capped_glimpse]
  constructor
  · intro heq c hmem
    -- The folder itself is counted on both sides.
    have hfolders := congrArg Tally.folders heq
    simp only [Tally.capped, Tally.folders_add, folders_sum, Tally.shut] at hfolders
    refine Bool.eq_false_iff.2 fun hread => ?_
    have hpos := folders_weightBelow hc (hkey hmem) hread
    have hle : (m.weightBelow c).folders ≤
        ((m.seenChildren t).map fun c => (m.weightBelow c).folders).sum :=
      List.le_sum_of_mem (List.mem_map.2 ⟨c, hmem, rfl⟩)
    simp at hfolders
    omega
  · intro hread
    have hmap : (m.seenChildren t).map (fun c => (m.weight c).shut) =
        (m.seenChildren t).map m.weightBelow :=
      List.map_congr_left fun c hmem => (weightBelow_unlisted hc (hkey hmem) (hread c hmem)).symm
    rw [hmap]

def CountsTo (m : Memory) (options : Options) (clock : Nat → Instant) (roots : List Path)
    (o : Outcome) : Prop :=
  ∃ report, m.count [] options clock {} roots = some report ∧
    (report.ending = .outcome o ∨
      report.ending = .clockOverrun ∧ ∃ k, (clock k).add? options.interval = none)

variable {options : Options} {clock : Nat → Instant}

theorem countsTo_sight {r : Path} {s : Sight}
    (hs : (Plan.ofOptions m.fileSystem options clock [r]).Shows r s) (hb : ∀ f, s ≠ .barred f)
    (hcost : s.cost + 3 < m.effort 1 0) : m.CountsTo options clock [r] (.ok s.total.capped) := by
  have hshown : ∀ x ∈ [(r, s)], (Plan.ofOptions m.fileSystem options clock [r]).Shows x.1 x.2 ∧
      ((Plan.ofOptions m.fileSystem options clock [r]).lone = false ∨ ∀ f, x.2 ≠ .barred f) := by
    intro x hx
    obtain rfl := List.mem_singleton.1 hx
    exact ⟨hs, .inr hb⟩
  have hcount := count_shown hshown (show rootsCost [(r, s)] + 2 < m.effort 1 0 from hcost)
  have htotal : rootsTotal [(r, s)] = s.total := by simp [rootsTotal]
  rw [CountsTo, Memory.count, FileSystem.amend_nil]
  refine comesTo_of_course hcount fun q hq => ?_
  rw [← htotal, ← hq]

/-- A count by way of a link comes to no more than a glimpse of the linked folder, unless something
lies below the link, while a count of the folder comes to all that can be seen from it. The two
agree only if no folder in it can be listed. -/
theorem count_link (d : DeviceId) (calls : List Build) (options : Options)
    (clock : Nat → Instant) {l t : Path} (htidy : (built d calls).Tidy)
    (hfollow : options.follow = true) (hlink : (built d calls).LinksTo l t)
    (hbare : LinksTo.Bare (built d calls) l t) :
    let m := built d calls
    m.CountsTo options clock [l] (.ok (m.glimpse t)) ∧
      m.CountsTo options clock [t] (.ok (m.totals (m.visible t))) ∧
      (m.glimpse t = m.totals (m.visible t) ↔
        ∀ c ∈ m.seenChildren t, m.isReadable c = false) := by
  intro m
  have hc := closed_built d calls
  have hm := htidy.plain hc
  have heffort := effort_suffices m 1 0
  refine ⟨?_, ?_, hlink.glimpse_eq_iff hc⟩
  · obtain ⟨s, hs, hb, htotal, hcost⟩ := hlink.exists_sight clock true hm hbare hfollow
    have hcost : s.cost ≤ 6 * m.nodes.keys.length + 4 := hcost
    rw [← capped_glimpse, ← htotal]
    exact countsTo_sight hs hb (by omega)
  · obtain ⟨s, hs⟩ := hlink.exists_met clock true hc hm hfollow
    have hb (f : Fault) : s ≠ .barred f := by
      intro he
      have hbarred := hs.barred f he
      obtain ⟨-, -, n, -, hn, -, hread, -⟩ := hlink.folder
      simp [isBarred, hn, hread] at hbarred
    have hcost : s.cost + 1 ≤ 7 * m.nodes.keys.length := hs.cost
    rw [← sum_weight, ← Memory.weightBelow, ← hs.total]
    exact countsTo_sight hs.shows hb (by omega)

def shallowCalls : List Build :=
  [.file ⟨['/', 'd', '/', 'f']⟩ 5, .unreadable ⟨['/', 'd', '/', 'u']⟩,
    .link ⟨['/', 'l']⟩ ⟨['/', 'd']⟩]

theorem count_link_shallow :
    let m := built ⟨"disk"⟩ shallowCalls
    let options : Options := { interval := ⟨0⟩, follow := true }
    m.CountsTo options (fun _ => ⟨0⟩) [⟨['/', 'l']⟩] (.ok ⟨5, 1, 1, 1⟩) ∧
      m.CountsTo options (fun _ => ⟨0⟩) [⟨['/', 'd']⟩] (.ok ⟨5, 1, 1, 1⟩) := by
  intro m options
  have hlink : m.LinksTo ⟨['/', 'l']⟩ ⟨['/', 'd']⟩ :=
    ⟨⟨_, rfl, rfl, rfl⟩, by decide, by decide, by decide⟩
  have hbare : LinksTo.Bare m ⟨['/', 'l']⟩ ⟨['/', 'd']⟩ := by decide
  obtain ⟨hl, hd, -⟩ := count_link ⟨"disk"⟩ shallowCalls options (fun _ => ⟨0⟩) (by decide) rfl
    hlink hbare
  have hglimpse : m.glimpse ⟨['/', 'd']⟩ = ⟨5, 1, 1, 1⟩ := by decide
  have htotals : m.totals (m.visible ⟨['/', 'd']⟩) = ⟨5, 1, 1, 1⟩ := by decide
  rw [hglimpse] at hl
  rw [htotals] at hd
  exact ⟨hl, hd⟩

def deepCalls : List Build :=
  [.file ⟨['/', 'd', '/', 's', '/', 'f']⟩ 1, .link ⟨['/', 'l']⟩ ⟨['/', 'd']⟩]

def totals? (r : Report) : Option Tally :=
  match r.ending with
  | .outcome (.ok t) => some t
  | _ => none

/-- By way of a link to it, a folder need not count as it does by itself. -/
theorem link_not_transparent : ¬ ∀ (d : DeviceId) (calls : List Build) (options : Options)
    (clock : Nat → Instant) (l t : Path) (r r' : Report), (built d calls).Tidy →
    options.follow = true → (built d calls).LinksTo l t →
    (built d calls).count [] options clock {} [l] = some r →
    (built d calls).count [] options clock {} [t] = some r' → r.ending = r'.ending := by
  intro h
  let m := built ⟨"disk"⟩ deepCalls
  let options : Options := { interval := ⟨0⟩, follow := true }
  have hlink : m.LinksTo ⟨['/', 'l']⟩ ⟨['/', 'd']⟩ :=
    ⟨⟨_, rfl, rfl, rfl⟩, by decide, by decide, by decide⟩
  have hl : (m.count [] options (fun _ => ⟨0⟩) {} [⟨['/', 'l']⟩]).map totals? =
      some (some ⟨0, 0, 1, 1⟩) := by decide +kernel
  have hd : (m.count [] options (fun _ => ⟨0⟩) {} [⟨['/', 'd']⟩]).map totals? =
      some (some ⟨1, 1, 2, 0⟩) := by decide +kernel
  obtain ⟨r, hr, hrt⟩ := Option.map_eq_some_iff.1 hl
  obtain ⟨r', hr', hrt'⟩ := Option.map_eq_some_iff.1 hd
  have hsame := h _ _ options _ _ _ r r' (by decide) rfl hlink hr hr'
  rw [totals?, hsame, ← totals?, hrt'] at hrt
  cases hrt

end Memory

end TreeTally
