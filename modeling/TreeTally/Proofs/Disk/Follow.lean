import TreeTally.Disk.Count
import TreeTally.Proofs.Disk.Listing
import TreeTally.Proofs.Memory.Count
import TreeTally.Proofs.Walk.Levels

namespace TreeTally.Disk

def height (d : Disk) : Nat := d.nodes.foldr (fun e h => max e.1.length h) 0

/-- How many folders may still open below a location with so many links left. -/
def rank (d : Disk) (k : Nat) (l : Location) : Nat := k * (d.height + 1) + (d.height - l.length)

/-- How many folders open one inside the other at most. -/
def depth (d : Disk) : Nat := (linkLimit + 1) * (d.height + 1)

variable {d : Disk} {p q : Path} {k k' levels : Nat} {l l' : Location} {n : List Char}
variable {x : DiskNode} {i : EntryInfo} {f : Fault} {entries : List Listed}

theorem length_le_height (h : d.node? l = some x) : l.length ≤ d.height := by
  by_cases hl : l = []
  · rw [hl]
    exact Nat.zero_le _
  · have hmem := mem_of_node? hl h
    rw [height]
    generalize d.nodes = nodes at hmem
    induction nodes with
    | nil => cases hmem
    | cons e nodes ih =>
        rcases List.mem_cons.1 hmem with rfl | hmem
        · exact Nat.le_max_left _ _
        · exact (ih hmem).trans (Nat.le_max_right _ _)

/-- A folder opens inside another by a name of it or by a link. -/
theorem rank_lt (h : d.Leads true k l [n] k' l') (hn : Proper n) (hl' : d.isFolder l' = true) :
    d.rank k' l' < d.rank k l := by
  obtain ⟨size, hnode⟩ := isFolder_iff.1 hl'
  have hheight := length_le_height hnode
  rw [rank, rank]
  obtain ⟨-, -, y, -, ⟨rfl, rfl⟩ | ⟨t, m, -, -, rfl, hm⟩⟩ := h.name hn
  · rw [List.length_append, List.length_singleton] at hheight ⊢
    omega
  · have hless := Nat.mul_le_mul_right (d.height + 1) hm
    rw [Nat.succ_mul]
    omega

theorem exists_leads (h : d.list p true = .ok entries) : Takes p ∧ ∃ k l,
    d.Leads true linkLimit (d.outset p) (piecesAt '/' p.chars) k l ∧ d.isFolder l = true := by
  obtain ⟨l, hopen, -⟩ := list_eq_ok.1 h
  obtain ⟨hfind, hl⟩ := openFolder_eq_ok.1 hopen
  obtain ⟨htakes, k, hleads⟩ := find_eq_ok.1 hfind
  exact ⟨htakes, k, l, hleads, hl⟩

theorem Sound.name_of_mem (hd : d.Sound) {c : Child} (h : d.list p true = .ok entries)
    (hc : .ok c ∈ entries) : Proper c.name := by
  obtain ⟨l, n, x, i, -, hx, he⟩ := exists_of_mem_listing h hc
  obtain rfl := Except.ok.inj he
  exact (hd.named hx).1

theorem Sound.shallow_of_rank (hd : d.Sound) (h : ∀ k l,
    d.Leads true linkLimit (d.outset p) (piecesAt '/' p.chars) k l → d.isFolder l = true →
      d.rank k l < levels) : d.fileSystem.Shallow true levels p := by
  induction levels generalizing p with
  | zero =>
      intro entries hlist
      obtain ⟨-, k, l, hleads, hl⟩ := exists_leads hlist
      exact absurd (h k l hleads hl) (Nat.not_lt_zero _)
  | succ levels ih =>
      intro entries hlist c hc
      have hn := hd.name_of_mem hlist hc
      have hp := (exists_leads hlist).1.ne_nil
      -- What opens below opens by one name more, which lowers the rank.
      refine ih fun k' l' hleads hl' => ?_
      rw [outset_join hp hn.relative, leads_join hp hn.relative, hn.pieces] at hleads
      obtain ⟨k, l, hfolder, hname⟩ := hleads
      have hless := rank_lt hname hn hl'
      have hrank := h k l hfolder (hname.folder (List.cons_ne_nil _ _))
      omega

theorem Sound.shallow (hd : d.Sound) (p : Path) : d.fileSystem.Shallow true d.depth p := by
  refine hd.shallow_of_rank fun k l h _ => ?_
  have hless := Nat.mul_le_mul_right (d.height + 1) h.left_le
  rw [rank, depth, Nat.succ_mul]
  omega

theorem shallow_alone (h : d.fileSystem.Shallow true levels p) :
    d.fileSystem.Shallow false levels p := by
  induction levels generalizing p with
  | zero =>
      intro entries hlist
      obtain ⟨l, hopen, -⟩ := list_eq_ok.1 hlist
      exact h _ (list_eq_ok.2 ⟨l, hopen, rfl⟩)
  | succ levels ih =>
      intro entries hlist c hc
      obtain ⟨l, hopen, rfl⟩ := list_eq_ok.1 hlist
      obtain ⟨n, hn, he⟩ := List.mem_map.1 hc
      obtain ⟨x, hx⟩ := mem_childNames.1 hn
      obtain ⟨y, hy⟩ := exists_node_of_mem hx
      rw [listed_alone hy] at he
      obtain rfl := Except.ok.inj he
      have hbelow := h _ (list_eq_ok.2 ⟨l, hopen, rfl⟩) _ (List.mem_map.2 ⟨n, hn, listed_through hy⟩)
      exact ih hbelow

theorem Sound.shallow_either (hd : d.Sound) (follow : Bool) (p : Path) :
    d.fileSystem.Shallow follow d.depth p := by
  cases follow with
  | true => exact hd.shallow p
  | false => exact shallow_alone (hd.shallow p)

theorem length_le_bytes (t : List Char) : t.length ≤ (String.ofList t).utf8ByteSize := by
  induction t with
  | nil => exact Nat.zero_le _
  | cons c t ih =>
      have hc := c.utf8Size_pos
      rw [String.ofList_cons, String.utf8ByteSize_append, String.utf8ByteSize_singleton,
        List.length_cons]
      omega

theorem getLast?_join (p : Path) (hn : Proper n) : (p.join n).chars.getLast? ≠ some '/' := by
  have hlast : n.getLast? ≠ some '/' := by
    rw [List.getLast?_eq_some_getLast hn.1]
    exact fun he => hn.2.2.2 (Option.some.inj he ▸ List.getLast_mem hn.1)
  obtain ⟨r, hr, hjoin⟩ := p.exists_join hn.relative
  rw [hjoin]
  rcases hr with rfl | rfl
  · rwa [List.getLast?_append_of_ne_nil _ hn.1]
  · rw [List.getLast?_append_of_ne_nil _ (List.cons_ne_nil _ _), ← List.singleton_append,
      List.getLast?_append_of_ne_nil _ hn.1]
    exact hlast

theorem Sound.shallow_of_length (hd : d.Sound) (hp : p.chars ≠ [])
    (hlast : p.chars.getLast? ≠ some '/')
    (h : pathLimit ≤ p.display.utf8ByteSize + 2 * levels) : d.fileSystem.Shallow true levels p := by
  induction levels generalizing p with
  | zero =>
      intro entries hlist
      exact absurd (exists_leads hlist).1.short (Nat.not_lt.2 h)
  | succ levels ih =>
      intro entries hlist c hc
      have hn := hd.name_of_mem hlist hc
      refine ih (Path.join_ne_nil hp hn.relative) (getLast?_join p hn) ?_
      -- The name and the slash before it are two bytes at least.
      have hbytes := length_le_bytes ('/' :: c.name)
      have hpos := List.length_pos_of_ne_nil hn.1
      rw [List.length_cons] at hbytes
      rw [Path.join_relative p hn.relative, if_neg (not_or.2 ⟨hp, hlast⟩),
        Path.utf8ByteSize_display_append]
      change pathLimit ≤ p.display.utf8ByteSize + _ + _
      omega

theorem Sound.shallow_root (hd : d.Sound) (p : Path) :
    d.fileSystem.Shallow true (pathLimit / 2 + 1) p := by
  intro entries hlist c hc
  have hn := hd.name_of_mem hlist hc
  have hp := (exists_leads hlist).1.ne_nil
  refine hd.shallow_of_length (Path.join_ne_nil hp hn.relative) (getLast?_join p hn) ?_
  show pathLimit ≤ _ + pathLimit
  exact Nat.le_add_left _ _

theorem narrow (d : Disk) (follow : Bool) : d.fileSystem.Narrow follow d.nodes.length := by
  intro p entries hlist
  obtain ⟨l, -, rfl⟩ := list_eq_ok.1 hlist
  rw [List.length_map]
  exact d.length_childNames l

theorem effort_enough (d : Disk) (roots : Nat) :
    roots * (8 * (d.nodes.length + 2) ^ (pathLimit / 2 + 1)) + 5 < d.effort roots 0 := by
  have hpow : (d.nodes.length + 2) ^ (pathLimit / 2 + 1) ≤ Nat.pow (d.nodes.length + 2) (pathLimit / 2 + 2) :=
    Nat.pow_le_pow_right (Nat.succ_pos _) (Nat.le_succ _)
  have hroots := Nat.mul_le_mul_left roots (Nat.mul_le_mul_left 8 hpow)
  rw [Nat.mul_left_comm roots 8 (Nat.pow _ _)] at hroots
  rw [effort]
  omega

theorem exists_listing_of_folder (h : d.queryAs p true = .ok i) (hk : i.kind = .folder) :
    ∃ entries, d.list p true = .ok entries := by
  obtain ⟨l, hopen⟩ := exists_open h hk
  exact ⟨_, list_eq_ok.2 ⟨l, hopen, rfl⟩⟩

theorem exists_listing_of_through (h : d.queryAs p false = .ok i)
    (hk : (d.through p i).kind = .folder) : ∃ entries, d.list p true = .ok entries := by
  rw [through] at hk
  cases hq : d.queryAs p true with
  | ok j =>
      rw [hq] at hk
      exact exists_listing_of_folder hq hk
  | error f =>
      rw [hq] at hk
      obtain ⟨l, t, rfl, -⟩ := link_of_refused h hq
      cases hk

theorem stat_eq_ok (h : d.stat p true = .ok i) : d.queryAs p true = .ok i ∨
    d.queryAs p false = .ok i ∧ d.through p i = i := by
  rw [stat, if_pos rfl] at h
  rw [through]
  cases hq : d.queryAs p true with
  | ok j =>
      rw [hq] at h
      exact .inl h
  | error f =>
      rw [hq] at h
      exact .inr ⟨h, rfl⟩

theorem Sound.long_of_refused (hd : d.Sound) (ht : d.fileSystem.Tells true p i)
    (hk : i.kind = .folder) (hf : d.list p true = .error f) :
    pathLimit ≤ p.display.utf8ByteSize := by
  by_contra hshort
  suffices ∃ entries, d.list p true = .ok entries by
    obtain ⟨entries, hl⟩ := this
    cases hl.symm.trans hf
  rcases ht with hstat | ⟨q, entries, n, hlist, hmem, rfl⟩
  · rcases stat_eq_ok hstat with hq | ⟨hq, hthrough⟩
    · exact exists_listing_of_folder hq hk
    · exact exists_listing_of_through hq (hthrough.symm ▸ hk)
  · obtain ⟨l, hopen, rfl⟩ := list_eq_ok.1 hlist
    obtain ⟨m, hm, he⟩ := List.mem_map.1 hmem
    obtain ⟨x, hx⟩ := mem_childNames.1 hm
    have hnode := hd.node?_of_mem hx
    rw [listed_through hnode] at he
    obtain ⟨rfl, rfl⟩ := Child.mk.inj (Except.ok.inj he)
    obtain ⟨hproper, hnamed, hnul⟩ := hd.named hx
    have htakes := (exists_leads hlist).1.join hproper hnul (Nat.not_le.1 hshort)
    exact exists_listing_of_through (queryAs_join hopen hproper hnamed hnode htakes) hk

/-- An entry that can be described by itself is reported, whatever becomes of its links. -/
structure Reported (d : Disk) (p : Path) (i : EntryInfo) : Prop where
  stat : d.stat p true = .ok (d.through p i)
  listed : ∀ q n, q.chars ≠ [] → Proper n → p = q.join n → ∃ entries, d.list q true = .ok entries ∧
    (∀ e ∈ entries, ∃ c, e = .ok c) ∧ .ok ⟨n, d.through p i⟩ ∈ entries
  /-- A link that cannot be followed counts as a file of its own size. -/
  counted : ∀ f, d.queryAs p true = .error f → i.kind = .link ∧ ∀ levels,
    d.fileSystem.rootWorth true (levels + 1) p = ⟨i.size, 1, 0, 0⟩ ∧
    ∀ q n j, q.chars ≠ [] → Proper n → p = q.join n → d.stat q true = .ok j →
      Listed.worth (d.fileSystem.worth true j.device (levels + 1)) q (.ok ⟨n, d.through p i⟩) =
        ⟨i.size, 1, 0, 0⟩

theorem stat_folder (h : d.openFolder p = .ok l) :
    ∃ size, d.stat p true = .ok (d.info l (.folder size)) := by
  obtain ⟨size, hq⟩ := queryAs_of_open h
  exact ⟨size, by rw [stat, if_pos rfl, hq]⟩

theorem kind_eq_link : x.kind = .link ↔ ∃ t, x = .link t := by
  cases x <;> simp [DiskNode.kind]

theorem worth_leaf {fs : FileSystem} {home : DeviceId} (hd : home = i.device) (hk : i.kind ≠ .folder) :
    fs.worth true home (levels + 1) p i = ⟨i.size, 1, 0, 0⟩ := by
  rw [FileSystem.worth, if_neg (not_not_intro hd), if_pos hk]

theorem Sound.reported (hd : d.Sound) (h : d.queryAs p false = .ok i) : d.Reported p i := by
  refine ⟨stat_through h, fun q n hq hn hp => ?_, fun f hf => ?_⟩
  · subst hp
    obtain ⟨l, x, hopen, hx, rfl⟩ := opens_of_alone hq hn h
    refine ⟨_, list_eq_ok.2 ⟨l, hopen, rfl⟩, fun e he => ?_, List.mem_map.2 ⟨n, ?_, listed_through hx⟩⟩
    · obtain ⟨_, m, _, j, -, -, rfl⟩ := exists_of_mem_listing (list_eq_ok.2 ⟨l, hopen, rfl⟩) he
      exact ⟨_, rfl⟩
    · exact mem_childNames.2 ⟨x, mem_of_node? (by simp) hx⟩
  · obtain ⟨l, t, rfl, hlink⟩ := link_of_refused h hf
    have hleaf : (d.info l (.link t)).kind ≠ .folder := by simp [info, DiskNode.kind]
    have hthrough : d.through p (d.info l (.link t)) = d.info l (.link t) := by
      rw [through, hf]
    refine ⟨rfl, fun levels => ⟨?_, fun q n j hq hn hp hj => ?_⟩⟩
    · have hstat : d.fileSystem.stat p true = .ok (d.info l (.link t)) :=
        (stat_through h).trans (congrArg _ hthrough)
      rw [FileSystem.rootWorth, hstat]
      exact worth_leaf rfl hleaf
    · subst hp
      rw [Listed.worth, hthrough]
      refine worth_leaf ?_ hleaf
      -- The link lies on the volume of the folder that opens above it.
      obtain ⟨l', x, hopen, hx, hi⟩ := opens_of_alone hq hn h
      have hdevice : d.deviceOf l = d.deviceOf (l' ++ [n]) := congrArg EntryInfo.device hi
      obtain ⟨t', rfl⟩ := kind_eq_link.1 (congrArg EntryInfo.kind hi).symm
      obtain ⟨size, hstat⟩ := stat_folder hopen
      obtain rfl := Except.ok.inj (hstat.symm.trans hj)
      exact (hd.deviceOf_link hx).symm.trans hdevice.symm

/-- However the links of a tree lead around, a count that follows them comes to its end, for no more
folders open one inside the other than there are links to follow on the way and levels in the tree. What
it comes to is what so many levels add, no entry is passed over, and only a path that is too long makes
a folder unreadable. Whatever can be described by itself is reported. -/
theorem count_following (hd : d.Sound) (options : Options) (hfollow : options.follow = true)
    (clock : Nat → Instant) (roots : List Path) :
    (∀ p, d.fileSystem.Shallow true d.depth p) ∧
    (∃ r, d.count [] options clock {} roots = some r ∧
      (∀ fuel, roots.length * (8 * (d.nodes.length + 2) ^ d.depth) + 5 < fuel →
        (Plan.ofOptions d.fileSystem options clock roots).count fuel {} roots = some r) ∧
      ((∃ o, r.ending = .outcome o) ∨
        r.ending = .clockOverrun ∧ ∃ k, (clock k).add? options.interval = none) ∧
      (∀ t, r.ending = .outcome (.ok t) → ∀ levels, d.depth < levels →
        t = ((roots.map (d.fileSystem.rootWorth true levels)).sum).capped) ∧
      ((∀ p ∈ roots, ∃ i, d.queryAs p false = .ok i) → ∀ e, r.ending ≠ .outcome (.error e)) ∧
      (∀ p f, .event (.bad p f) ∉ r.signals ∧ .log (.skippedEntry p f) ∉ r.signals) ∧
      ∀ p f, .log (.unreadableFolder p f) ∈ r.signals → pathLimit ≤ p.display.utf8ByteSize) ∧
    ∀ p i, d.queryAs p false = .ok i → d.Reported p i := by
  refine ⟨hd.shallow, ?_, fun p i h => hd.reported h⟩
  have hnarrow : d.fileSystem.Narrow options.follow d.nodes.length := d.narrow _
  have hdepth : ∀ p ∈ roots, d.fileSystem.Shallow options.follow d.depth p :=
    fun p _ => hfollow ▸ hd.shallow p
  -- The lengths of paths keep the count within its effort, which does not depend on the tree's height.
  have hlength : ∀ p ∈ roots, d.fileSystem.Shallow options.follow (pathLimit / 2 + 1) p :=
    fun p _ => hfollow ▸ hd.shallow_root p
  obtain ⟨r, hcount, hr⟩ := FileSystem.Shallow.exhausts clock hnarrow hdepth
  obtain ⟨r', hcount', -⟩ := FileSystem.Shallow.exhausts clock hnarrow hlength
  obtain rfl := Plan.count_unique (hcount _ (Nat.lt_succ_self _)) (hcount' _ (Nat.lt_succ_self _))
  have hno (p : Path) (f : Fault) : ¬∃ entries, d.list p options.follow = .ok entries ∧
      .error f ∈ entries := by
    rintro ⟨entries, hlist, hmem⟩
    obtain ⟨l, n, x, i, -, -, he⟩ := exists_of_mem_listing hlist hmem
    cases he
  refine ⟨r, ?_, hcount, hr.ending, ?_, fun hroots => hr.good fun p hp => ?_,
    fun p f => ⟨fun h => hno p f (hr.backed _ h), fun h => hno p f (hr.backed _ h)⟩, fun p f h => ?_⟩
  · rw [count, FileSystem.amend_nil]
    exact hcount' _ (d.effort_enough roots.length)
  · rw [← hfollow]
    exact hr.total
  · obtain ⟨i, hi⟩ := hroots p hp
    exact hfollow ▸ ⟨_, stat_through hi, exists_listing_of_through hi⟩
  · obtain ⟨hlist, i, htells, hk⟩ := hr.backed _ h
    rw [hfollow] at hlist htells
    exact hd.long_of_refused htells hk hlist

def ring : Disk where
  nodes := [([['a']], .folder 4096), ([['a'], ['o']], .link ['.']), ([['a'], ['z']], .link ['n', 'o']),
    ([['a'], ['x']], .file 7)]

/-- The folder opens inside itself for as long as there are links left, and the link counts as a file
in the end. -/
theorem count_following_ring :
    let options : Options := { interval := ⟨0⟩, follow := true }
    let roots : List Path := [⟨['/', 'a']⟩]
    let dangling : EntryInfo := ⟨.link, 2, ⟨""⟩⟩
    ring.Sound ∧ ring.depth = 123 ∧ (∃ r, ring.count [] options (fun _ => ⟨0⟩) {} roots = some r ∧
      r.ending = .outcome (.ok ⟨370, 83, 41, 0⟩) ∧ ∀ p f, .event (.bad p f) ∉ r.signals) ∧
    ring.queryAs ⟨['/', 'a', '/', 'z']⟩ true = .error (.system .noEntry) ∧
      ring.Reported ⟨['/', 'a', '/', 'z']⟩ dangling := by
  intro options roots dangling
  have hsound : ring.Sound := by decide +kernel
  obtain ⟨-, ⟨r, hcount, hmore, -, -, -, hbad, -⟩, hreported⟩ :=
    count_following hsound options rfl (fun _ => ⟨0⟩) roots
  have hrun : ((Plan.ofOptions ring.fileSystem options (fun _ => ⟨0⟩) roots).count 1000 {}
      roots).bind Report.total? = some ⟨370, 83, 41, 0⟩ := by decide +kernel
  obtain ⟨r', hcount', ht⟩ := Option.bind_eq_some_iff.1 hrun
  obtain rfl := Plan.count_unique hcount' (hmore _ (Nat.lt_succ_self _))
  refine ⟨hsound, rfl, ⟨r', hcount, Report.total?_eq_some.1 ht, fun p f => (hbad p f).1⟩, rfl, ?_⟩
  exact hreported _ _ rfl

end TreeTally.Disk
