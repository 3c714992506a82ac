import TreeTally.Proofs.Memory.Link

namespace TreeTally

namespace Memory

open TreeTally.Path

/-- The paths built from a listing have the metadata it tells, and no two of them are the same. -/
structure Truthful (m : Memory) (p : Path) (entries : List Listed) : Prop where
  stat : ∀ c, .ok c ∈ entries → m.stat (p.join c.name) false = .ok c.info
  apart : (namesOf entries).Pairwise fun a b => ¬(p.join a).Same (p.join b)

def wholeChildren (m : Memory) (p : Path) : List Path :=
  (m.childKeys p).filter fun c => !m.isBroken c

/-- Those of them that have no name. -/
def nameless (m : Memory) (p : Path) : List Path :=
  (m.wholeChildren p).filter fun c => c.fileName?.isNone

variable {m : Memory} {p q c c' : Path} {i : EntryInfo} {entries : List Listed}

theorem stat_alone_ok : m.stat p false = .ok i ↔
    ∃ n, m.nodes.find? p = some n ∧ n.queryable = true ∧ m.infoOf p n = i := by
  cases hp : m.nodes.find? p with
  | none => simp [stat_missing hp]
  | some n =>
      rw [stat_alone hp]
      cases hq : n.queryable <;> simp [hq]

theorem stat_alone_ok_congr (h : p.Same q) : m.stat p false = .ok i ↔ m.stat q false = .ok i := by
  simp only [stat_alone_ok, m.nodes.find?_congr h, infoOf, deviceOf_congr h]

theorem isFolder_iff_infoOf {n : Node} (hn : m.nodes.find? p = some n) :
    m.isFolder p = true ↔ m.infoOf p n = ⟨.folder, 0, m.deviceOf p⟩ := by
  obtain ⟨content, readable, queryable⟩ := n
  cases content <;> simp [isFolder, hn, infoOf, Content.kind, Content.size]

theorem list_alone_ok (h : m.list p false = .ok entries) :
    m.isFolder p = true ∧ entries = (m.childKeys p).map (m.listed false) := by
  obtain ⟨q, n, hq, hn, hk, -, rfl⟩ := list_eq_ok.1 h
  obtain rfl : p = q := Except.ok.inj hq
  exact ⟨by simp [isFolder, hn, hk], rfl⟩

theorem mem_wholeChildren : c ∈ m.wholeChildren p ↔
    c ∈ m.childKeys p ∧ ∃ n, m.nodes.find? c = some n ∧ m.stat c false = .ok (m.infoOf c n) := by
  rw [wholeChildren, List.mem_filter]
  refine and_congr_right fun hc => ?_
  obtain ⟨n, hn⟩ := exists_node (mem_childKeys.1 hc).1
  simp [isBroken, hn, stat_alone hn]

theorem nodup_wholeChildren : (m.wholeChildren p).Nodup := nodup_childKeys.filter _

def rebuilt (p c : Path) : Path := p.join (c.fileName?.getD [])

theorem rebuilt_named (hc : c ∈ m.childKeys p) (hn : c.fileName?.isNone = false) :
    (rebuilt p c).Same c := by
  obtain ⟨-, x, -, he⟩ := mem_childKeys.1 hc
  cases x with
  | name n =>
      have hproper : Proper n := proper_of_mem_parts (p := c) (by simp [he])
      rw [rebuilt, fileName?_of_parts he, Option.getD_some, Same, parts_join p hproper, he]
  | root => simp [fileName?, he] at hn
  | here => simp [fileName?, he] at hn
  | up => simp [fileName?, he] at hn

theorem rebuilt_nameless (hn : c.fileName?.isNone = true) : (rebuilt p c).Same p := by
  rw [rebuilt, Option.isNone_iff_eq_none.1 hn]
  exact join_nil_same p

theorem child_not_same (hc : c ∈ m.childKeys p) : ¬c.Same p := by
  obtain ⟨-, x, -, he⟩ := mem_childKeys.1 hc
  intro h
  simpa [he] using congrArg List.length (show c.parts = p.parts from h)

/-- Two children lead to the same path only if neither has a name. -/
theorem rebuilt_same_iff (hc : c ∈ m.childKeys p) (hc' : c' ∈ m.childKeys p) (hne : c ≠ c') :
    (rebuilt p c).Same (rebuilt p c') ↔
      c.fileName?.isNone = true ∧ c'.fileName?.isNone = true := by
  cases hn : c.fileName?.isNone <;> cases hn' : c'.fileName?.isNone
  · have hkeys : ¬c.Same c' := fun h =>
      hne (m.nodes.eq_of_same (mem_childKeys.1 hc).1 (mem_childKeys.1 hc').1 h)
    simpa using fun h => hkeys ((rebuilt_named hc hn).symm.trans (h.trans (rebuilt_named hc' hn')))
  · simpa using fun h => child_not_same hc
      ((rebuilt_named hc hn).symm.trans (h.trans (rebuilt_nameless hn')))
  · simpa using fun h => child_not_same hc'
      ((rebuilt_named hc' hn').symm.trans (h.symm.trans (rebuilt_nameless hn)))
  · have hboth : (rebuilt p c).Same (rebuilt p c') :=
      (rebuilt_nameless hn).trans (rebuilt_nameless hn').symm
    simpa using hboth

theorem ok_mem_listed {child : Child} : .ok child ∈ (m.childKeys p).map (m.listed false) ↔
    ∃ c ∈ m.wholeChildren p, m.stat c false = .ok child.info ∧
      c.fileName?.getD [] = child.name := by
  have hlisted (c : Path) : m.listed false c = .ok child ↔
      m.stat c false = .ok child.info ∧ c.fileName?.getD [] = child.name := by
    obtain ⟨x, i⟩ := child
    rw [listed]
    cases m.stat c false <;> simp [Except.map, and_comm]
  simp only [List.mem_map, hlisted, mem_wholeChildren]
  constructor
  · rintro ⟨c, hc, hstat, hname⟩
    obtain ⟨n, hn, -, hi⟩ := stat_alone_ok.1 hstat
    exact ⟨c, ⟨hc, n, hn, hi ▸ hstat⟩, hstat, hname⟩
  · rintro ⟨c, ⟨hc, -⟩, h⟩
    exact ⟨c, hc, h⟩

theorem namesOf_listed : namesOf ((m.childKeys p).map (m.listed false)) =
    (m.wholeChildren p).map fun c => c.fileName?.getD [] := by
  rw [namesOf, List.filterMap_map, wholeChildren, ← List.filterMap_eq_map, List.filterMap_filter]
  refine List.filterMap_congr fun c hc => ?_
  obtain ⟨n, hn⟩ := exists_node (mem_childKeys.1 hc).1
  rw [Function.comp, listed, stat_alone hn]
  cases hq : n.queryable <;> simp [isBroken, hn, hq, Except.map]

/-- A listing has as many children without a name as the paths it leads to allow. -/
theorem apart_iff : (namesOf ((m.childKeys p).map (m.listed false))).Pairwise
      (fun a b => ¬(p.join a).Same (p.join b)) ↔ (m.nameless p).length ≤ 1 := by
  have hone : (m.nameless p).length ≤ 1 ↔ (m.nameless p).Pairwise fun _ _ => False := by
    rcases m.nameless p with - | ⟨c, - | ⟨c', l⟩⟩
    · simp
    · simp
    · simpa using fun h => absurd rfl (h c').1
  rw [namesOf_listed, List.pairwise_map, hone, nameless, List.pairwise_filter]
  constructor <;> intro h
  · refine (h.and nodup_wholeChildren).imp_of_mem fun hc hc' ⟨happart, hne⟩ hn hn' => ?_
    exact happart ((rebuilt_same_iff (List.mem_of_mem_filter hc) (List.mem_of_mem_filter hc') hne).2
      ⟨hn, hn'⟩)
  · refine (h.and nodup_wholeChildren).imp_of_mem fun hc hc' ⟨hnone, hne⟩ hsame => ?_
    obtain ⟨hn, hn'⟩ := (rebuilt_same_iff (List.mem_of_mem_filter hc) (List.mem_of_mem_filter hc') hne).1 hsame
    exact hnone hn hn'

theorem told_nameless_iff (hp : m.isFolder p = true) (hc : c ∈ m.nameless p) :
    (∀ i, m.stat c false = .ok i → m.stat (rebuilt p c) false = .ok i) ↔
      m.isFolder c = true ∧ m.deviceOf c = m.deviceOf p ∧ m.isBroken p = false := by
  obtain ⟨hwhole, hname⟩ := List.mem_filter.1 hc
  obtain ⟨-, n, hn, hstat⟩ := mem_wholeChildren.1 hwhole
  obtain ⟨np, hnp, -⟩ := (Option.any_eq_true _ _).1 hp
  have hfolder := (isFolder_iff_infoOf hnp).1 hp
  rw [hstat, isFolder_iff_infoOf hn]
  constructor
  · intro h
    obtain ⟨np', hnp', hq, hi⟩ :=
      stat_alone_ok.1 ((stat_alone_ok_congr (rebuilt_nameless hname)).1 (h _ rfl))
    obtain rfl : np = np' := Option.some.inj (hnp.symm.trans hnp')
    have hdevice : m.deviceOf c = m.deviceOf p := congrArg EntryInfo.device hi.symm
    exact ⟨by rw [← hi, hfolder, hdevice], hdevice, by simp [isBroken, hnp, hq]⟩
  · rintro ⟨hi, hdevice, hwhole⟩ i ⟨⟩
    have hq : np.queryable = true := by simpa [isBroken, hnp] using hwhole
    refine (stat_alone_ok_congr (rebuilt_nameless hname)).2 (stat_alone_ok.2 ⟨np, hnp, hq, ?_⟩)
    rw [hfolder, hi, hdevice]

/-- A listing tells the truth about the paths built from it exactly if all its entries have names,
save for at most one, which is a folder on the device of the listed folder, and that is not broken
then. -/
theorem list_truthful (h : m.list p false = .ok entries) : m.Truthful p entries ↔
    (m.nameless p).length ≤ 1 ∧ ∀ c ∈ m.nameless p,
      m.isFolder c = true ∧ m.deviceOf c = m.deviceOf p ∧ m.isBroken p = false := by
  obtain ⟨hp, rfl⟩ := list_alone_ok h
  constructor
  · rintro ⟨hstat, hapart⟩
    refine ⟨apart_iff.1 hapart, fun c hc => (told_nameless_iff hp hc).1 fun i hi => ?_⟩
    exact hstat ⟨_, i⟩ (ok_mem_listed.2 ⟨c, List.mem_of_mem_filter hc, hi, rfl⟩)
  · rintro ⟨hone, hnameless⟩
    refine ⟨fun child hchild => ?_, apart_iff.2 hone⟩
    obtain ⟨c, hc, hi, hname⟩ := ok_mem_listed.1 hchild
    rw [← hname]
    cases hn : c.fileName?.isNone with
    | false => exact (stat_alone_ok_congr (rebuilt_named (mem_wholeChildren.1 hc).1 hn)).2 hi
    | true =>
        have hmem : c ∈ m.nameless p := List.mem_filter.2 ⟨hc, hn⟩
        exact (told_nameless_iff hp hmem).2 (hnameless c hmem) _ hi

def wayBack : Memory :=
  built ⟨"disk"⟩ [.folder ⟨['/', 'a', '/', '.', '.']⟩, .file ⟨['/', 'a', '/', 'x']⟩ 3]

theorem list_truthful_way_back :
    let p : Path := ⟨['/', 'a']⟩
    let entries : List Listed := [.ok ⟨[], ⟨.folder, 0, ⟨"disk"⟩⟩⟩, .ok ⟨['x'], ⟨.file, 3, ⟨"disk"⟩⟩⟩]
    wayBack.list p false = .ok entries ∧ wayBack.Truthful p entries := by
  intro p entries
  have h : wayBack.list p false = .ok entries := by rfl
  exact ⟨h, (list_truthful h).2 (by decide)⟩

/-- A file can be listed under a path that is its folder's. -/
theorem not_always_truthful : ¬∀ (d : DeviceId) (calls : List Build) (p : Path)
    (entries : List Listed), (built d calls).list p false = .ok entries →
      (built d calls).Truthful p entries := by
  intro h
  have hlist : (built ⟨"disk"⟩ [.file ⟨['/', 'a', '/', '.', '.']⟩ 5]).list ⟨['/', 'a']⟩ false =
      .ok [.ok ⟨[], ⟨.file, 5, ⟨"disk"⟩⟩⟩] := by rfl
  have hstat := (h _ _ _ _ hlist).stat _ List.mem_cons_self
  exact absurd (congrArg EntryInfo.kind (Except.ok.inj hstat)) (by decide)

end Memory

end TreeTally
