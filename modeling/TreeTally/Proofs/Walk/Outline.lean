import TreeTally.Disk.Basic
import TreeTally.Proofs.Memory.Count
import TreeTally.Proofs.Walk.Shuffle

namespace TreeTally

/-- Each entry stands at the names that lead to it, and lies in a folder or on top. -/
structure Outline where
  entries : List (Location × Content)
  apart : (entries.map Prod.fst).Nodup
  proper : ∀ e ∈ entries, e.1 ≠ [] ∧ ∀ n ∈ e.1, Proper n
  parent : ∀ e ∈ entries, e.1.dropLast = [] ∨ (e.1.dropLast, Content.folder) ∈ entries

def Content.weight : Content → Tally
  | folder => ⟨0, 0, 1, 0⟩
  | file n => ⟨n, 1, 0, 0⟩
  | link target => ⟨(link target).size, 1, 0, 0⟩

/-- What a file system that follows no links tells of an entry. The size of a folder is its own
affair. -/
def Content.told (home : DeviceId) (folderSize : Nat) : Content → EntryInfo
  | folder => ⟨.folder, folderSize, home⟩
  | file n => ⟨.file, n, home⟩
  | link target => ⟨.link, (link target).size, home⟩

theorem Content.told_device (c : Content) (home : DeviceId) (n : Nat) :
    (c.told home n).device = home := by
  cases c <;> rfl

namespace Outline

def below (T : Outline) (l : Location) : List (Location × Content) :=
  T.entries.filter fun e => l <+: e.1

def total (T : Outline) (l : Location) : Tally := ((T.below l).map fun e => e.2.weight).sum

def children (T : Outline) (l : Location) : List (List Char × Content) :=
  T.entries.filterMap fun e => if e.1.dropLast = l then e.1.getLast?.map (·, e.2) else none

def listing (T : Outline) (home : DeviceId) (sizes : Location → Nat) (l : Location) : List Listed :=
  (T.children l).map fun x => .ok ⟨x.1, x.2.told home (sizes (l ++ [x.1]))⟩

/-- A relative path names an entry; only that of a folder may end in a slash. -/
structure Spells (T : Outline) (t : List Char) (l : Location) (c : Content) : Prop where
  relative : t.head? ≠ some '/'
  names : (piecesAt '/' t).filter (· ≠ []) = l
  entry : (l, c) ∈ T.entries
  slash : t.getLast? = some '/' → c = .folder

/-- Asked about paths that stand for entries, a file system answers as the tree is, with sizes of its
own for the folders. -/
structure ShownBy (T : Outline) (fs : FileSystem) (home : DeviceId) (sizes : Location → Nat)
    (At : Path → Location → Prop) : Prop where
  stat : ∀ p l c, At p l → (l, c) ∈ T.entries → fs.stat p false = .ok (c.told home (sizes l))
  list : ∀ p l, At p l → (l, .folder) ∈ T.entries →
    ∃ entries, fs.list p false = .ok entries ∧ entries.Perm (T.listing home sizes l)
  below : ∀ p l n c, At p l → (l, .folder) ∈ T.entries → (l ++ [n], c) ∈ T.entries →
    At (p.join n) (l ++ [n])

variable {T : Outline} {l v w : Location} {n : List Char} {c c' : Content} {home : DeviceId}
variable {sizes : Location → Nat}

theorem eq_of_mem (h : (l, c) ∈ T.entries) (h' : (l, c') ∈ T.entries) : c = c' :=
  (Prod.mk.inj (List.inj_on_of_nodup_map T.apart h h' rfl)).2

theorem mem_children : (n, c) ∈ T.children l ↔ (l ++ [n], c) ∈ T.entries := by
  rw [children, List.mem_filterMap]
  constructor
  · rintro ⟨⟨l', c'⟩, he, h⟩
    split at h
    · rename_i hl
      obtain ⟨m, hm, hmc⟩ := Option.map_eq_some_iff.1 h
      obtain ⟨rfl, rfl⟩ := Prod.mk.inj hmc
      obtain ⟨v, hv⟩ := List.getLast?_eq_some_iff.1 hm
      have hl' : l' = v ++ [m] := hv
      rw [hl', List.dropLast_concat] at hl
      rwa [← hl, ← hl']
    · cases h
  · intro h
    exact ⟨_, h, by simp⟩

theorem folder_above (h : (v ++ w, c) ∈ T.entries) (hv : v ≠ []) (hw : w ≠ []) :
    (v, .folder) ∈ T.entries := by
  induction w using List.reverseRecOn generalizing c with
  | nil => exact absurd rfl hw
  | append_singleton w n ih =>
      have hparent := T.parent _ h
      rw [← List.append_assoc, List.dropLast_concat] at hparent
      rcases hparent with hnil | hparent
      · exact absurd (List.append_eq_nil_iff.1 hnil).1 hv
      · by_cases hne : w = []
        · rwa [hne, List.append_nil] at hparent
        · exact ih hparent hne

theorem exists_child (h : (l ++ n :: w, c) ∈ T.entries) : ∃ c', (l ++ [n], c') ∈ T.entries := by
  have happend : l ++ n :: w = (l ++ [n]) ++ w := by simp
  by_cases hw : w = []
  · exact ⟨c, by rwa [hw] at h⟩
  · exact ⟨_, folder_above (happend ▸ h) (by simp) hw⟩

theorem children_of_leaf (h : (l, c) ∈ T.entries) (hc : c ≠ .folder) : T.children l = [] := by
  refine List.eq_nil_iff_forall_not_mem.2 fun x hx => hc ?_
  exact eq_of_mem h (folder_above (mem_children.1 hx) (T.proper _ h).1 (List.cons_ne_nil _ _))

theorem mem_below {e : Location × Content} : e ∈ T.below l ↔ e ∈ T.entries ∧ l <+: e.1 := by
  rw [below, List.mem_filter, decide_eq_true_iff]

theorem nodup_children : ((T.children l).map Prod.fst).Nodup := by
  have hfst : (T.children l).map Prod.fst =
      (T.entries.map Prod.fst).filterMap fun l' => if l'.dropLast = l then l'.getLast? else none := by
    rw [children, List.map_filterMap, List.filterMap_map]
    refine congrArg (List.filterMap · T.entries) (funext fun e => ?_)
    show Option.map Prod.fst _ = _
    dsimp only [Function.comp]
    split
    · rw [Option.map_map]
      exact Option.map_id'
    · rfl
  rw [hfst]
  refine T.apart.filterMap fun a b n ha hb => ?_
  simp only [Option.mem_def] at ha hb
  split at ha
  · split at hb
    · rename_i hal hbl
      obtain ⟨v, rfl⟩ := List.getLast?_eq_some_iff.1 ha
      obtain ⟨w, rfl⟩ := List.getLast?_eq_some_iff.1 hb
      rw [List.dropLast_concat] at hal hbl
      rw [hal, hbl]
    · cases hb
  · cases ha

theorem perm_listing {entries : List Listed} (hnodup : entries.Nodup)
    (h : ∀ e, e ∈ entries ↔
      ∃ n c, (l ++ [n], c) ∈ T.entries ∧ e = .ok ⟨n, c.told home (sizes (l ++ [n]))⟩) :
    entries.Perm (T.listing home sizes l) := by
  have hchildren : (T.children l).Nodup := List.Nodup.of_map _ nodup_children
  have hlisting : (T.listing home sizes l).Nodup := by
    refine hchildren.map_on fun x hx y hy he => ?_
    exact List.inj_on_of_nodup_map nodup_children hx hy (Child.mk.inj (Except.ok.inj he)).1
  refine (List.perm_ext_iff_of_nodup hnodup hlisting).2 fun e => (h e).trans ?_
  rw [listing, List.mem_map]
  constructor
  · rintro ⟨n, c, hc, rfl⟩
    exact ⟨(n, c), mem_children.2 hc, rfl⟩
  · rintro ⟨⟨n, c⟩, hx, rfl⟩
    exact ⟨n, c, mem_children.1 hx, rfl⟩

theorem below_perm (h : (l, c) ∈ T.entries) :
    (T.below l).Perm ((l, c) :: (T.children l).flatMap fun x => T.below (l ++ [x.1])) := by
  have hnodup : T.entries.Nodup := List.Nodup.of_map _ T.apart
  refine (List.perm_ext_iff_of_nodup (hnodup.filter _) ?_).2 fun e => ?_
  · refine List.nodup_cons.2 ⟨fun hm => ?_, List.nodup_flatMap.2 ⟨fun _ _ => hnodup.filter _, ?_⟩⟩
    · obtain ⟨x, -, hx⟩ := List.mem_flatMap.1 hm
      have hlen := (mem_below.1 hx).2.length_le
      rw [List.length_append] at hlen
      exact Nat.not_succ_le_self _ hlen
    · refine (List.pairwise_map.1 nodup_children).imp fun hne e hx hy => hne ?_
      obtain ⟨v, hv⟩ := (mem_below.1 hx).2
      obtain ⟨w, hw⟩ := (mem_below.1 hy).2
      have he := hv.trans hw.symm
      rw [List.append_assoc, List.append_assoc] at he
      exact (List.cons.inj (List.append_cancel_left he)).1
  · rw [← below, mem_below, List.mem_cons, List.mem_flatMap]
    constructor
    · rintro ⟨he, w, hw⟩
      cases w with
      | nil =>
          rw [List.append_nil] at hw
          exact .inl (List.inj_on_of_nodup_map T.apart he h hw.symm)
      | cons n w =>
          obtain ⟨c', hc'⟩ := exists_child (show (l ++ n :: w, e.2) ∈ T.entries from hw ▸ he)
          exact .inr ⟨_, mem_children.2 hc', mem_below.2 ⟨he, w, by simpa using hw⟩⟩
    · rintro (rfl | ⟨x, -, hx⟩)
      · exact ⟨h, List.prefix_rfl⟩
      · obtain ⟨he, hle⟩ := mem_below.1 hx
        exact ⟨he, (List.prefix_append _ _).trans hle⟩

theorem total_eq (h : (l, c) ∈ T.entries) :
    T.total l = c.weight + ((T.children l).map fun x => T.total (l ++ [x.1])).sum := by
  have hsum := ((below_perm h).map fun e => e.2.weight).sum_eq
  rw [List.map_cons, List.sum_cons, List.map_flatMap, List.flatMap, List.sum_flatten,
    List.map_map] at hsum
  exact hsum

theorem length_below (h : (l, c) ∈ T.entries) : (T.below l).length =
    1 + ((T.children l).map fun x => (T.below (l ++ [x.1])).length).sum := by
  rw [(below_perm h).length_eq, List.length_cons, List.length_flatMap, Nat.add_comm]

/-- What is met at an entry of a tree, wherever it is kept. -/
structure Met (T : Outline) (fs : FileSystem) (home : DeviceId) (sizes : Location → Nat) (p : Path)
    (l : Location) (c : Content) (s : Sight) : Prop where
  shown : s.Shown fs false home p (c.told home (sizes l))
  total : s.total = T.total l
  cost : s.cost + 3 ≤ 7 * (T.below l).length
  opens : ∀ f, s ≠ .barred f

theorem exists_met_inside {fs : FileSystem} {p : Path} (cs : List (List Char × Content))
    (h : ∀ x ∈ cs, ∃ s, T.Met fs home sizes (p.join x.1) (l ++ [x.1]) x.2 s) :
    ∃ s : Sights, s.Shown fs false home p
        (cs.map fun x => .ok ⟨x.1, x.2.told home (sizes (l ++ [x.1]))⟩) ∧
      s.total = (cs.map fun x => T.total (l ++ [x.1])).sum ∧
      s.cost ≤ 1 + 7 * (cs.map fun x => (T.below (l ++ [x.1])).length).sum := by
  induction cs with
  | nil => exact ⟨.nil, trivial, rfl, Nat.le_refl _⟩
  | cons x cs ih =>
      obtain ⟨⟨s, hs⟩, hcs⟩ := List.forall_mem_cons.1 h
      obtain ⟨rest, hshown, htotal, hcost⟩ := ih hcs
      refine ⟨.entry x.1 s rest, ⟨rfl, hs.shown, hshown⟩, ?_, ?_⟩
      · rw [Sights.total, hs.total, htotal, List.map_cons, List.sum_cons]
      · have hone := hs.cost
        rw [Sights.cost, List.map_cons, List.sum_cons]
        omega

theorem exists_map_of_perm {α β : Type} {f : α → β} {l : List α} {l' : List β}
    (h : l'.Perm (l.map f)) : ∃ m : List α, m.Perm l ∧ l' = m.map f := by
  have hf : List.Forall₂ (fun b a => b = f a) (l.map f) l := by
    rw [List.forall₂_map_left_iff]
    exact List.forall₂_same.2 fun _ _ => rfl
  obtain ⟨m, hm, hperm⟩ := List.perm_comp_forall₂ h hf
  refine ⟨m, hperm, ?_⟩
  rwa [← List.forall₂_eq_eq_eq, List.forall₂_map_right_iff]

theorem ShownBy.exists_met {fs : FileSystem} {At : Path → Location → Prop}
    (h : T.ShownBy fs home sizes At) {p : Path} (hp : At p l) (hl : (l, c) ∈ T.entries) :
    ∃ s, T.Met fs home sizes p l c s := by
  -- A child has fewer entries at and below it than its folder has.
  induction hsize : (T.below l).length using Nat.strongRecOn generalizing p l c with
  | ind size ih =>
      have hlen := length_below hl
      have htotal := total_eq hl
      cases c with
      | folder =>
          obtain ⟨entries, hlist, hperm⟩ := h.list p l hp hl
          obtain ⟨cs, hcs, rfl⟩ := exists_map_of_perm hperm
          have hall : ∀ x ∈ cs, ∃ s, T.Met fs home sizes (p.join x.1) (l ++ [x.1]) x.2 s := by
            intro x hx
            have hx := hcs.subset hx
            have hchild := mem_children.1 hx
            have hle : (T.below (l ++ [x.1])).length ≤
                ((T.children l).map fun x => (T.below (l ++ [x.1])).length).sum :=
              List.le_sum_of_mem (List.mem_map.2 ⟨x, hx, rfl⟩)
            exact ih _ (by omega) (h.below p l x.1 x.2 hp hl hchild) hchild rfl
          obtain ⟨inside, hin, hintotal, hincost⟩ := exists_met_inside cs hall
          rw [(hcs.map _).sum_eq] at hintotal hincost
          refine ⟨.folder inside, ⟨rfl, rfl, _, hlist, hin⟩, ?_, ?_, by simp⟩
          · rw [Sight.total, hintotal, htotal, Content.weight]
          · rw [Sight.cost]
            omega
      | file | link =>
          rw [children_of_leaf hl (by simp)] at htotal
          refine ⟨.leaf _, ⟨rfl, by simp [Content.told], rfl⟩, ?_, ?_, by simp⟩
          · rw [htotal]
            exact (add_zero _).symm
          · rw [Sight.cost]
            omega

theorem ShownBy.shuffled {fs fs' : FileSystem} {At : Path → Location → Prop}
    (h : T.ShownBy fs home sizes At) (hfs : fs.Shuffles fs') : T.ShownBy fs' home sizes At := by
  refine ⟨fun p l c hp hl => (hfs.stat p false).trans (h.stat p l c hp hl), fun p l hp hl => ?_, h.below⟩
  obtain ⟨entries, hlist, hperm⟩ := h.list p l hp hl
  obtain ⟨entries', hlist', hperm'⟩ := hfs.listing p false entries hlist
  exact ⟨entries', hlist', hperm'.symm.trans hperm⟩

theorem ShownBy.exists_mets {P : Plan} {At : Path → Location → Prop} (h : T.ShownBy P.fs home sizes At)
    (hfollow : P.options.follow = false) (roots : List (Path × Location))
    (hroots : ∀ r ∈ roots, At r.1 r.2 ∧ ∃ c, (r.2, c) ∈ T.entries) :
    ∃ l : List (Path × Sight), l.map Prod.fst = roots.map Prod.fst ∧
      (∀ x ∈ l, P.Shows x.1 x.2 ∧ (P.lone = false ∨ ∀ f, x.2 ≠ .barred f)) ∧
      rootsTotal l = (roots.map fun r => T.total r.2).sum ∧
      rootsCost l ≤ roots.length * (7 * T.entries.length) := by
  induction roots with
  | nil => exact ⟨[], rfl, List.forall_mem_nil _, rfl, Nat.zero_le _⟩
  | cons r roots ih =>
      obtain ⟨⟨hr, c, hc⟩, hroots⟩ := List.forall_mem_cons.1 hroots
      obtain ⟨l, hfst, hl, htotal, hcost⟩ := ih hroots
      obtain ⟨s, hs⟩ := h.exists_met hr hc
      refine ⟨(r.1, s) :: l, congrArg (r.1 :: ·) hfst, List.forall_mem_cons.2 ⟨⟨?_, ?_⟩, hl⟩, ?_, ?_⟩
      · rw [Plan.Shows, hfollow]
        refine ⟨_, h.stat _ _ c hr hc, ?_⟩
        rw [Content.told_device]
        exact hs.shown
      · exact .inr hs.opens
      · rw [rootsTotal] at htotal ⊢
        rw [List.map_cons, List.sum_cons, hs.total, htotal, List.map_cons, List.sum_cons]
      · have hone : s.cost + 1 ≤ 7 * T.entries.length := by
          have hle : (T.below r.2).length ≤ T.entries.length := List.length_filter_le _ _
          have hcost := hs.cost
          omega
        rw [rootsCost] at hcost ⊢
        rw [List.map_cons, List.sum_cons, List.length_cons, Nat.succ_mul, Nat.add_comm]
        exact Nat.add_le_add hcost hone

/-- Whatever shows a tree is counted to what lies at and below the roots. -/
theorem ShownBy.comesTo {fs : FileSystem} {At : Path → Location → Prop}
    (h : T.ShownBy fs home sizes At) {options : Options} (hfollow : options.follow = false) (clock : Nat → Instant)
    {roots : List (Path × Location)} (hroots : ∀ r ∈ roots, At r.1 r.2 ∧ ∃ c, (r.2, c) ∈ T.entries)
    {fuel : Nat} (hfuel : roots.length * (7 * T.entries.length) + 2 < fuel) :
    Memory.ComesTo (Plan.ofOptions fs options clock (roots.map Prod.fst)) fuel (roots.map Prod.fst)
      (.ok ((roots.map fun r => T.total r.2).sum).capped) := by
  let P := Plan.ofOptions fs options clock (roots.map Prod.fst)
  have hP : T.ShownBy P.fs home sizes At := h
  obtain ⟨l, hfst, hl, htotal, hcost⟩ := hP.exists_mets hfollow roots hroots
  have hcount := count_shown hl (show rootsCost l + 2 < fuel by omega)
  rw [hfst] at hcount
  refine Memory.comesTo_of_course hcount fun s hs => ?_
  rw [← htotal, ← hs]

end Outline

end TreeTally
