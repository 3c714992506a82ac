import Mathlib.Algebra.BigOperators.Ring.List
import Mathlib.Algebra.Order.BigOperators.Group.List
import Mathlib.Algebra.Order.Group.Nat
import Mathlib.Algebra.Ring.Nat
import TreeTally.Proofs.Memory.Visible
import TreeTally.Proofs.Walk.Roots

namespace TreeTally.Memory

open TreeTally.Path

def weight (m : Memory) (p : Path) : Tally :=
  match m.nodes.find? p with
  | none => 0
  | some n =>
      if n.content.kind = .folder then if n.readable then ⟨0, 0, 1, 0⟩ else ⟨0, 0, 0, 1⟩
      else ⟨n.content.size, 1, 0, 0⟩

def weightBelow (m : Memory) (p : Path) : Tally := ((m.visible p).map m.weight).sum

def infoOf (m : Memory) (p : Path) (n : Node) : EntryInfo :=
  ⟨n.content.kind, n.content.size, m.deviceOf p⟩

variable {m : Memory} {k p q c : Path} {n : Node}

theorem exists_node (hk : k ∈ m.nodes.keys) : ∃ n, m.nodes.find? k = some n := by
  have h : m.nodes.contains k = true := m.nodes.contains_iff.2 ⟨k, hk, rfl⟩
  exact Option.isSome_iff_exists.1 h

theorem childKeys_congr (h : p.Same q) : m.childKeys p = m.childKeys q := by
  have hs (a : Path) : a.Same p ↔ a.Same q := same_congr rfl h
  simp [childKeys, hs]

theorem stat_alone (h : m.nodes.find? p = some n) :
    m.stat p false = if n.queryable then .ok (m.infoOf p n) else .error (.unqueryable p) := by
  simp only [stat, look]
  rw [h]
  cases hq : n.queryable
  · simp [bind, Except.bind, hq, throw, throwThe, MonadExceptOf.throw]
  · simp [bind, Except.bind, hq, pure, Except.pure, resolve, h, infoOf]

theorem stat_missing (h : m.nodes.find? p = none) : m.stat p false = .error (.missing p) := by
  rw [stat, look]
  rw [h]
  rfl

theorem list_of_resolve {follow : Bool} (hq : m.resolve p follow = .ok q)
    (h : m.nodes.find? q = some n) (hk : n.content.kind = .folder) : m.list p follow =
      if n.readable then .ok ((m.childKeys q).map (m.listed follow)) else .error (.denied p) := by
  simp only [list, hq, look]
  cases hr : n.readable
  · simp [bind, Except.bind, h, hk, hr, throw, throwThe, MonadExceptOf.throw]
  · simp [bind, Except.bind, h, hk, hr, pure, Except.pure]

theorem list_leaf {follow : Bool} (hq : m.resolve p follow = .ok q)
    (h : m.nodes.find? q = some n) (hk : n.content.kind ≠ .folder) :
    m.list p follow = .error (.notDirectory p) := by
  simp only [list, hq, look]
  simp [bind, Except.bind, h, hk, throw, throwThe, MonadExceptOf.throw]

theorem list_missing {follow : Bool} (h : m.nodes.find? p = none) :
    m.list p follow = .error (.missing p) := by
  have hlook : m.look p = .error (.missing p) := by rw [look, h]
  cases follow with
  | false => simp [list, resolve, hlook, bind, Except.bind]
  | true => simp [list, resolve, linkLimit, chase, hlook, bind, Except.bind]

theorem list_alone (h : m.nodes.find? p = some n) (hk : n.content.kind = .folder) :
    m.list p false =
      if n.readable then .ok ((m.childKeys p).map (m.listed false)) else .error (.denied p) :=
  list_of_resolve rfl h hk

theorem weightBelow_eq (hc : m.Closed) (hk : k ∈ m.nodes.keys) :
    m.weightBelow k = m.weight k + ((m.seenChildren k).map m.weightBelow).sum := by
  have hflat (l : List Path) :
      ((l.flatMap m.visible).map m.weight).sum = (l.map m.weightBelow).sum := by
    induction l with
    | nil => rfl
    | cons a l ih => simp [ih, weightBelow]
  rw [weightBelow, ((visible_perm hc hk).map m.weight).sum_eq, List.map_cons, List.sum_cons, hflat]

theorem length_below (hc : m.Closed) (hk : k ∈ m.nodes.keys) :
    (m.below k).length = 1 + ((m.childKeys k).map fun c => (m.below c).length).sum := by
  rw [(below_perm hc hk).length_eq, List.length_cons, List.length_flatMap, Nat.add_comm]

theorem Plain.exists_name (h : m.Plain) (hk : p.Same k) (hc : c ∈ m.childKeys k) :
    ∃ x, c.fileName? = some x ∧ (p.join x).Same c := by
  obtain ⟨hmem, x, hroot, he⟩ := mem_childKeys.1 hc
  have hplain := h c (m.nodes.contains_iff.2 ⟨c, hmem, rfl⟩)
  rw [Path.Plain, he] at hplain
  cases x with
  | root => exact absurd rfl hroot
  | here => exact absurd (List.mem_append_right _ List.mem_cons_self) hplain.2
  | up => exact absurd (List.mem_append_right _ List.mem_cons_self) hplain.1
  | name x =>
      have hx : Proper x := proper_of_mem_parts (p := c) (by simp [he])
      refine ⟨x, fileName?_of_parts he, ?_⟩
      rw [Same, parts_join p hx, show p.parts = k.parts from hk, he]

/-- A sight agrees with what can be seen from an entry. -/
structure Renders (m : Memory) (k p : Path) (n : Node) (s : Sight) : Prop where
  shown : s.Shown m.fileSystem false (m.deviceOf k) p (m.infoOf k n)
  total : s.total = m.weightBelow k
  cost : s.cost + 3 ≤ 7 * (m.below k).length
  barred : ∀ f, s = .barred f → m.isBarred k

/-- Some sight renders the entry, however its path is spelled. -/
def Rendered (m : Memory) (k : Path) : Prop :=
  ∀ p n, p.Same k → m.nodes.find? k = some n → ∃ s, m.Renders k p n s

theorem exists_sights_of_seen {follow : Bool} (hm : m.Plain) (total : Path → Tally)
    (cost : Path → Nat) (C : List Path) (hC : ∀ c ∈ C, c ∈ m.childKeys k)
    (hstat : ∀ c ∈ C, m.stat c follow = m.stat c false) (hcost : ∀ c ∈ C, 4 ≤ cost c)
    (h : ∀ c ∈ C, ∀ n x, m.nodes.find? c = some n → c.fileName? = some x → m.isSeen k c = true →
      ∃ s : Sight, s.Shown m.fileSystem follow (m.deviceOf k) (p.join x) (m.infoOf c n) ∧
        s.total = total c ∧ s.cost + 3 ≤ cost c) :
    ∃ s : Sights, s.Shown m.fileSystem follow (m.deviceOf k) p (C.map (m.listed follow)) ∧
      s.total = ((C.filter (m.isSeen k)).map total).sum ∧ s.cost ≤ 1 + (C.map cost).sum := by
  induction C with
  | nil => exact ⟨.nil, trivial, rfl, Nat.le_refl _⟩
  | cons c C ih =>
      obtain ⟨hc, hC⟩ := List.forall_mem_cons.1 hC
      obtain ⟨hcstat, hstat⟩ := List.forall_mem_cons.1 hstat
      obtain ⟨hccost, hcost⟩ := List.forall_mem_cons.1 hcost
      obtain ⟨hcsight, h⟩ := List.forall_mem_cons.1 h
      obtain ⟨rest, hshown, htotal, hrcost⟩ := ih hC hstat hcost h
      obtain ⟨n, hn⟩ := exists_node (mem_childKeys.1 hc).1
      obtain ⟨x, hx, -⟩ := hm.exists_name rfl hc
      have hbroken : m.isBroken c = !n.queryable := by simp [isBroken, hn]
      have hlisted : m.listed follow c =
          if n.queryable then .ok ⟨x, m.infoOf c n⟩ else .error (.unqueryable c) := by
        rw [listed, hcstat, stat_alone hn, hx]
        cases n.queryable <;> rfl
      rw [List.map_cons, List.map_cons, List.sum_cons, hlisted]
      by_cases hq : n.queryable = true
      · rw [if_pos hq]
        by_cases hd : m.deviceOf c = m.deviceOf k
        · have hseen : m.isSeen k c = true := by simp [isSeen, hbroken, hq, hd]
          obtain ⟨s, hs, hstotal, hscost⟩ := hcsight n x hn hx hseen
          refine ⟨.entry x s rest, ⟨rfl, hs, hshown⟩, ?_, ?_⟩
          · rw [Sights.total, hstotal, htotal, List.filter_cons_of_pos hseen, List.map_cons,
              List.sum_cons]
          · rw [Sights.cost]
            omega
        · have hseen : ¬m.isSeen k c = true := by simp [isSeen, hd]
          refine ⟨.entry x .foreign rest, ⟨rfl, fun h => hd h.symm, hshown⟩, ?_, ?_⟩
          · rw [Sights.total, Sight.total, zero_add, htotal, List.filter_cons_of_neg hseen]
          · rw [Sights.cost, Sight.cost]
            omega
      · rw [if_neg hq]
        have hseen : ¬m.isSeen k c = true := by simp [isSeen, hbroken, hq]
        refine ⟨.bad (.unqueryable c) rest, ⟨rfl, hshown⟩, ?_, ?_⟩
        · rw [Sights.total, htotal, List.filter_cons_of_neg hseen]
        · rw [Sights.cost]
          omega

theorem exists_sights (hm : m.Plain) (hp : p.Same k) (C : List Path)
    (hC : ∀ c ∈ C, c ∈ m.childKeys k) (hall : ∀ c ∈ C, m.Rendered c) :
    ∃ s : Sights, s.Shown m.fileSystem false (m.deviceOf k) p (C.map (m.listed false)) ∧
      s.total = ((C.filter (m.isSeen k)).map m.weightBelow).sum ∧
      s.cost ≤ 1 + 7 * (C.map fun c => (m.below c).length).sum := by
  rw [← List.sum_map_mul_left]
  refine exists_sights_of_seen hm m.weightBelow _ C hC (fun _ _ => rfl) (fun c hc => ?_) ?_
  · have hlen : 0 < (m.below c).length := List.length_pos_of_mem
      (List.mem_filter.2 ⟨(mem_childKeys.1 (hC c hc)).1, by simpa using AtOrAbove.refl c⟩)
    omega
  · intro c hc n x hn hx hseen
    obtain ⟨x', hx', hjoin⟩ := hm.exists_name hp (hC c hc)
    obtain rfl : x' = x := Option.some.inj (hx'.symm.trans hx)
    obtain ⟨s, hs⟩ := hall c hc _ n hjoin hn
    have hd : m.deviceOf c = m.deviceOf k := by simpa using (Bool.and_eq_true_iff.1 hseen).2
    exact ⟨s, hd ▸ hs.shown, hs.total, hs.cost⟩

theorem rendered_of_children (hc : m.Closed) (hm : m.Plain) (hk : k ∈ m.nodes.keys)
    (hall : ∀ c ∈ m.childKeys k, m.Rendered c) : m.Rendered k := by
  intro p n hp hn
  have hnp : m.nodes.find? p = some n := (m.nodes.find?_congr hp).trans hn
  have hsum := weightBelow_eq hc hk
  have hlen := length_below hc hk
  by_cases hkind : n.content.kind = .folder
  · have hlist := list_alone hnp hkind
    by_cases hr : n.readable = true
    · have hread : m.isReadable k = true := by simp [isReadable, hn, hkind, hr]
      obtain ⟨inside, hin, htotal, hcost⟩ := exists_sights hm hp _ (fun _ h => h) hall
      rw [if_pos hr, childKeys_congr hp] at hlist
      refine ⟨.folder inside, ⟨rfl, hkind, _, hlist, hin⟩, ?_, ?_, by simp⟩
      · rw [Sight.total, htotal, hsum, weight, hn, seenChildren, if_pos hread]
        simp only [hkind, hr, if_true]
      · rw [Sight.cost]
        omega
    · have hread : ¬m.isReadable k = true := by simp [isReadable, hn, hr]
      rw [if_neg hr] at hlist
      refine ⟨.barred (.denied p), ⟨rfl, hkind, hlist⟩, ?_, ?_, fun _ _ => ?_⟩
      · rw [Sight.total, hsum, weight, hn, seenChildren, if_neg hread]
        simp [hkind, hr]
      · rw [Sight.cost]
        omega
      · simp [isBarred, hn, hkind, hr]
  · have hread : ¬m.isReadable k = true := by simp [isReadable, hn, hkind]
    refine ⟨.leaf n.content.size, ⟨rfl, hkind, rfl⟩, ?_, ?_, by simp⟩
    · rw [Sight.total, hsum, weight, hn, seenChildren, if_neg hread]
      simp [hkind]
    · rw [Sight.cost]
      omega

theorem rendered (hc : m.Closed) (hm : m.Plain) (hk : k ∈ m.nodes.keys) : m.Rendered k := by
  -- A child has fewer entries below it than its folder has.
  induction h : (m.below k).length using Nat.strongRecOn generalizing k with
  | ind size ih =>
      apply rendered_of_children hc hm hk
      intro c hmem
      have hlen := length_below hc hk
      have hle : (m.below c).length ≤ ((m.childKeys k).map fun c => (m.below c).length).sum :=
        List.le_sum_of_mem (List.mem_map.2 ⟨c, hmem, rfl⟩)
      exact ih _ (by omega) (mem_childKeys.1 hmem).1 rfl

end TreeTally.Memory
