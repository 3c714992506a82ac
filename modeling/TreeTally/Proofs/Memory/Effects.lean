import TreeTally.Proofs.Memory.Visible

namespace TreeTally.Memory

open TreeTally.Path

def blank : Node := { content := .folder }

def Build.leaves : Build → Node → Node
  | .folder _, _ | .mount _ _, _ => blank
  | .file _ n, _ => { content := .file n }
  | .link _ t, _ => { content := .link t }
  | .unreadable _, n => { n with readable := false }
  | .broken _, n => { n with queryable := false }

def Build.starts : Build → Option DeviceId → Option DeviceId
  | .mount _ d, _ => some d
  | _, o => o

/-- The path is that of the call, or has to exist for it. -/
def Build.Reaches (c : Build) (q : Path) : Prop := q.Same c.path ∨ ∃ a ∈ enclosing c.path, q.Same a

instance (c : Build) (q : Path) : Decidable (c.Reaches q) := inferInstanceAs (Decidable (_ ∨ _))

def callsAt (q : Path) (calls : List Build) : List Build := calls.filter fun c => q.Same c.path

/-- The call breaks nothing that is not there. -/
def Build.Grounded (m : Memory) : Build → Prop
  | .broken p => m.nodes.contains p = true
  | _ => True

/-- No call breaks what is not there when its turn comes. -/
def Grounded (m : Memory) : List Build → Prop
  | [] => True
  | c :: calls => c.Grounded m ∧ Grounded (m.build c) calls

variable {m : Memory} {p q : Path} {c : Build} {calls : List Build}

theorem find?_put (n : Node) : (m.put p n).nodes.find? q = if q.Same p then some n
    else if ∃ a ∈ enclosing p, q.Same a then some ((m.nodes.find? q).getD blank)
    else m.nodes.find? q := by
  rw [put, Map.find?_insert, Map.find?_foldl_insertNew]
  rfl

theorem Closed.exists_node (h : m.Closed) (hp : m.nodes.contains p = true)
    (hq : ∃ a ∈ enclosing p, q.Same a) : ∃ n, m.nodes.find? q = some n := by
  obtain ⟨a, ha, hs⟩ := hq
  obtain ⟨hne, w, -, -, he⟩ := exists_mem_enclosing.1 ⟨a, ha, rfl⟩
  obtain ⟨k, hk, hpk⟩ := m.nodes.contains_iff.1 hp
  obtain ⟨k', hk', hv⟩ := h.exists_key hk (hpk.symm.trans he) hne
  exact Option.isSome_iff_exists.1 (m.nodes.contains_iff.2 ⟨k', hk', hs.trans hv.symm⟩)

theorem find?_mark (h : m.Closed) (hp : m.nodes.contains p = true) (f : Node → Node) :
    (m.nodes.modify p f).find? q = if q.Same p then some (f ((m.nodes.find? q).getD blank))
      else if ∃ a ∈ enclosing p, q.Same a then some ((m.nodes.find? q).getD blank)
      else m.nodes.find? q := by
  rw [Map.find?_modify]
  split
  · rename_i hs
    obtain ⟨n, hn⟩ := Option.isSome_iff_exists.1 ((m.nodes.contains_congr hs).trans hp)
    rw [hn]
    rfl
  split
  · rename_i ha
    obtain ⟨n, hn⟩ := h.exists_node hp ha
    rw [hn]
    rfl
  · rfl

theorem find?_build (h : m.Closed) (hc : c.Grounded m) : (m.build c).nodes.find? q =
    if q.Same c.path then some (c.leaves ((m.nodes.find? q).getD blank))
    else if ∃ a ∈ enclosing c.path, q.Same a then some ((m.nodes.find? q).getD blank)
    else m.nodes.find? q := by
  cases c with
  | folder p | file p n | link p t | mount p d => exact find?_put _
  | broken p =>
      have hp : m.nodes.contains p = true := hc
      rw [build, markBroken, if_pos hp]
      exact find?_mark h hp _
  | unreadable p =>
      rw [build, markUnreadable]
      by_cases hp : m.nodes.contains p = true
      · rw [if_pos hp]
        exact find?_mark h hp _
      · rw [if_neg hp, Map.find?_modify, addFolder, find?_put]
        by_cases hs : q.Same p
        · have hnone : m.nodes.find? q = none := by
            rw [m.nodes.find?_congr hs]
            exact Option.not_isSome_iff_eq_none.1 hp
          rw [if_pos hs, if_pos hs, if_pos (show q.Same (Build.unreadable p).path from hs), hnone]
          rfl
        · rw [if_neg hs, if_neg hs, if_neg (show ¬q.Same (Build.unreadable p).path from hs)]
          rfl

theorem find?_mounts_build : (m.build c).mounts.find? q =
    if q.Same c.path then c.starts (m.mounts.find? q) else m.mounts.find? q := by
  cases c with
  | mount p d => exact Map.find?_insert _ _ _ _
  | folder | file | link => exact (ite_self _).symm
  | unreadable p =>
      rw [build, markUnreadable]
      split <;> exact (ite_self _).symm
  | broken p =>
      rw [build, markBroken]
      split <;> exact (ite_self _).symm

theorem device_build : (m.build c).device = m.device := by
  cases c with
  | folder | file | link | mount => rfl
  | unreadable p =>
      rw [build, markUnreadable]
      split <;> rfl
  | broken p =>
      rw [build, markBroken]
      split <;> rfl

theorem callsAt_cons : callsAt q (c :: calls) =
    if q.Same c.path then c :: callsAt q calls else callsAt q calls := by
  by_cases h : q.Same c.path <;> simp [callsAt, h]

theorem callsAt_eq_nil (h : ¬∃ c ∈ calls, c.Reaches q) : callsAt q calls = [] :=
  List.filter_eq_nil_iff.2 fun c hc hs => h ⟨c, hc, .inl (of_decide_eq_true hs)⟩

theorem find?_foldl_build (h : m.Closed) (hg : Grounded m calls) (q : Path) :
    (calls.foldl build m).nodes.find? q =
      if ∃ c ∈ calls, c.Reaches q then
        some ((callsAt q calls).foldl (fun n c => c.leaves n)
          ((m.nodes.find? q).getD blank))
      else m.nodes.find? q := by
  induction calls generalizing m with
  | nil => simp
  | cons c calls ih =>
      obtain ⟨hc, hg⟩ := hg
      rw [List.foldl_cons, ih (h.build c) hg, find?_build h hc]
      -- Once there is a node, the calls at its path alone go on with it.
      have hthere (n : Node) :
          (if ∃ c ∈ calls, c.Reaches q then
            some ((callsAt q calls).foldl (fun n c => c.leaves n)
              ((some n).getD blank))
          else some n) =
            some ((callsAt q calls).foldl (fun n c => c.leaves n) n) := by
        split
        · rfl
        · rename_i hno
          rw [callsAt_eq_nil hno]
          rfl
      by_cases hs : q.Same c.path
      · rw [if_pos hs, hthere, if_pos ⟨c, List.mem_cons_self, .inl hs⟩, callsAt_cons, if_pos hs,
          List.foldl_cons]
      rw [if_neg hs, callsAt_cons, if_neg hs]
      by_cases ha : ∃ a ∈ enclosing c.path, q.Same a
      · rw [if_pos ha, hthere, if_pos ⟨c, List.mem_cons_self, .inr ha⟩]
      · have hrest : (∃ c' ∈ c :: calls, c'.Reaches q) ↔ ∃ c' ∈ calls, c'.Reaches q := by
          rw [List.exists_mem_cons_iff]
          exact or_iff_right fun h => h.elim hs ha
        rw [if_neg ha]
        simp only [hrest]

theorem find?_mounts_foldl_build (q : Path) : (calls.foldl build m).mounts.find? q =
    (callsAt q calls).foldl (fun o c => c.starts o) (m.mounts.find? q) := by
  induction calls generalizing m with
  | nil => rfl
  | cons c calls ih =>
      rw [List.foldl_cons, ih, find?_mounts_build, callsAt_cons]
      split <;> rfl

theorem device_foldl_build : (calls.foldl build m).device = m.device := by
  induction calls generalizing m with
  | nil => rfl
  | cons c calls ih => exact ih.trans device_build

end TreeTally.Memory
