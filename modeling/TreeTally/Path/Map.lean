import TreeTally.Path.Basic

namespace TreeTally.Path

variable {α : Type}

/-- Strictly increasing keys, hence each path at most once. -/
def Ordered (l : List (Path × α)) : Prop := l.Pairwise fun a b => a.1.key < b.1.key

/-- Stores at a path; one that is present keeps its place and its spelling. -/
def store (p : Path) (a : α) : List (Path × α) → List (Path × α)
  | [] => [(p, a)]
  | (q, b) :: r =>
      if p.Same q then (q, a) :: r
      else if p.key < q.key then (p, a) :: (q, b) :: r
      else (q, b) :: store p a r

theorem key_of_mem_store {p : Path} {a : α} {e : Path × α} {l : List (Path × α)}
    (h : e ∈ store p a l) : e.1.key = p.key ∨ ∃ e' ∈ l, e'.1 = e.1 := by
  induction l with
  | nil => simp [store] at h; simp [h]
  | cons x r ih =>
      obtain ⟨q, b⟩ := x
      rw [store] at h
      split at h
      · rcases List.mem_cons.1 h with rfl | h
        · exact .inr ⟨_, List.mem_cons_self, rfl⟩
        · exact .inr ⟨_, List.mem_cons_of_mem _ h, rfl⟩
      split at h
      · rcases List.mem_cons.1 h with rfl | h
        · exact .inl rfl
        · exact .inr ⟨_, h, rfl⟩
      · rcases List.mem_cons.1 h with rfl | h
        · exact .inr ⟨_, List.mem_cons_self, rfl⟩
        · rcases ih h with h | ⟨e', he, h⟩
          · exact .inl h
          · exact .inr ⟨e', List.mem_cons_of_mem _ he, h⟩

theorem key_lt_of_not {p q : Path} (hs : ¬p.Same q) (hl : ¬p.key < q.key) : q.key < p.key := by
  refine Classical.not_not.1 fun h => hs (same_iff_key.2 ?_)
  exact List.le_antisymm (List.not_lt.1 h) (List.not_lt.1 hl)

theorem ordered_store {p : Path} {a : α} {l : List (Path × α)} (h : Ordered l) :
    Ordered (store p a l) := by
  induction l with
  | nil => simp [store, Ordered]
  | cons x r ih =>
      obtain ⟨q, b⟩ := x
      obtain ⟨hq, hr⟩ := List.pairwise_cons.1 h
      rw [store]
      split
      · exact List.pairwise_cons.2 ⟨hq, hr⟩
      split
      · rename_i hl
        refine List.pairwise_cons.2 ⟨fun e he => ?_, h⟩
        rcases List.mem_cons.1 he with rfl | he
        · exact hl
        · exact List.lt_trans hl (hq e he)
      · rename_i hs hl
        refine List.pairwise_cons.2 ⟨fun e he => ?_, ih hr⟩
        rcases key_of_mem_store he with h | ⟨e', he', h⟩
        · exact h ▸ key_lt_of_not hs hl
        · exact h ▸ hq e' he'

def seek (q : Path) (l : List (Path × α)) : Option α := (l.find? fun e => q.Same e.1).map Prod.snd

theorem seek_store (p q : Path) (a : α) (l : List (Path × α)) :
    seek q (store p a l) = if q.Same p then some a else seek q l := by
  induction l with
  | nil => by_cases h : q.Same p <;> simp [seek, store, h]
  | cons x r ih =>
      obtain ⟨k, b⟩ := x
      by_cases hk : q.Same k
      · by_cases hp : p.Same k
        · have hq : q.Same p := hk.trans hp.symm
          simp [seek, store, hp, hk, hq]
        · have hq : ¬q.Same p := fun h => hp (h.symm.trans hk)
          by_cases hl : p.key < k.key <;> simp [seek, store, hp, hl, hk, hq]
      · by_cases hp : p.Same k
        · have hq : ¬q.Same p := fun h => hk (h.trans hp)
          simp [seek, store, hp, hk, hq]
        · by_cases hl : p.key < k.key
          · by_cases hq : q.Same p <;> simp [seek, store, hp, hl, hk, hq]
          · simpa [seek, store, hp, hl, hk] using ih

variable (α) in
/-- Keys are compared by their parts, so a map holds a path once however it is spelled. Storing at a
path that is present keeps its first spelling. -/
structure Map where
  entries : List (Path × α)
  ordered : Ordered entries

namespace Map

def empty : Map α := ⟨[], List.Pairwise.nil⟩

def insert (m : Map α) (p : Path) (a : α) : Map α := ⟨store p a m.entries, ordered_store m.ordered⟩

def find? (m : Map α) (p : Path) : Option α := seek p m.entries

theorem find?_insert (m : Map α) (p q : Path) (a : α) :
    (m.insert p a).find? q = if q.Same p then some a else m.find? q := seek_store p q a m.entries

def contains (m : Map α) (p : Path) : Bool := (m.find? p).isSome

def keys (m : Map α) : List Path := m.entries.map Prod.fst

def insertNew (m : Map α) (p : Path) (a : α) : Map α := if m.contains p then m else m.insert p a

/-- Changes what is stored at a path; a path that is absent stays absent. -/
def modify (m : Map α) (p : Path) (f : α → α) : Map α :=
  match m.find? p with
  | some a => m.insert p (f a)
  | none => m

end Map

end TreeTally.Path
