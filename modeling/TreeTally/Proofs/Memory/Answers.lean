import TreeTally.Memory.Basic

namespace TreeTally.Memory

open TreeTally.Path

variable {m : Memory} {p q : Path} {follow : Bool} {i : EntryInfo} {entries : List Listed}

theorem stat_eq_ok : m.stat p follow = .ok i ↔ ∃ n q n', m.nodes.find? p = some n ∧
    n.queryable = true ∧ m.resolve p follow = .ok q ∧ m.nodes.find? q = some n' ∧
    ⟨n'.content.kind, n'.content.size, m.deviceOf q⟩ = i := by
  rw [stat, look]
  cases m.nodes.find? p with
  | none => simp [bind, Except.bind]
  | some n =>
      cases hq : n.queryable with
      | false => simp [bind, Except.bind, hq, throw, throwThe, MonadExceptOf.throw]
      | true =>
          cases hr : m.resolve p follow with
          | error f => simp [bind, Except.bind, hq]
          | ok q => cases hn : m.nodes.find? q <;>
              simp [bind, Except.bind, hq, pure, Except.pure, look, hn]

theorem list_eq_ok : m.list p follow = .ok entries ↔ ∃ q n, m.resolve p follow = .ok q ∧
    m.nodes.find? q = some n ∧ n.content.kind = .folder ∧ n.readable = true ∧
    (m.childKeys q).map (m.listed follow) = entries := by
  rw [list]
  cases m.resolve p follow with
  | error f => simp [bind, Except.bind]
  | ok q =>
      cases hn : m.nodes.find? q with
      | none => simp [bind, Except.bind, look, hn]
      | some n =>
          by_cases hk : n.content.kind = .folder
          · cases hr : n.readable <;> simp [bind, Except.bind, pure, Except.pure, look, hn, hk, hr,
              throw, throwThe, MonadExceptOf.throw]
          · simp [bind, Except.bind, look, hn, hk, throw, throwThe, MonadExceptOf.throw]

end TreeTally.Memory
