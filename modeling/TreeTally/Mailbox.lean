namespace TreeTally

/-- Whoever holds the address may post. A closed mailbox refuses letters and has lost those that
were waiting. -/
structure Mailbox (α : Type) where
  waiting : List α := []
  closed : Bool := false

namespace Mailbox

variable {α : Type}

def accepts (m : Mailbox α) : Bool := !m.closed

def post (m : Mailbox α) (a : α) : Mailbox α :=
  if m.closed then m else { m with waiting := m.waiting ++ [a] }

def postAll (m : Mailbox α) (l : List α) : Mailbox α := l.foldl post m

def take? (m : Mailbox α) : Option (α × Mailbox α) :=
  match m.waiting with
  | [] => none
  | a :: rest => some (a, { m with waiting := rest })

def close (_ : Mailbox α) : Mailbox α := ⟨[], true⟩

theorem waiting_post {m : Mailbox α} (a : α) (h : m.closed = false) :
    (m.post a).waiting = m.waiting ++ [a] := by simp [post, h]

end Mailbox

end TreeTally
