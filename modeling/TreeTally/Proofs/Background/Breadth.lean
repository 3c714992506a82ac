import TreeTally.Proofs.Background.Edit

namespace TreeTally

variable {α : Type}

def Call.note? : Call α → Option α
  | note label => some label
  | progress _ _ _ | done _ _ _ | errandDone _ _ _ _ => none

namespace Letter

def label? : Letter α → Option α
  | note (.mk label _) => some label
  | progress _ _ _ | counted _ _ | errandDone _ _ _ => none

theorem weights_append (l m : List (Letter α)) : weights (l ++ m) = weights l + weights m := by
  induction l with
  | nil => simp [weights]
  | cons x l ih => simp [weights, ih, Nat.add_assoc]

theorem weights_notes (next : List (Note α)) : weights (next.map note) = Note.weights next := by
  induction next with
  | nil => rfl
  | cons n next ih => simp [weights, weight, Note.weights, ih]

theorem weight_eq (x : Letter α) : x.weight = weights x.next + 1 := by
  cases x with
  | note n =>
      cases n with
      | mk label l => rw [weight, Note.weight, next, weights_notes]
  | _ => rfl

theorem weights_next (l : List (Letter α)) : weights (l.flatMap next) + l.length = weights l := by
  induction l with
  | nil => rfl
  | cons x l ih =>
      have hx := weight_eq x
      rw [List.flatMap_cons, weights_append, List.length_cons, weights]
      omega

def generation : Nat → List (Letter α) → List (Letter α)
  | 0, l => l
  | n + 1, l => generation n (l.flatMap next)

/-- The given letters, then all that are posted when these are read, and so on. -/
def breadthFirst (l : List (Letter α)) : List (Letter α) :=
  (List.range (weights l)).flatMap (generation · l)

theorem generation_nil (n : Nat) : generation n ([] : List (Letter α)) = [] := by
  induction n with
  | zero => rfl
  | succ n ih => exact ih

theorem generation_weights (l : List (Letter α)) (n : Nat) (h : weights l ≤ n) :
    generation n l = [] := by
  induction n generalizing l with
  | zero =>
      have hnext := weights_next l
      have hl : l.length = 0 := by omega
      exact List.length_eq_zero_iff.1 hl
  | succ n ih =>
      by_cases hl : l = []
      · rw [hl, generation_nil]
      · have hnext := weights_next l
        have hlength := List.length_pos_iff.2 hl
        exact ih (l.flatMap next) (by omega)

theorem flatMap_generation (l : List (Letter α)) {n : Nat} (h : weights l ≤ n) :
    (List.range n).flatMap (generation · l) = breadthFirst l := by
  induction n with
  | zero => rw [breadthFirst, Nat.le_zero.1 h]
  | succ n ih =>
      by_cases hn : weights l = n + 1
      · rw [breadthFirst, hn]
      · have hle : weights l ≤ n := by omega
        rw [List.range_succ, List.flatMap_append, ih hle]
        simp [generation_weights l n hle]

theorem breadthFirst_eq (l : List (Letter α)) :
    breadthFirst l = l ++ breadthFirst (l.flatMap next) := by
  by_cases hl : l = []
  · rw [hl]
    rfl
  · have hnext := weights_next l
    have hlength := List.length_pos_iff.2 hl
    obtain ⟨n, hn⟩ : ∃ n, weights l = n + 1 := ⟨weights l - 1, by omega⟩
    have hle : weights (l.flatMap next) ≤ n := by omega
    rw [breadthFirst, hn, List.range_succ_eq_map, List.flatMap_cons, List.flatMap_map,
      ← flatMap_generation _ hle]
    rfl

theorem breadthFirst_append (l m : List (Letter α)) :
    breadthFirst (l ++ m) = l ++ breadthFirst (m ++ l.flatMap next) := by
  -- The two lists change places, and what is read first makes them lighter.
  induction h : weights (l ++ m) using Nat.strongRecOn generalizing l m with
  | ind n ih =>
      by_cases hl : l = []
      · simp [hl]
      · have hlength := List.length_pos_iff.2 hl
        have hlighter : weights (m ++ l.flatMap next) < n := by
          have hnext := weights_next l
          rw [← h, weights_append, weights_append]
          omega
        rw [breadthFirst_eq, List.flatMap_append, List.append_assoc,
          ih _ hlighter m (l.flatMap next) rfl]

theorem breadthFirst_cons (x : Letter α) (l : List (Letter α)) :
    breadthFirst (x :: l) = x :: breadthFirst (l ++ x.next) := by
  have happend := breadthFirst_append [x] l
  rwa [List.flatMap_singleton] at happend

theorem length_breadthFirst (l : List (Letter α)) : (breadthFirst l).length = weights l := by
  induction h : weights l using Nat.strongRecOn generalizing l with
  | ind n ih =>
      by_cases hl : l = []
      · subst hl
        exact h
      · have hnext := weights_next l
        have hlength := List.length_pos_iff.2 hl
        rw [breadthFirst_eq, List.length_append, ih _ (by omega) (l.flatMap next) rfl]
        omega

end Letter

namespace Background

open Letter

variable {b : Background α}

/-- The letters that are read before the mailbox is empty, if nobody else posts. -/
def ahead (b : Background α) : List (Letter α) := breadthFirst b.mailbox.waiting

theorem length_ahead (b : Background α) : b.ahead.length = b.backlog := length_breadthFirst _

def after (b : Background α) (n : Nat) : Background α := b.play (List.replicate n .read)

theorem after_succ (b : Background α) (n : Nat) : b.after (n + 1) = (b.act .read).after n := rfl

theorem read_nil (h : b.mailbox.waiting = []) : b.act .read = b := by
  rw [act, iterate?_nil h]
  rfl

theorem act_read {x : Letter α} {rest : List (Letter α)} (h : b.mailbox.waiting = x :: rest) :
    b.act .read = { b with mailbox := { b.mailbox with waiting := rest } }.readLetter x := by
  rw [act, iterate?_cons h]
  rfl

theorem ahead_eq_nil : b.ahead = [] ↔ b.mailbox.waiting = [] := by
  rw [← List.length_eq_zero_iff, length_ahead, backlog]
  refine ⟨fun h => ?_, fun h => by rw [h]; rfl⟩
  have hnext := weights_next b.mailbox.waiting
  exact List.length_eq_zero_iff.1 (by omega)

theorem ahead_read (hb : b.Emptied) :
    b.ahead = (b.takes .read).toList ++ (b.act .read).ahead := by
  cases hwaiting : b.mailbox.waiting with
  | nil =>
      rw [read_nil hwaiting, takes, hwaiting]
      rfl
  | cons x rest =>
      have hopen : b.mailbox.closed = false := by
        cases hclosed : b.mailbox.closed with
        | false => rfl
        | true =>
            rw [hb hclosed] at hwaiting
            cases hwaiting
      have hmailbox := mailbox_act b (a := .read) (by simp)
      rw [Mailbox.postAll_eq, if_neg (by simp [hopen]), takes, sends, hwaiting] at hmailbox
      rw [ahead, ahead, hmailbox, hwaiting, takes, hwaiting, breadthFirst_cons]
      rfl

theorem ahead_after (hb : b.Emptied) (n : Nat) :
    b.taken (List.replicate n .read) = b.ahead.take n ∧ (b.after n).ahead = b.ahead.drop n := by
  induction n generalizing b with
  | zero => exact ⟨rfl, rfl⟩
  | succ n ih =>
      obtain ⟨_, -, -, hb'⟩ := flow_act hb .read
      obtain ⟨htaken, hahead⟩ := ih hb'
      have hread := ahead_read hb
      rw [List.replicate_succ, taken, htaken, after_succ, hahead]
      cases hx : b.takes .read with
      | none =>
          have hwaiting : b.mailbox.waiting = [] := List.head?_eq_none_iff.1 hx
          rw [read_nil hwaiting, ahead_eq_nil.2 hwaiting]
          simp
      | some x =>
          rw [hx] at hread
          rw [hread]
          exact ⟨rfl, rfl⟩

theorem dispatchUpTo_eq (hb : b.Emptied) (fuel : Nat) :
    dispatchUpTo fuel b = (min fuel b.ahead.length, b.after (min fuel b.ahead.length)) := by
  induction fuel generalizing b with
  | zero =>
      rw [Nat.zero_min]
      rfl
  | succ fuel ih =>
      obtain ⟨_, -, -, hb'⟩ := flow_act hb .read
      have hread := ahead_read hb
      rw [dispatchUpTo]
      cases hwaiting : b.mailbox.waiting with
      | nil =>
          rw [iterate?_nil hwaiting, ahead_eq_nil.2 hwaiting]
          rfl
      | cons x rest =>
          rw [takes, hwaiting] at hread
          rw [iterate?_cons hwaiting, ← act_read hwaiting]
          dsimp only
          rw [ih hb', hread, List.head?_cons, Option.toList_some, List.singleton_append,
            List.length_cons, Nat.add_min_add_right, after_succ]

/-- How many letters are read until the owner is content. -/
def readings (done : Background α → Bool) : Nat → Background α → Nat
  | 0, _ => 0
  | fuel + 1, b =>
      if done b then 0
      else match b.iterate? with
        | none => 0
        | some b => readings done fuel b + 1

theorem readUntil_eq (done : Background α → Bool) (fuel : Nat) (b : Background α) :
    readUntil done fuel b =
      (done (b.after (readings done fuel b)), b.after (readings done fuel b)) := by
  induction fuel generalizing b with
  | zero => rfl
  | succ fuel ih =>
      rw [readUntil, readings]
      by_cases hdone : done b = true
      · rw [if_pos hdone, if_pos hdone]
        exact Prod.ext hdone.symm rfl
      · rw [if_neg hdone, if_neg hdone]
        cases hwaiting : b.mailbox.waiting with
        | nil =>
            rw [iterate?_nil hwaiting]
            exact Prod.ext (Bool.eq_false_iff.2 hdone).symm rfl
        | cons x rest =>
            rw [iterate?_cons hwaiting, ← act_read hwaiting]
            exact ih (b.act .read)

theorem readings_spec (hb : b.Emptied) (done : Background α → Bool) (fuel : Nat) :
    readings done fuel b ≤ min fuel b.ahead.length ∧
      (∀ m < readings done fuel b, done (b.after m) = false) ∧
      (done (b.after (readings done fuel b)) = false →
        readings done fuel b = min fuel b.ahead.length) := by
  induction fuel generalizing b with
  | zero => exact ⟨Nat.zero_le _, nofun, fun _ => (Nat.zero_min _).symm⟩
  | succ fuel ih =>
      rw [readings]
      by_cases hdone : done b = true
      · rw [if_pos hdone]
        exact ⟨Nat.zero_le _, nofun, fun h => absurd (hdone.symm.trans h) nofun⟩
      · have hread := ahead_read hb
        rw [if_neg hdone]
        cases hwaiting : b.mailbox.waiting with
        | nil =>
            rw [iterate?_nil hwaiting, ahead_eq_nil.2 hwaiting]
            exact ⟨Nat.zero_le _, nofun, fun _ => rfl⟩
        | cons x rest =>
            obtain ⟨_, -, -, hb'⟩ := flow_act hb .read
            obtain ⟨hle, hleast, hall⟩ := ih hb'
            have hlength : b.ahead.length = (b.act .read).ahead.length + 1 := by
              rw [hread, takes, hwaiting]
              simp
            rw [iterate?_cons hwaiting, ← act_read hwaiting, hlength, Nat.add_min_add_right]
            refine ⟨Nat.succ_le_succ hle, fun m hm => ?_, fun h => congrArg (· + 1) (hall h)⟩
            cases m with
            | zero => exact Bool.eq_false_iff.2 hdone
            | succ m => exact hleast m (Nat.lt_of_succ_lt_succ hm)

def notes (b : Background α) : List α := b.calls.filterMap Call.note?

theorem calls_act (b : Background α) {a : Action α} (ha : a ≠ .read) :
    (b.act a).calls = b.calls := by
  cases a with
  | liftBarrier i => rfl
  | letGo e => rfl
  | _ => exact (edits_act b ha (by simp) (by simp)).calls.trans (calls_warned b _)

theorem notes_call (b : Background α) (c : Call α) :
    (b.record (.call c)).notes = b.notes ++ c.note?.toList := by
  rw [notes, calls_record_call, List.filterMap_append]
  cases h : c.note? <;> simp [notes, h]

theorem notes_readLetter (b : Background α) (l : Letter α) :
    (b.readLetter l).notes = b.notes ++ l.label?.toList := by
  cases l with
  | note n =>
      cases n with
      | mk label next => exact notes_call b (.note label)
  | progress job o t =>
      have hcancel (c : Background α) (p : Prop) [Decidable p] (token : Nat) :
          (if p then c.cancelToken token else c).notes = c.notes := by
        split <;> rfl
      rw [readLetter, readProgress]
      split
      · split
        · exact (List.append_nil _).symm
        · exact (hcancel _ _ _).trans (notes_call _ _)
      · exact (List.append_nil _).symm
  | counted job out =>
      rw [readLetter, readCounted_eq]
      split
      · exact (List.append_nil _).symm
      · refine (notes_call _ _).trans ?_
        rw [notes, calls_log]
        rfl
  | errandDone errand first second =>
      rw [readLetter, readErrand]
      split
      · exact (List.append_nil _).symm
      · exact notes_call _ _

theorem notes_act (b : Background α) (a : Action α) :
    (b.act a).notes = b.notes ++ ((b.takes a).bind Letter.label?).toList := by
  by_cases ha : a = .read
  · subst ha
    cases hwaiting : b.mailbox.waiting with
    | nil =>
        rw [read_nil hwaiting, takes, hwaiting]
        exact (List.append_nil _).symm
    | cons x rest =>
        rw [act_read hwaiting, notes_readLetter, takes, hwaiting]
        rfl
  · have htakes : b.takes a = none := by
      cases a with
      | read => exact absurd rfl ha
      | _ => rfl
    rw [notes, calls_act b ha, htakes]
    exact (List.append_nil _).symm

theorem notes_play (b : Background α) (script : List (Action α)) :
    (b.play script).notes = b.notes ++ (b.taken script).filterMap Letter.label? := by
  induction script generalizing b with
  | nil => exact (List.append_nil _).symm
  | cons a script ih =>
      have hrest := ih (b.act a)
      rw [notes_act, List.append_assoc] at hrest
      refine hrest.trans ?_
      rw [taken, List.filterMap_append]
      cases b.takes a with
      | none => rfl
      | some x => cases hx : x.label? <;> simp [hx]

/-- A single action, or reading for a while: until nothing is left, or until the owner is content
while there is time for so many letters. -/
inductive Turn (α : Type)
  | act (a : Action α)
  | dispatch
  | readUntil (done : Background α → Bool) (time : Nat)

def turn (b : Background α) : Turn α → Background α
  | .act a => b.act a
  | .dispatch => b.dispatch.2
  | .readUntil done time => (readUntil done time b).2

def actions (b : Background α) : Turn α → List (Action α)
  | .act a => [a]
  | .dispatch => List.replicate b.dispatch.1 .read
  | .readUntil done time => List.replicate (readings done time b) .read

def takeTurns (b : Background α) (turns : List (Turn α)) : Background α := turns.foldl turn b

def scriptOf (b : Background α) : List (Turn α) → List (Action α)
  | [] => []
  | t :: turns => b.actions t ++ (b.turn t).scriptOf turns

theorem turn_eq (hb : b.Emptied) (t : Turn α) : b.turn t = b.play (b.actions t) := by
  cases t with
  | act a => rfl
  | dispatch =>
      rw [turn, actions, dispatch, dispatchUpTo_eq hb]
      rfl
  | readUntil done time =>
      rw [turn, readUntil_eq]
      rfl

theorem takeTurns_eq (hb : b.Emptied) (turns : List (Turn α)) :
    b.takeTurns turns = b.play (b.scriptOf turns) := by
  induction turns generalizing b with
  | nil => rfl
  | cons t turns ih =>
      have hturn := turn_eq hb t
      obtain ⟨_, -, -, hb'⟩ := flow_play hb (b.actions t)
      rw [← hturn] at hb'
      rw [scriptOf, play_append, ← hturn]
      exact ih hb'

/-- What was taken is what was posted first, in the order in which it was posted; the rest waits, unless
the mailbox has been closed. -/
structure InOrder (b : Background α) (script : List (Action α)) : Prop where
  taken : b.taken script <+: b.posted script
  heard : (b.play script).notes = (b.taken script).filterMap Letter.label?
  waiting : (b.play script).mailbox.closed = false →
    b.taken script ++ (b.play script).mailbox.waiting = b.posted script
  pending : (b.play script).mailbox.closed = false →
    (b.taken script).length + (b.play script).mailbox.waiting.length = (b.posted script).length

/-- What reading for a while comes to. -/
structure Drains (b : Background α) : Prop where
  dispatch : b.dispatch = (b.ahead.length, b.after b.ahead.length)
  emptied : b.dispatch.2.mailbox.waiting = []
  order : ∀ n, b.taken (List.replicate n .read) = b.ahead.take n
  least : ∀ done, ∃ n ≤ b.ahead.length,
    b.runUntil done true = (done (b.after n), b.after n) ∧
      (∀ m < n, done (b.after m) = false) ∧ (done (b.after n) = false → n = b.ahead.length)
  content : ∀ done anyTime, done b = true → b.runUntil done anyTime = (true, b)
  late : ∀ done, b.runUntil done false = (done b, b)

theorem inOrder (script : List (Action α)) : ({} : Background α).InOrder script := by
  obtain ⟨lost, hflow, hkept, -⟩ := flow_play (b := ({} : Background α)) (fun _ => rfl) script
  have hposted : ({} : Background α).posted script = ({} : Background α).taken script ++
      (lost ++ (({} : Background α).play script).mailbox.waiting) := by
    rw [← List.append_assoc, ← hflow]
    rfl
  have hwaiting (h : (({} : Background α).play script).mailbox.closed = false) :
      ({} : Background α).taken script ++ (({} : Background α).play script).mailbox.waiting =
        ({} : Background α).posted script := by
    rw [hposted, hkept h, List.nil_append]
  refine ⟨hposted ▸ List.prefix_append _ _, notes_play {} script, hwaiting, fun h => ?_⟩
  rw [← hwaiting h, List.length_append]

theorem drains (hb : b.Emptied) : b.Drains where
  dispatch := by
    rw [dispatch, dispatchUpTo_eq hb, ← length_ahead, Nat.min_self]
  emptied := by
    rw [dispatch, dispatchUpTo_eq hb, ← length_ahead, Nat.min_self, ← ahead_eq_nil,
      (ahead_after hb _).2, List.drop_length]
  order n := (ahead_after hb n).1
  least done := by
    have hmin : min b.backlog b.ahead.length = b.ahead.length := by rw [length_ahead, Nat.min_self]
    obtain ⟨hle, hleast, hall⟩ := readings_spec hb done b.backlog
    rw [hmin] at hle hall
    exact ⟨_, hle, readUntil_eq done b.backlog b, hleast, hall⟩
  content done anyTime h := by
    rw [runUntil]
    generalize (if anyTime then b.backlog else 0) = fuel
    cases fuel with
    | zero => exact Prod.ext h rfl
    | succ fuel => exact if_pos h
  late _ := rfl

/-- Whatever is done, letters are taken in the order in which they were posted, each once; reading
all takes generation after generation; and a mailbox that was closed is done with. -/
theorem mailbox_fifo (turns : List (Turn α)) :
    let o : Background α := {}
    let b := o.takeTurns turns
    b = o.play (o.scriptOf turns) ∧
    (∀ s t, o.scriptOf turns = s ++ t → o.InOrder s) ∧
    b.Drains ∧
    (b.mailbox.closed = true → ∀ more : List (Action α), b.taken more = [] ∧ b.posted more = [] ∧
      (b.play more).notes = b.notes ∧ (b.play more).mailbox.accepts = false) := by
  intro o b
  have ho : ({} : Background α).Emptied := fun _ => rfl
  have hplay : b = o.play (o.scriptOf turns) := takeTurns_eq ho turns
  have hb : b.Emptied := emptied ⟨_, hplay.symm⟩
  refine ⟨hplay, fun s _ _ => inOrder s, drains hb, fun hclosed more => ?_⟩
  obtain ⟨hsame, htaken, hposted⟩ := play_closed hb hclosed more
  refine ⟨htaken, hposted, ?_, ?_⟩
  · rw [notes_play, htaken]
    exact List.append_nil _
  · rw [hsame, Mailbox.accepts, hclosed]
    rfl

def sampleTurns : List (Turn Nat) :=
  [.act (.postNote (.mk 0 [.mk 2 [.mk 4 []], .mk 3 []])), .act (.postNote (.mk 1 [])),
    .readUntil (fun b => decide (2 ≤ b.notes.length)) 9, .dispatch, .act .closeMailbox,
    .act (.postNote (.mk 5 [])), .dispatch]

theorem mailbox_fifo_sample :
    let o : Background Nat := {}
    (o.takeTurns (sampleTurns.take 3)).notes = [0, 1] ∧
    (o.takeTurns sampleTurns).notes = [0, 1, 2, 3, 4] ∧
    o.InOrder ((o.scriptOf sampleTurns).take 6) ∧ (o.takeTurns sampleTurns).Drains ∧
    (o.takeTurns sampleTurns).mailbox.closed = true ∧
    ((o.takeTurns sampleTurns).play [.postNote (.mk 6 []), .read]).notes =
      (o.takeTurns sampleTurns).notes := by
  intro o
  obtain ⟨-, horder, hdrains, hlate⟩ := mailbox_fifo sampleTurns
  have hclosed : (o.takeTurns sampleTurns).mailbox.closed = true := by decide +kernel
  exact ⟨by decide +kernel, by decide +kernel,
    horder _ _ (List.take_append_drop 6 (o.scriptOf sampleTurns)).symm, hdrains, hclosed,
    (hlate hclosed _).2.2.1⟩

end Background

end TreeTally
