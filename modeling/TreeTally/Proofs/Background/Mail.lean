import TreeTally.Proofs.Background.JobStep

namespace TreeTally

variable {α : Type}

def Letter.next : Letter α → List (Letter α)
  | note (.mk _ next) => next.map note
  | progress _ _ _ | counted _ _ | errandDone _ _ _ => []

def Signal.letter? (job : Nat) (observer : Option Nat) : Signal → Option (Letter α)
  | .event (.progress t) => observer.map fun o => .progress job o t
  | .event _ | .log _ => none

namespace Mailbox

theorem postAll_eq (m : Mailbox α) (l : List α) :
    m.postAll l = if m.closed then m else { m with waiting := m.waiting ++ l } := by
  induction l generalizing m with
  | nil => simp [postAll]
  | cons a l ih =>
      have hcons : m.postAll (a :: l) = (m.post a).postAll l := rfl
      rw [hcons, ih, post]
      cases h : m.closed <;> simp [h]

end Mailbox

namespace Background

variable {b b' : Background α}

def letterOf (b : Background α) : Work → Option (Letter α)
  | .count job observer _ w =>
      match w.finished? with
      | some (.outcome o) => some (.counted job o)
      | some .clockOverrun => none
      | none => b.jobs[job]?.bind fun j =>
          (w.step j.plan (b.isCancelled j.token)).2.bind (·.letter? job observer)
  | .errand _ none => none
  | .errand errand (some first) =>
      b.errands[errand]?.map fun e => .errandDone errand first (b.isCancelled e.token)

def sends (b : Background α) : Action α → List (Letter α)
  | .postNote n => [.note n]
  | .move l k =>
      if (b.moveAt l k).isSome then ((b.lane l)[k]?.bind b.letterOf).toList else []
  | .read => (b.mailbox.waiting.head?.map Letter.next).getD []
  | _ => []

def takes (b : Background α) : Action α → Option (Letter α)
  | .read => b.mailbox.waiting.head?
  | _ => none

def sentWhere (b : Background α) (p : Background α → Action α → Bool) :
    List (Action α) → List (Letter α)
  | [] => []
  | a :: script => (if p b a then b.sends a else []) ++ (b.act a).sentWhere p script

/-- The letters that were posted during a script: those sent while the mailbox was open. -/
def posted (b : Background α) : List (Action α) → List (Letter α) :=
  b.sentWhere fun c _ => c.mailbox.accepts

def refused (b : Background α) : List (Action α) → List (Letter α) :=
  b.sentWhere fun c _ => !c.mailbox.accepts

def taken (b : Background α) : List (Action α) → List (Letter α)
  | [] => []
  | a :: script => (b.takes a).toList ++ (b.act a).taken script

theorem mailbox_setLane (b : Background α) (works : List Work) (l : Lane) :
    (b.setLane works l).mailbox = b.mailbox := by cases l <;> rfl

theorem mailbox_postResult (b : Background α) (l : Letter α) :
    (b.postResult l).mailbox = b.mailbox.post l := by
  rw [postResult]
  split
  · rfl
  · rename_i h
    have hclosed : b.mailbox.closed = true := by simpa [Mailbox.accepts] using h
    rw [Mailbox.post, hclosed]
    rfl

theorem mailbox_cancel (b : Background α) (job : Nat) : (b.cancel job).mailbox = b.mailbox := by
  rw [cancel]
  split
  · rfl
  · dsimp only
    split <;> rfl

theorem mailbox_release (b : Background α) (job : Nat) : (b.release job).mailbox = b.mailbox := by
  rw [release]
  split
  · rfl
  split
  · exact mailbox_cancel _ job
  · rfl

theorem mailbox_create (b : Background α) (spec : JobSpec) :
    ((b.create spec).toOption.getD b).mailbox = b.mailbox := by
  rw [create]
  split <;> rfl

theorem mailbox_run (b : Background α) (job : Nat) :
    ((b.run job).toOption.getD b).mailbox = b.mailbox := by
  rw [run]
  split
  · rfl
  split
  · rfl
  · exact mailbox_setLane _ _ _

theorem mailbox_submit (b : Background α) (l : Lane) (label : α) (held : Bool)
    (token : Option Nat) : (b.submit l label held token).mailbox = b.mailbox := by
  cases token <;> exact mailbox_setLane _ _ l

theorem mailbox_hear (b : Background α) (job : Nat) (j : Job) (o : Option Nat) (seen : Nat)
    (s : Signal) :
    (b.hear job j o seen s).1.mailbox = b.mailbox.postAll (s.letter? job o).toList := by
  have hcancel (c : Background α) (p : Prop) [Decidable p] :
      (if p then c.cancelToken j.token else c).mailbox = c.mailbox := by
    split <;> rfl
  cases s with
  | log m => rfl
  | event e =>
      cases e with
      | progress t => cases o <;> rfl
      | _ => exact hcancel _ _

theorem mailbox_moveWork {work : Work} {left : Option Work}
    (h : b.moveWork work = some (b', left)) :
    b'.mailbox = b.mailbox.postAll (b.letterOf work).toList := by
  cases work with
  | count job o seen w =>
      obtain ⟨j, hj, ⟨out, hfin, rfl, -⟩ | ⟨hfin, rfl, -⟩ | ⟨hfin, w', s, hs, hmove⟩⟩ :=
        moveWork_count h
      · rw [letterOf, hfin]
        exact mailbox_postResult b _
      · rw [letterOf, hfin]
        rfl
      · rw [letterOf, hfin, hj, Option.bind_some, hs]
        cases s with
        | none => exact congrArg mailbox hmove.1
        | some s => exact (congrArg mailbox hmove.1).trans (mailbox_hear b job j o seen s)
  | errand errand first =>
      obtain ⟨e, he, hmove⟩ := Option.bind_eq_some_iff.1 h
      cases first with
      | none =>
          obtain ⟨rfl, -⟩ := Prod.mk.inj (Option.some.inj hmove)
          rfl
      | some first =>
          rw [moveErrand] at hmove
          split at hmove
          · cases hmove
          · obtain ⟨rfl, -⟩ := Prod.mk.inj (Option.some.inj hmove)
            rw [letterOf, he]
            exact mailbox_postResult b _

theorem mailbox_moveAt {l : Lane} {k : Nat} (h : b.moveAt l k = some b') :
    b'.mailbox = b.mailbox.postAll ((b.lane l)[k]?.bind b.letterOf).toList := by
  obtain ⟨work, hwork, hmove⟩ := Option.bind_eq_some_iff.1 h
  obtain ⟨⟨c, left⟩, hc, rfl⟩ := Option.map_eq_some_iff.1 hmove
  rw [hwork, mailbox_setLane]
  exact mailbox_moveWork hc

theorem mailbox_readLetter (b : Background α) (l : Letter α) :
    (b.readLetter l).mailbox = b.mailbox.postAll l.next := by
  cases l with
  | note n => cases n; rfl
  | progress job o t =>
      rw [readLetter, readProgress]
      split
      · split
        · rfl
        · dsimp only
          split <;> rfl
      · rfl
  | counted job out =>
      rw [readLetter, readCounted_eq]
      split <;> rfl
  | errandDone errand first second =>
      rw [readLetter, readErrand]
      split <;> rfl

theorem iterate?_nil (h : b.mailbox.waiting = []) : b.iterate? = none := by
  simp [iterate?, Mailbox.take?, h]

theorem iterate?_cons {l : Letter α} {rest : List (Letter α)} (h : b.mailbox.waiting = l :: rest) :
    b.iterate? = some
      ({ b with mailbox := { b.mailbox with waiting := rest } }.readLetter l) := by
  simp [iterate?, Mailbox.take?, h]

theorem mailbox_act (b : Background α) {a : Action α} (ha : a ≠ .closeMailbox) :
    (b.act a).mailbox =
      { b.mailbox with
        waiting := b.mailbox.waiting.drop (b.takes a).toList.length }.postAll (b.sends a) := by
  cases a with
  | closeMailbox => exact absurd rfl ha
  | create spec => exact mailbox_create b spec
  | run job => exact mailbox_run b job
  | cancel job => exact mailbox_cancel b job
  | submit l label held token => exact mailbox_submit b l label held token
  | release job => exact mailbox_release b job
  | move l k =>
      rw [act, sends]
      cases h : b.moveAt l k with
      | none => rfl
      | some c => exact mailbox_moveAt h
  | read =>
      rw [act, sends, takes]
      cases h : b.mailbox.waiting with
      | nil =>
          rw [iterate?_nil h]
          exact congrArg (fun w => { b.mailbox with waiting := w }) h
      | cons l rest =>
          rw [iterate?_cons h]
          exact mailbox_readLetter _ l
  | _ => rfl

def Emptied (b : Background α) : Prop := b.mailbox.closed = true → b.mailbox.waiting = []

theorem takes_append_drop (b : Background α) (a : Action α) :
    (b.takes a).toList ++ b.mailbox.waiting.drop (b.takes a).toList.length = b.mailbox.waiting := by
  cases a with
  | read =>
      rw [takes]
      cases b.mailbox.waiting <;> rfl
  | _ => rfl

theorem act_closed (hb : b.Emptied) (hclosed : b.mailbox.closed = true) (a : Action α) :
    (b.act a).mailbox = b.mailbox ∧ b.takes a = none := by
  have hwaiting : b.mailbox.waiting = [] := hb hclosed
  have htakes : b.takes a = none := by
    cases a with
    | read => rw [takes, hwaiting]; rfl
    | _ => rfl
  refine ⟨?_, htakes⟩
  by_cases ha : a = .closeMailbox
  · subst ha
    show (⟨[], true⟩ : Mailbox (Letter α)) = b.mailbox
    rw [← hwaiting, ← hclosed]
  · rw [mailbox_act b ha, htakes, Mailbox.postAll_eq, if_pos hclosed]
    rfl

theorem play_closed (hb : b.Emptied) (hclosed : b.mailbox.closed = true)
    (script : List (Action α)) :
    (b.play script).mailbox = b.mailbox ∧ b.taken script = [] ∧ b.posted script = [] := by
  induction script generalizing b with
  | nil => exact ⟨rfl, rfl, rfl⟩
  | cons a script ih =>
      obtain ⟨hsame, htakes⟩ := act_closed hb hclosed a
      have hb' : (b.act a).Emptied := fun _ => by rw [hsame]; exact hb hclosed
      obtain ⟨hmailbox, htaken, hposted⟩ := ih hb' (by rw [hsame, hclosed])
      refine ⟨hmailbox.trans hsame, ?_, ?_⟩
      · rw [taken, htakes, htaken]
        rfl
      · rw [posted, sentWhere, Mailbox.accepts, hclosed]
        exact hposted

theorem flow_act (hb : b.Emptied) (a : Action α) : ∃ lost,
    b.mailbox.waiting ++ (if b.mailbox.accepts then b.sends a else []) =
        (b.takes a).toList ++ lost ++ (b.act a).mailbox.waiting ∧
      ((b.act a).mailbox.closed = false → lost = []) ∧ (b.act a).Emptied := by
  cases hclosed : b.mailbox.closed with
  | true =>
      obtain ⟨hsame, htakes⟩ := act_closed hb hclosed a
      refine ⟨[], ?_, fun _ => rfl, fun _ => by rw [hsame]; exact hb hclosed⟩
      rw [Mailbox.accepts, hclosed, htakes, hsame]
      exact List.append_nil _
  | false =>
      by_cases ha : a = .closeMailbox
      · subst ha
        refine ⟨b.mailbox.waiting, ?_, by simp [act, closeMailbox, Mailbox.close], fun _ => rfl⟩
        simp [sends, takes, act, closeMailbox, Mailbox.close]
      · have hmailbox := mailbox_act b ha
        rw [Mailbox.postAll_eq, if_neg (by simp [hclosed])] at hmailbox
        have haccepts : b.mailbox.accepts = true := by simp [Mailbox.accepts, hclosed]
        have htakes := takes_append_drop b a
        refine ⟨[], ?_, fun _ => rfl, fun h => ?_⟩
        · rw [if_pos haccepts, hmailbox, List.append_nil, ← List.append_assoc, htakes]
        · rw [hmailbox, hclosed] at h
          cases h

/-- What waited at first and what was posted since then has been taken in this order, is waiting
still, or was lost when the mailbox was closed. -/
theorem flow_play (hb : b.Emptied) (script : List (Action α)) : ∃ lost,
    b.mailbox.waiting ++ b.posted script =
        b.taken script ++ lost ++ (b.play script).mailbox.waiting ∧
      ((b.play script).mailbox.closed = false → lost = []) ∧ (b.play script).Emptied := by
  induction script generalizing b with
  | nil => exact ⟨[], by simp [posted, sentWhere, taken, play], fun _ => rfl, hb⟩
  | cons a script ih =>
      obtain ⟨lost, hflow, hkept, hb'⟩ := flow_act hb a
      obtain ⟨lost', hflow', hkept', hb''⟩ := ih hb'
      have hplay : b.play (a :: script) = (b.act a).play script := rfl
      -- Once letters are lost no more are taken.
      have hswap : lost ++ (b.act a).taken script = (b.act a).taken script ++ lost := by
        cases hclosed : (b.act a).mailbox.closed with
        | true => rw [(play_closed hb' hclosed script).2.1, List.append_nil, List.nil_append]
        | false => rw [hkept hclosed, List.append_nil, List.nil_append]
      refine ⟨lost ++ lost', ?_, fun hopen => ?_, hb''⟩
      · calc b.mailbox.waiting ++ b.posted (a :: script)
            = (b.takes a).toList ++ lost ++
                ((b.act a).mailbox.waiting ++ (b.act a).posted script) := by
              rw [posted, sentWhere, ← List.append_assoc, hflow, List.append_assoc]
              rfl
          _ = (b.takes a).toList ++ (lost ++ (b.act a).taken script) ++ lost' ++
                ((b.act a).play script).mailbox.waiting := by
              rw [hflow']
              simp only [List.append_assoc]
          _ = b.taken (a :: script) ++ (lost ++ lost') ++ (b.play (a :: script)).mailbox.waiting := by
              rw [hswap, taken, hplay]
              simp only [List.append_assoc]
      · have hopen' : (b.act a).mailbox.closed = false := by
          cases hclosed : (b.act a).mailbox.closed with
          | false => rfl
          | true =>
              rw [hplay, (play_closed hb' hclosed script).1, hclosed] at hopen
              cases hopen
        rw [hkept hopen', hkept' hopen]
        rfl

theorem emptied (h : ({} : Background α).Reaches b) : b.Emptied :=
  h.preserves (fun _ a hc => (flow_act hc a).choose_spec.2.2) nofun

end Background

end TreeTally
