import Mathlib.Logic.Relation
import TreeTally.Proofs.Background.Mail

namespace TreeTally

variable {α : Type}

inductive Charge
  | job (i : Nat)
  | errand (e : Nat)
  deriving DecidableEq

def Letter.ended? : Letter α → Option Charge
  | counted i _ => some (.job i)
  | errandDone e _ _ => some (.errand e)
  | note _ | progress _ _ _ => none

def Letter.isEnd (x : Letter α) : Bool := x.ended?.isSome

namespace Background

variable {b c : Background α}

inductive Edit : Background α → Background α → Prop
  | log {b : Background α} (m : LogMessage) (hm : m.level ≠ .warn) : Edit b (b.log m)
  | tokens {b : Background α} (tokens : List Bool) : Edit b { b with tokens }
  | observers {b : Background α} (observers : List (Observer α)) : Edit b { b with observers }
  | mail {b : Background α} (mailbox : Mailbox (Letter α)) : Edit b { b with mailbox }
  | lane {b : Background α} (works : List Work) (l : Lane) : Edit b (b.setLane works l)
  | job {b : Background α} (j : Job) (hj : j.delivered = false) :
      Edit b { b with jobs := b.jobs ++ [j] }
  | errand {b : Background α} (e : Errand α) (he : e.delivered = false) :
      Edit b { b with errands := b.errands ++ [e] }
  | change {b : Background α} (job : Nat) (f : Job → Job)
      (hf : ∀ j, (f j).toJobSpec = j.toJobSpec ∧ (f j).token = j.token ∧
        (f j).delivered = j.delivered) : Edit b (b.modifyJob job f)

def Edits : Background α → Background α → Prop := Relation.ReflTransGen Edit

theorem Edit.edits (h : b.Edit c) : b.Edits c := .single h

theorem edits_cancel (b : Background α) (job : Nat) : b.Edits (b.cancel job) := by
  rw [cancel]
  split
  · exact .refl
  · rename_i j _
    dsimp only
    split
    · exact (Edit.tokens _).edits
    · exact (Edit.log (.cancelling j.roots.length) (by simp [LogMessage.level])).edits.tail (.tokens _)

theorem edits_post (b : Background α) (l : Letter α) : b.Edits (b.post l) := (Edit.mail _).edits

theorem message_ne_warn {w v : Walk} {P : Plan} {cancelled : Bool} {m : LogMessage}
    (h : w.step P cancelled = (v, some (.log m))) : m.level ≠ .warn := by
  rw [Walk.step] at h
  split at h
  · cases h
  · rw [Walk.proceed] at h
    split at h
    case h_4 =>
      rw [Walk.inspect] at h
      split at h
      · cases h
        nofun
      split at h <;> cases h
    case h_7 answer _ =>
      cases answer with
      | ok entries => cases h
      | error f =>
          rw [Walk.opened] at h
          split at h
          · cases h
          · cases h
            nofun
    case h_8 =>
      rw [Walk.pull] at h
      split at h <;> cases h
    case h_10 =>
      cases h
      nofun
    case h_11 =>
      rw [Walk.leave] at h
      split at h
      · cases h
      · rename_i report throttle _
        have hs : (if report then some (Signal.event (.progress w.tally)) else none) =
            some (.log m) := congrArg Prod.snd h
        cases report <;> cases hs
    all_goals cases h

theorem edits_hear (b : Background α) (job : Nat) (j : Job) (o : Option Nat) (seen : Nat)
    {s : Signal} (hs : ∀ m, s = .log m → m.level ≠ .warn) :
    b.Edits (b.hear job j o seen s).1 := by
  have hevent (e : Event) (p : Prop) [Decidable p] :
      b.Edits (if p then (b.modifyJob job fun j => { j with heard := e :: j.heard }).cancelToken j.token
        else b.modifyJob job fun j => { j with heard := e :: j.heard }) := by
    have hchange : b.Edit (b.modifyJob job fun j => { j with heard := e :: j.heard }) :=
      .change job _ fun _ => ⟨rfl, rfl, rfl⟩
    split
    · exact hchange.edits.tail (.tokens _)
    · exact hchange.edits
  cases s with
  | log m => exact (Edit.log m (hs m rfl)).edits
  | event e =>
      cases e with
      | progress t =>
          cases o with
          | none => exact .refl
          | some o => exact edits_post b _
      | _ => exact hevent _ _

def warned (b : Background α) (a : Action α) : Background α :=
  if !b.mailbox.accepts && (b.sends a).any Letter.isEnd then b.log .resultDropped else b

theorem edits_postResult (b : Background α) (l : Letter α) :
    (if b.mailbox.accepts then b else b.log .resultDropped).Edits (b.postResult l) := by
  rw [postResult]
  split
  · exact edits_post b l
  · exact .refl

theorem edits_moveWork {work : Work} {left : Option Work} (h : b.moveWork work = some (c, left)) :
    (if !b.mailbox.accepts && (b.letterOf work).toList.any Letter.isEnd then b.log .resultDropped
      else b).Edits c := by
  cases work with
  | count job o seen w =>
      obtain ⟨j, hj, ⟨out, hfin, rfl, -⟩ | ⟨hfin, rfl, -⟩ | ⟨hfin, w', s, hs, hmove⟩⟩ :=
        moveWork_count h
      · have hpost := edits_postResult b (.counted job out)
        rw [letterOf, hfin]
        cases hm : b.mailbox.accepts <;> simpa [hm, Letter.isEnd, Letter.ended?] using hpost
      · rw [letterOf, hfin]
        simp only [Option.toList_none, List.any_nil, Bool.and_false, Bool.false_eq_true, if_false]
        exact .refl
      · have hno : ((b.letterOf (.count job o seen w)).toList.any Letter.isEnd) = false := by
          rw [letterOf, hfin, hj, Option.bind_some, hs]
          rcases s with _ | e | m
          · rfl
          · cases e <;> cases o <;> rfl
          · rfl
        rw [hno, Bool.and_false, if_neg Bool.false_ne_true]
        cases s with
        | none => exact hmove.1 ▸ .refl
        | some s =>
            have hquiet (m : LogMessage) (hm : s = .log m) : m.level ≠ .warn := by
              subst hm
              exact message_ne_warn hs
            exact hmove.1 ▸ edits_hear b job j o seen hquiet
  | errand e first =>
      obtain ⟨x, hx, hmove⟩ := Option.bind_eq_some_iff.1 h
      cases first with
      | none =>
          obtain ⟨rfl, -⟩ := Prod.mk.inj (Option.some.inj hmove)
          simp only [letterOf, Option.toList_none, List.any_nil, Bool.and_false, Bool.false_eq_true,
            if_false]
          exact .refl
      | some first =>
          rw [moveErrand] at hmove
          split at hmove
          · cases hmove
          · obtain ⟨rfl, -⟩ := Prod.mk.inj (Option.some.inj hmove)
            have hpost := edits_postResult b (.errandDone e first (b.isCancelled x.token))
            rw [letterOf, hx]
            cases hm : b.mailbox.accepts <;> simpa [hm, Letter.isEnd, Letter.ended?] using hpost

theorem edits_create (b : Background α) (spec : JobSpec) : b.Edits (b.act (.create spec)) := by
  rw [act, create]
  split
  · exact .refl
  · let j : Job := { toJobSpec := spec, token := b.tokens.length }
    have htoken : b.Edit b.newToken := .tokens _
    have hjob : b.newToken.Edit { b.newToken with jobs := b.jobs ++ [j] } := .job j rfl
    exact htoken.edits.tail hjob

theorem edits_run (b : Background α) (job : Nat) : b.Edits (b.act (.run job)) := by
  rw [act, run]
  split
  · exact .refl
  split
  · exact .refl
  · rename_i j _ _
    have hrun : b.Edit (b.modifyJob job fun j => { j with state := .running }) :=
      .change job _ fun _ => ⟨rfl, rfl, rfl⟩
    exact (hrun.edits.tail (.log (.starting j.roots.length) (by simp [LogMessage.level]))).tail (.lane _ _)

theorem edits_submit (b : Background α) (l : Lane) (label : α) (held : Bool) (token : Option Nat) :
    b.Edits (b.submit l label held token) := by
  cases token with
  | none => exact ((Edit.tokens _).edits.tail (.errand _ rfl)).tail (.lane _ l)
  | some t => exact (Edit.errand _ rfl).edits.tail (.lane _ l)

theorem edits_release (b : Background α) (job : Nat) : b.Edits (b.release job) := by
  rw [release]
  split
  · exact .refl
  split
  · exact (Edit.log .releasedWhileRunning (by simp [LogMessage.level])).edits.trans (edits_cancel _ job)
  · exact .refl

theorem warned_of_quiet {a : Action α} (h : (b.sends a).any Letter.isEnd = false) : b.warned a = b := by
  rw [warned, h, Bool.and_false, if_neg Bool.false_ne_true]

theorem edits_move (b : Background α) (l : Lane) (k : Nat) :
    (b.warned (.move l k)).Edits (b.act (.move l k)) := by
  rw [act]
  cases h : b.moveAt l k with
  | none =>
      rw [warned_of_quiet (by rw [sends, h]; rfl)]
      exact .refl
  | some c =>
      obtain ⟨work, hwork, hmove⟩ := Option.bind_eq_some_iff.1 h
      obtain ⟨⟨d, left⟩, hd, rfl⟩ := Option.map_eq_some_iff.1 hmove
      have hedits := edits_moveWork hd
      rw [warned, sends, h, hwork]
      exact hedits.tail (.lane _ l)

theorem edits_act (b : Background α) {a : Action α} (hread : a ≠ .read)
    (hlift : ∀ i, a ≠ .liftBarrier i) (hgo : ∀ e, a ≠ .letGo e) : (b.warned a).Edits (b.act a) := by
  have hcalm {a : Action α} {c : Background α} (h : (b.sends a).any Letter.isEnd = false)
      (hedits : b.Edits c) : (b.warned a).Edits c := (warned_of_quiet h).symm ▸ hedits
  cases a with
  | read => exact absurd rfl hread
  | liftBarrier i => exact absurd rfl (hlift i)
  | letGo e => exact absurd rfl (hgo e)
  | create spec => exact hcalm rfl (edits_create b spec)
  | observe job label cancelAt =>
      exact hcalm rfl ((Edit.observers _).edits.tail (.change job _ fun _ => ⟨rfl, rfl, rfl⟩))
  | run job => exact hcalm rfl (edits_run b job)
  | cancel job => exact hcalm rfl (edits_cancel b job)
  | cancelToken t => exact hcalm rfl (Edit.tokens _).edits
  | submit l label held token => exact hcalm rfl (edits_submit b l label held token)
  | postNote n => exact hcalm rfl (edits_post b _)
  | closeMailbox => exact hcalm rfl (Edit.mail _).edits
  | release job => exact hcalm rfl (edits_release b job)
  | move l k => exact edits_move b l k

theorem Edits.calls (h : b.Edits c) : c.calls = b.calls := by
  induction h with
  | refl => rfl
  | tail _ hlast ih =>
      refine Eq.trans ?_ ih
      cases hlast with
      | log m => exact calls_log _ m
      | lane works l => cases l <;> rfl
      | _ => rfl

theorem calls_warned (b : Background α) (a : Action α) : (b.warned a).calls = b.calls := by
  rw [warned]
  split
  · exact calls_log b _
  · rfl

end Background

end TreeTally
