import Mathlib.Algebra.BigOperators.Fin
import TreeTally.Command.Run
import TreeTally.Proofs.Background.Desk
import TreeTally.Proofs.Background.JobStep
import TreeTally.Proofs.Walk.Ended

namespace TreeTally

theorem Walk.EndsIn.step_under {P : Plan} {m : Nat} {w : Walk} (h : EndsIn P m w)
    (hw : w.finished? = none) (stopped : Bool) :
    ∃ n, m = n + 1 ∧ EndsIn P n (w.step P stopped).1 := by
  obtain ⟨k, hk, -⟩ := h.step hw (Prod.ext rfl rfl)
  obtain ⟨n, rfl⟩ : ∃ n, m = n + 1 := ⟨m - 1, by omega⟩
  refine ⟨n, rfl, ?_⟩
  cases hr : stopped && w.stage.readsToken with
  | false =>
      have hsame : w.step P stopped = w.step P false := by
        rw [Walk.step, Walk.step, hr]
        rfl
      rw [hsame]
      exact h.after 1
  | true =>
      have hcancel : (w.step P stopped).1 = w.cancel := by rw [Walk.step, if_pos hr]
      refine ⟨.outcome (.error (.cancelled w.tally)), ?_, fun h => by cases h⟩
      rw [hcancel, advance_done rfl]
      rfl

/-- No event of the count cancels it or holds it up. -/
structure JobSpec.Free (task : JobSpec) : Prop where
  interrupt : task.interrupt = 0
  barrier : task.barrier.event = 0

namespace Command

open Background

variable {task : JobSpec} {stopped : Bool} {b c : Background Unit} {j : Job}

/-- The job of this task is alone, its token reads as given, and nothing that goes on can cancel it. -/
structure Calm (task : JobSpec) (stopped : Bool) (b : Background Unit) : Prop where
  job : ∃ j, b.jobs = [j] ∧ j.toJobSpec = task ∧ j.token = 0
  tokens : b.tokens = [stopped]
  opened : b.mailbox.closed = false
  observers : ∀ o ∈ b.observers, o.cancelAt = 0
  letters : ∀ n, .note n ∉ b.mailbox.waiting
  lane : b.idleLane = [] ∨ ∃ o seen w, b.idleLane = [.count 0 o seen w]

theorem Calm.isCancelled (h : Calm task stopped b) (t : Nat) :
    b.isCancelled t = (stopped && t == 0) := by
  rw [Background.isCancelled, h.tokens]
  rcases t with _ | t
  · exact (Bool.and_true _).symm
  · exact (Bool.and_false _).symm

/-- What the worker does between two turns: it posts little, and delivers nothing. -/
structure Worked (b c : Background Unit) : Prop where
  delivered : delivered c = delivered b
  posted : ∃ more, c.mailbox.waiting = b.mailbox.waiting ++ more ∧ more.length ≤ 1

theorem Worked.refl (b : Background Unit) : Worked b b := ⟨rfl, [], (List.append_nil _).symm, by simp⟩

theorem Calm.post (h : Calm task stopped b) {l : Letter Unit} (hl : ∀ n, l ≠ .note n) :
    Calm task stopped (b.post l) ∧ Worked b (b.post l) := by
  have hwaiting : (b.post l).mailbox.waiting = b.mailbox.waiting ++ [l] :=
    Mailbox.waiting_post l h.opened
  refine ⟨{ h with opened := ?_, letters := fun n hn => ?_ }, rfl, [l], hwaiting, Nat.le_refl 1⟩
  · show (b.mailbox.post l).closed = false
    rw [Mailbox.post, if_neg (by rw [h.opened]; exact Bool.false_ne_true)]
    exact h.opened
  · rw [hwaiting] at hn
    rcases List.mem_append.1 hn with hn | hn
    · exact h.letters n hn
    · exact hl n (List.mem_singleton.1 hn).symm

theorem Calm.postResult (h : Calm task stopped b) {l : Letter Unit} (hl : ∀ n, l ≠ .note n) :
    Calm task stopped (b.postResult l) ∧ Worked b (b.postResult l) ∧ l ∈ (b.postResult l).mailbox.waiting := by
  have heq : b.postResult l = b.post l := if_pos (by rw [Mailbox.accepts, h.opened]; rfl)
  obtain ⟨hcalm, hworked⟩ := h.post hl
  rw [heq]
  refine ⟨hcalm, hworked, ?_⟩
  show l ∈ (b.mailbox.post l).waiting
  rw [Mailbox.waiting_post l h.opened]
  exact List.mem_append_right _ (List.mem_singleton_self l)

theorem Calm.hear (h : Calm task stopped b) (hfree : task.Free) (hj : b.jobs = [j]) (o : Option Nat)
    (seen : Nat) (s : Signal) :
    Calm task stopped (b.hear 0 j o seen s).1 ∧ Worked b (b.hear 0 j o seen s).1 := by
  obtain ⟨j', hj', htask, htoken⟩ := h.job
  obtain rfl : j = j' := by simpa using hj.symm.trans hj'
  have hheard (e : Event) :
      let c := b.modifyJob 0 fun j => { j with heard := e :: j.heard }
      let d := if seen + 1 = j.interrupt then c.cancelToken j.token else c
      Calm task stopped d ∧ Worked b d := by
    intro c d
    have hd : d = c := if_neg (by rw [show j.interrupt = 0 from htask ▸ hfree.interrupt]; simp)
    have hjobs : c.jobs = [{ j with heard := e :: j.heard }] := by
      show b.jobs.modify 0 _ = _
      rw [hj]
      rfl
    rw [hd]
    refine ⟨{ h with job := ⟨_, hjobs, htask, htoken⟩ }, ?_, [], (List.append_nil _).symm, by simp⟩
    rw [Command.delivered, Command.delivered, hjobs, hj]
    rfl
  cases s with
  | log m => exact ⟨{ h with }, rfl, [], (List.append_nil _).symm, by simp⟩
  | event e =>
      cases e with
      | progress t =>
          cases o with
          | none => exact ⟨h, .refl b⟩
          | some o => exact h.post nofun
      | _ => exact hheard _

theorem Calm.move (h : Calm task stopped b) (hfree : task.Free) (hmove : b.moveWorker .idle = some c) :
    Calm task stopped c ∧ Worked b c ∧ ∃ o seen w, b.idleLane = [.count 0 o seen w] ∧
      ((∃ out, w.finished? = some (.outcome out) ∧ c.idleLane = [] ∧
          .counted 0 out ∈ c.mailbox.waiting) ∨
        w.finished? = some .clockOverrun ∨
        w.finished? = none ∧
          ∃ seen', c.idleLane = [.count 0 o seen' (w.step task.plan stopped).1]) := by
  rw [← moveAt_zero] at hmove
  obtain ⟨work, hwork, hmove⟩ := Option.bind_eq_some_iff.1 hmove
  obtain ⟨⟨d, left⟩, hd, rfl⟩ := Option.map_eq_some_iff.1 hmove
  have hlane : b.lane .idle = b.idleLane := rfl
  rw [hlane] at hwork ⊢
  rcases h.lane with hnil | ⟨o, seen, w, hw⟩
  · rw [hnil] at hwork
    cases hwork
  rw [hw] at hwork ⊢
  obtain rfl := Option.some.inj hwork
  obtain ⟨j, hj, hcases⟩ := moveWork_count hd
  obtain ⟨j', hjobs, htask, htoken⟩ := h.job
  obtain rfl : j' = j := by
    rw [hjobs] at hj
    exact Option.some.inj hj
  have hset (e : Background Unit) (works : List Work) (he : Calm task stopped e ∧ Worked b e)
      (hworks : works = [] ∨ ∃ o seen w, works = [.count 0 o seen w]) :
      Calm task stopped (e.setLane works .idle) ∧ Worked b (e.setLane works .idle) :=
    ⟨{ he.1 with lane := hworks }, ⟨he.2.delivered, he.2.posted⟩⟩
  rcases hcases with ⟨out, hfin, rfl, rfl⟩ | ⟨hfin, rfl, rfl⟩ | ⟨hfin, w', s, hs, hleft⟩
  · obtain ⟨hcalm, hworked, hmem⟩ := h.postResult (l := .counted 0 out) nofun
    obtain ⟨hcalm', hworked'⟩ := hset _ [] ⟨hcalm, hworked⟩ (.inl rfl)
    exact ⟨hcalm', hworked', o, seen, w, rfl, .inl ⟨out, hfin, rfl, hmem⟩⟩
  · obtain ⟨hcalm', hworked'⟩ := hset _ [] ⟨h, .refl _⟩ (.inl rfl)
    exact ⟨hcalm', hworked', o, seen, w, rfl, .inr (.inl hfin)⟩
  · rw [h.isCancelled, htoken, beq_self_eq_true, Bool.and_true] at hs
    have hw' : (w.step task.plan stopped).1 = w' := by
      subst htask
      exact congrArg Prod.fst hs
    have hkept : (Calm task stopped d ∧ Worked b d) ∧ ∃ seen', left = some (.count 0 o seen' w') := by
      cases s with
      | none =>
          obtain ⟨rfl, rfl⟩ := hleft
          exact ⟨⟨h, .refl _⟩, seen, rfl⟩
      | some s =>
          obtain ⟨rfl, rfl⟩ := hleft
          exact ⟨h.hear hfree hjobs o seen s, _, rfl⟩
    obtain ⟨hkept, seen', rfl⟩ := hkept
    obtain ⟨hcalm', hworked'⟩ := hset d [.count 0 o seen' w'] hkept (.inr ⟨o, seen', w', rfl⟩)
    exact ⟨hcalm', hworked', o, seen, w, rfl, .inr (.inr ⟨hfin, seen', hw' ▸ rfl⟩)⟩

theorem Calm.moves (h : Calm task stopped b) (hfree : task.Free) (hbusy : b.idleLane ≠ []) :
    ∃ c, b.moveWorker .idle = some c := by
  rcases h.lane with hnil | ⟨o, seen, w, hw⟩
  · exact absurd hnil hbusy
  obtain ⟨j, hjobs, rfl, -⟩ := h.job
  have hlane : b.lane .idle = [.count 0 o seen w] := hw
  have hj : b.jobs[0]? = some j := by rw [hjobs]; rfl
  have hnobarrier : ¬ (seen ≠ 0 ∧ seen = j.barrier.event ∧ !j.barrier.lifted) := by
    rw [hfree.barrier]
    exact fun hb => hb.1 hb.2.1
  rw [moveWorker, hlane]
  dsimp only
  rw [hj, Option.bind_some, moveCount, if_neg hnobarrier]
  split <;> exact ⟨_, rfl⟩

/-- A letter was read and no work begun, and with the end of the count it is delivered. -/
structure Kept (task : JobSpec) (stopped : Bool) (b : Background Unit) (l : Letter Unit)
    (c : Background Unit) : Prop where
  calm : Calm task stopped c
  waiting : c.mailbox.waiting = b.mailbox.waiting
  lane : c.idleLane = b.idleLane
  delivered : Command.delivered b = true → Command.delivered c = true
  counted : ∀ out, l = .counted 0 out → Command.delivered c = true

theorem Calm.kept (h : Calm task stopped b) {l : Letter Unit} (hl : ∀ out, l ≠ .counted 0 out) :
    Kept task stopped b l b := ⟨h, rfl, rfl, id, fun out hout => absurd hout (hl out)⟩

theorem Calm.readProgress (h : Calm task stopped b) (job o : Nat) (t : Tally) :
    Kept task stopped b (.progress job o t) (b.readProgress job o t) := by
  rw [Background.readProgress]
  split
  · rename_i j obs hj hobs
    have hzero : obs.cancelAt = 0 := h.observers obs (List.mem_of_getElem? hobs)
    split
    · exact h.kept fun _ hno => by cases hno
    simp only [hzero, Nat.add_one_ne_zero, if_false]
    refine ⟨{ h with observers := fun x hx => ?_ }, rfl, rfl, id, fun _ hno => by cases hno⟩
    rcases List.mem_or_eq_of_mem_set hx with hx | rfl
    · exact h.observers x hx
    · rfl
  · exact h.kept fun _ hno => by cases hno

theorem Calm.readCounted (h : Calm task stopped b) (job : Nat) (out : Outcome) :
    Kept task stopped b (.counted job out) (b.readCounted job out) := by
  obtain ⟨j, hj, htask, htoken⟩ := h.job
  rw [readCounted_eq]
  split
  · rename_i hnone
    refine h.kept fun out hout => ?_
    obtain ⟨rfl, -⟩ := Letter.counted.inj hout
    rw [hj] at hnone
    cases hnone
  · rename_i j' hj'
    rw [hj] at hj'
    obtain rfl : job = 0 := Nat.lt_one_iff.1 (List.getElem?_eq_some_iff.1 hj').1
    obtain rfl : j = j' := Option.some.inj hj'
    have hjobs (f : Job → Job) : (b.modifyJob 0 f).jobs = [f j] := by
      show b.jobs.modify 0 f = _
      rw [hj]
      rfl
    have hdelivered (f : Job → Job) (hf : (f j).delivered = true) (m : LogMessage)
        (x : Call Unit) : Command.delivered (((b.modifyJob 0 f).log m).record (.call x)) = true := by
      show (b.modifyJob 0 f).jobs.any _ = true
      rw [hjobs, List.any_cons, hf]
      rfl
    refine ⟨{ h with job := ⟨_, hjobs _, htask, htoken⟩ }, rfl, rfl, fun _ => ?_, fun _ _ => ?_⟩
    · exact hdelivered _ rfl _ _
    · exact hdelivered _ rfl _ _

theorem Calm.readErrand (h : Calm task stopped b) (errand : Nat) (x y : Bool) :
    Kept task stopped b (.errandDone errand x y) (b.readErrand errand x y) := by
  rw [Background.readErrand]
  split
  · exact h.kept fun _ hno => by cases hno
  · exact ⟨{ h with }, rfl, rfl, id, fun _ hno => by cases hno⟩

theorem Calm.read (h : Calm task stopped b) {l : Letter Unit} {rest : List (Letter Unit)}
    (hl : b.mailbox.waiting = l :: rest) :
    Calm task stopped b.iterate.2 ∧ b.iterate.2.mailbox.waiting = rest ∧
      b.iterate.2.idleLane = b.idleLane ∧ (delivered b = true → delivered b.iterate.2 = true) ∧
      ∀ out, l = .counted 0 out → delivered b.iterate.2 = true := by
  let d : Background Unit := { b with mailbox := { b.mailbox with waiting := rest } }
  have hread : b.iterate.2 = d.readLetter l := by
    rw [iterate, iterate?, Mailbox.take?, hl]
    rfl
  have hd : Calm task stopped d :=
    { h with letters := fun n hn => h.letters n (hl ▸ List.mem_cons_of_mem l hn) }
  suffices hkept : Kept task stopped d l (d.readLetter l) by
    rw [hread]
    exact ⟨hkept.calm, hkept.waiting, hkept.lane, hkept.delivered, hkept.counted⟩
  cases l with
  | note n => exact absurd (hl ▸ List.mem_cons_self) (h.letters n)
  | progress job o t => exact hd.readProgress job o t
  | counted job out => exact hd.readCounted job out
  | errandDone errand x y => exact hd.readErrand errand x y

/-- The worker has so many moves to make at most, or has posted the end of the count. -/
inductive Nears (task : JobSpec) : Nat → Background Unit → Prop
  | counting {n : Nat} {b : Background Unit} {o : Option Nat} {seen : Nat} {w : Walk}
      (hlane : b.idleLane = [.count 0 o seen w]) (hw : Walk.EndsIn task.plan n w) :
      Nears task (n + 1) b
  | rested {n : Nat} {b : Background Unit} (hlane : b.idleLane = [])
      (hend : delivered b = true ∨ ∃ out, .counted 0 out ∈ b.mailbox.waiting) : Nears task n b

/-- So many moves are left at most, and no more letters than that will have to be read. -/
structure Coming (task : JobSpec) (moves letters : Nat) (b : Background Unit) : Prop where
  calm : ∃ stopped, Calm task stopped b
  nears : Nears task moves b
  few : b.mailbox.waiting.length + moves ≤ letters

variable {m n letters : Nat}

theorem Coming.rest (h : Coming task n letters b) (hlane : b.idleLane = []) (hle : m ≤ n) :
    Coming task m letters b := by
  obtain ⟨hcalm, hnears, hfew⟩ := h
  refine ⟨hcalm, ?_, by omega⟩
  cases hnears with
  | counting hbusy =>
      rw [hlane] at hbusy
      cases hbusy
  | rested _ hend => exact .rested hlane hend

theorem moveWorker_eq_none (h : Calm task stopped b) (hfree : task.Free)
    (hmove : b.moveWorker .idle = none) : b.idleLane = [] := by
  by_contra hbusy
  obtain ⟨c, hc⟩ := h.moves hfree hbusy
  rw [hmove] at hc
  cases hc

theorem Coming.move (hfree : task.Free) (h : Coming task n letters b)
    (hmove : b.moveWorker .idle = some c) : ∃ m, n = m + 1 ∧ Coming task m letters c := by
  obtain ⟨⟨stopped, hcalm⟩, hnears, hfew⟩ := h
  obtain ⟨hcalm', ⟨hdelivered, more, hmore, hlength⟩, o, seen, w, hlane, hleft⟩ :=
    hcalm.move hfree hmove
  cases hnears with
  | rested hnil =>
      rw [hnil] at hlane
      cases hlane
  | @counting m _ _ _ v hlane' hends =>
      rw [hlane] at hlane'
      obtain ⟨-, -, rfl⟩ : _ ∧ _ ∧ w = v := by simpa using hlane'
      refine ⟨m, rfl, ⟨stopped, hcalm'⟩, ?_, ?_⟩
      · rcases hleft with ⟨out, -, hnil, hmem⟩ | hfin | ⟨hfin, seen', hlane'⟩
        · exact .rested hnil (.inr ⟨out, hmem⟩)
        · -- The clock does not end this walk.
          obtain ⟨e, he, hne⟩ := hends
          rw [Walk.advance_done (Walk.finished?_eq_some.1 hfin), Walk.finished?_eq_some.1 hfin] at he
          exact absurd (Stage.done.inj he).symm hne
        · obtain ⟨m, rfl, hnext⟩ := hends.step_under hfin stopped
          exact .counting hlane' hnext
      · rw [hmore, List.length_append]
        omega

theorem Coming.settle (hfree : task.Free) (k : Nat) (h : Coming task n letters b) :
    Coming task (n - k) letters (settleLane .idle k b) := by
  induction k generalizing n b with
  | zero => exact h
  | succ k ih =>
      rw [settleLane]
      cases hmove : b.moveWorker .idle with
      | none =>
          obtain ⟨stopped, hcalm⟩ := h.calm
          exact h.rest (moveWorker_eq_none hcalm hfree hmove) (Nat.sub_le n _)
      | some c =>
          obtain ⟨m, rfl, hm⟩ := h.move hfree hmove
          rw [Nat.add_sub_add_right]
          exact ih hm

theorem Coming.read (h : Coming task n letters b) :
    Coming task n letters b.iterate.2 ∧
      (b.mailbox.waiting ≠ [] → Coming task n (letters - 1) b.iterate.2) := by
  obtain ⟨⟨stopped, hcalm⟩, hnears, hfew⟩ := h
  cases hl : b.mailbox.waiting with
  | nil =>
      have hsame : b.iterate.2 = b := by
        rw [iterate, iterate?, Mailbox.take?, hl]
        rfl
      rw [hsame]
      exact ⟨⟨⟨stopped, hcalm⟩, hnears, hfew⟩, fun h => absurd rfl h⟩
  | cons l rest =>
      obtain ⟨hcalm', hrest, hlane', hkept, hcounted⟩ := hcalm.read hl
      have hnears' : Nears task n b.iterate.2 := by
        cases hnears with
        | counting hlane hends => exact .counting (hlane'.trans hlane) hends
        | rested hlane hend =>
            refine .rested (hlane'.trans hlane) ?_
            rcases hend with hd | ⟨out, hout⟩
            · exact .inl (hkept hd)
            · rw [hl] at hout
              rcases List.mem_cons.1 hout with rfl | hout
              · exact .inl (hcounted out rfl)
              · exact .inr ⟨out, hrest ▸ hout⟩
      rw [hl, List.length_cons] at hfew
      exact ⟨⟨⟨stopped, hcalm'⟩, hnears', by rw [hrest]; omega⟩,
        fun _ => ⟨⟨stopped, hcalm'⟩, hnears', by rw [hrest]; omega⟩⟩

variable {w : Surroundings} {deadline : Option Instant} {turns turn : Nat}

theorem await_delivered (h : delivered b = true) (deadline : Option Instant) :
    await w deadline (turns + 1) turn b = some b := by
  rw [await, if_pos h]

theorem await_turn (h : delivered b = false) (deadline : Option Instant) :
    await w deadline (turns + 1) turn b = await w deadline turns (turn + 1)
      (checkDeadline deadline (w.ownClock (turn + 1))
        (settleLane .idle (w.pace turn) b)).iterate.2 := by
  rw [await, if_neg (Bool.eq_false_iff.1 h)]
  rfl

theorem Calm.check (h : Calm task stopped b) (deadline : Option Instant) (now : Instant) :
    let c := checkDeadline deadline now b
    (∃ stopped', Calm task stopped' c) ∧ delivered c = delivered b ∧ c.mailbox = b.mailbox ∧
      c.idleLane = b.idleLane := by
  have hsame : (∃ stopped', Calm task stopped' b) ∧ delivered b = delivered b ∧
      b.mailbox = b.mailbox ∧ b.idleLane = b.idleLane := ⟨⟨stopped, h⟩, rfl, rfl, rfl⟩
  obtain ⟨j, hj, htask, htoken⟩ := h.job
  have hjob : (b.log .timeout).jobs[0]? = some j := by
    show b.jobs[0]? = _
    rw [hj]
    rfl
  have htokens : b.tokens.set j.token true = [true] := by
    rw [h.tokens, htoken]
    rfl
  cases deadline with
  | none => exact hsame
  | some due =>
      simp only [checkDeadline]
      split
      · rw [cancel, hjob]
        dsimp only
        split <;>
          exact ⟨⟨true, { h with job := ⟨j, hj, htask, htoken⟩, tokens := htokens }⟩, rfl, rfl, rfl⟩
      · exact hsame

theorem Coming.check (h : Coming task n letters b) (deadline : Option Instant) (now : Instant) :
    Coming task n letters (checkDeadline deadline now b) := by
  obtain ⟨⟨stopped, hcalm⟩, hnears, hfew⟩ := h
  obtain ⟨hcalm', hdelivered, hmail, hlane⟩ := hcalm.check deadline now
  refine ⟨hcalm', ?_, hmail ▸ hfew⟩
  cases hnears with
  | counting hbusy hends => exact .counting (hlane.trans hbusy) hends
  | rested hnil hend => exact .rested (hlane.trans hnil) (hdelivered ▸ hmail ▸ hend)

theorem settleLane_nil (h : b.idleLane = []) (k : Nat) : settleLane .idle k b = b := by
  cases k with
  | zero => rfl
  | succ k =>
      have hlane : b.lane .idle = [] := h
      rw [settleLane, moveWorker, hlane]

theorem await_over (h : Coming task 0 letters b) (hlt : letters < turns) :
    ∃ c, await w deadline turns turn b = some c := by
  -- Each turn reads a letter, as long as the end is among those that wait.
  induction turns generalizing b turn letters with
  | zero => exact absurd hlt (Nat.not_lt_zero _)
  | succ turns ih =>
      cases hd : delivered b with
      | true => exact ⟨b, await_delivered hd deadline⟩
      | false =>
          obtain ⟨stopped, hcalm⟩ := h.calm
          obtain ⟨-, -, hmail, -⟩ := hcalm.check deadline (w.ownClock (turn + 1))
          have hnears := h.nears
          cases hnears with
          | rested hlane hend =>
              have hwaiting : b.mailbox.waiting ≠ [] := by
                rcases hend with hdelivered | ⟨out, hout⟩
                · rw [hd] at hdelivered
                  cases hdelivered
                · exact List.ne_nil_of_mem hout
              have hpos := List.length_pos_iff.2 hwaiting
              have hfew := h.few
              rw [await_turn hd, settleLane_nil hlane]
              exact ih ((h.check deadline _).read.2 (hmail ▸ hwaiting)) (by omega)

/-- The worker comes to the end if it is given enough moves, and then the program comes to it too. -/
theorem await_coming (hfree : task.Free) (k : Nat) (h : Coming task n letters b)
    (hpace : n ≤ ∑ i ∈ Finset.range k, w.pace (turn + i)) (hlt : k + letters < turns) :
    ∃ c, await w deadline turns turn b = some c := by
  induction k generalizing n b turn turns with
  | zero =>
      obtain rfl : n = 0 := Nat.le_zero.1 hpace
      exact await_over h (by omega)
  | succ k ih =>
      obtain ⟨turns, rfl⟩ : ∃ m, turns = m + 1 := ⟨turns - 1, by omega⟩
      cases hd : delivered b with
      | true => exact ⟨b, await_delivered hd deadline⟩
      | false =>
          rw [await_turn hd]
          refine ih ((h.settle hfree (w.pace turn)).check deadline _).read.1 ?_ (by omega)
          rw [Finset.sum_range_succ'] at hpace
          simp only [Nat.add_zero, ← Nat.add_assoc, Nat.add_right_comm turn _ 1] at hpace ⊢
          omega

theorem Calm.settle (hfree : task.Free) (k : Nat) (h : Calm task stopped b) :
    Calm task stopped (settleLane .idle k b) := by
  induction k generalizing b with
  | zero => exact h
  | succ k ih =>
      rw [settleLane]
      cases hmove : b.moveWorker .idle with
      | none => exact h
      | some c => exact ih (h.move hfree hmove).1

theorem Calm.iterate (h : Calm task stopped b) : Calm task stopped b.iterate.2 := by
  cases hl : b.mailbox.waiting with
  | nil =>
      rw [Background.iterate, iterate?, Mailbox.take?, hl]
      exact h
  | cons l rest => exact (h.read hl).1

theorem Calm.await (hfree : task.Free) (h : Calm task stopped b)
    (hend : await w none turns turn b = some c) :
    Calm task stopped c ∧ b.Reaches c ∧ delivered c = true := by
  induction turns generalizing b turn with
  | zero => cases hend
  | succ turns ih =>
      cases hd : delivered b with
      | true =>
          rw [await_delivered hd] at hend
          obtain rfl := Option.some.inj hend
          exact ⟨h, .refl b, hd⟩
      | false =>
          rw [await_turn hd] at hend
          obtain ⟨hcalm, hreaches, hdelivered⟩ := ih (h.settle hfree (w.pace turn)).iterate hend
          have hturn := (reaches_settleLane .idle (w.pace turn) b).trans (reaches_iterate _)
          exact ⟨hcalm, hturn.trans hreaches, hdelivered⟩

end Command

end TreeTally
