import Mathlib.Data.List.Basic
import TreeTally.Proofs.Background.Edit

namespace TreeTally.Background

variable {α : Type} {b c : Background α}

def delivered (b : Background α) : Charge → Option Bool
  | .job i => b.jobs[i]?.map (·.delivered)
  | .errand e => b.errands[e]?.map (·.delivered)

def Pends (b c : Background α) : Prop :=
  ∀ n, c.delivered n = b.delivered n ∨ b.delivered n = none ∧ c.delivered n = some false

theorem Pends.of_eq (hj : c.jobs = b.jobs) (he : c.errands = b.errands) : b.Pends c := by
  intro n
  left
  cases n with
  | job i => rw [delivered, delivered, hj]
  | errand e => rw [delivered, delivered, he]

theorem Pends.trans {d : Background α} (h : b.Pends c) (h' : c.Pends d) : b.Pends d := by
  intro n
  rcases h n with heq | ⟨hnone, hfalse⟩
  · rw [← heq]
    exact h' n
  · rcases h' n with heq' | ⟨hnone', -⟩
    · exact .inr ⟨hnone, heq'.trans hfalse⟩
    · rw [hfalse] at hnone'
      cases hnone'

theorem map_append_false {β : Type} (l : List β) (x : β) (f : β → Bool) (hx : f x = false) (i : Nat) :
    ((l ++ [x])[i]?).map f = (l[i]?).map f ∨
      (l[i]?).map f = none ∧ ((l ++ [x])[i]?).map f = some false := by
  rcases Nat.lt_trichotomy i l.length with hlt | rfl | hgt
  · left
    rw [List.getElem?_append_left hlt]
  · right
    rw [List.getElem?_concat_length, List.getElem?_eq_none (Nat.le_refl _), ← hx]
    exact ⟨rfl, rfl⟩
  · left
    rw [List.getElem?_eq_none (by rw [List.length_append]; exact hgt),
      List.getElem?_eq_none (Nat.le_of_lt hgt)]

theorem map_modify {β γ : Type} (l : List β) (k : Nat) (g : β → β) (f : β → γ)
    (hg : ∀ x, f (g x) = f x) (i : Nat) : ((l.modify k g)[i]?).map f = (l[i]?).map f := by
  rw [List.getElem?_modify]
  cases l[i]? with
  | none => rfl
  | some x =>
      show some (f (if k = i then g x else x)) = some (f x)
      split
      · rw [hg]
      · rfl

theorem Edits.pends (h : b.Edits c) : b.Pends c := by
  induction h with
  | refl => exact .of_eq rfl rfl
  | tail _ hlast ih =>
      refine ih.trans ?_
      cases hlast with
      | lane works l => cases l <;> exact .of_eq rfl rfl
      | job j hj =>
          intro n
          cases n with
          | job i => exact map_append_false _ j (·.delivered) hj i
          | errand e => exact .inl rfl
      | errand x hx =>
          intro n
          cases n with
          | job i => exact .inl rfl
          | errand e => exact map_append_false _ x (·.delivered) hx e
      | change job f hf =>
          intro n
          left
          cases n with
          | job i => exact map_modify _ job f _ (fun j => (hf j).2.2) i
          | errand e => rfl
      | _ => exact .of_eq rfl rfl

theorem pends_act (b : Background α) {a : Action α} (ha : a ≠ .read) : b.Pends (b.act a) := by
  cases a with
  | liftBarrier job =>
      intro n
      left
      cases n with
      | job i =>
          exact map_modify b.jobs job
            (fun j => { j with barrier := { j.barrier with lifted := true } }) (·.delivered)
            (fun _ => rfl) i
      | errand e => rfl
  | letGo errand =>
      intro n
      left
      cases n with
      | job i => rfl
      | errand e =>
          exact map_modify b.errands errand (fun x => { x with held := false }) (·.delivered)
            (fun _ => rfl) e
  | _ =>
      refine Pends.trans ?_ (edits_act b ha (by simp) (by simp)).pends
      rw [warned]
      split <;> exact .of_eq rfl rfl

theorem map_modify_true {β : Type} (l : List β) (k : Nat) (g : β → β) (f : β → Bool)
    (hg : ∀ x, f (g x) = true) (i : Nat) : ((l.modify k g)[i]?).map f =
      if k = i then ((l[i]?).map f).map fun _ => true else (l[i]?).map f := by
  rw [List.getElem?_modify]
  cases l[i]? with
  | none => split <;> rfl
  | some x =>
      show some (f (if k = i then g x else x)) = _
      split
      · rw [hg]
        rfl
      · rfl

theorem delivered_readCounted (b : Background α) (job : Nat) (out : Outcome) (n : Charge) :
    (b.readCounted job out).delivered n =
      if .job job = n then (b.delivered n).map fun _ => true else b.delivered n := by
  rw [readCounted_eq]
  cases n with
  | errand e =>
      rw [if_neg (by simp)]
      split <;> rfl
  | job i =>
      simp only [Charge.job.injEq]
      cases hj : b.jobs[job]? with
      | none =>
          dsimp only
          split
          · rename_i hi
            rw [delivered, ← hi, hj]
            rfl
          · rfl
      | some j => exact map_modify_true b.jobs job _ (·.delivered) (fun _ => rfl) i

theorem delivered_readErrand (b : Background α) (errand : Nat) (first second : Bool) (n : Charge) :
    (b.readErrand errand first second).delivered n =
      if .errand errand = n then (b.delivered n).map fun _ => true else b.delivered n := by
  rw [readErrand]
  cases n with
  | job i =>
      rw [if_neg (by simp)]
      split <;> rfl
  | errand e =>
      simp only [Charge.errand.injEq]
      cases hx : b.errands[errand]? with
      | none =>
          dsimp only
          split
          · rename_i he
            rw [delivered, ← he, hx]
            rfl
          · rfl
      | some x =>
          have hset := map_modify_true b.errands errand (fun _ => { x with delivered := true })
            (·.delivered) (fun _ => rfl) e
          rw [← List.set_eq_modify] at hset
          exact hset

theorem delivered_readLetter (b : Background α) (x : Letter α) (n : Charge) :
    (b.readLetter x).delivered n =
      if x.ended? = some n then (b.delivered n).map fun _ => true else b.delivered n := by
  have hsame {c : Background α} (hj : c.jobs = b.jobs) (he : c.errands = b.errands) :
      c.delivered n = b.delivered n := by
    cases n with
    | job i => rw [delivered, delivered, hj]
    | errand e => rw [delivered, delivered, he]
  cases x with
  | note m =>
      obtain ⟨label, next⟩ := m
      exact hsame rfl rfl
  | progress job o t =>
      rw [if_neg (by simp [Letter.ended?]), readLetter, readProgress]
      split
      · split
        · rfl
        · dsimp only
          split <;> exact hsame rfl rfl
      · rfl
  | counted job out =>
      simp only [Letter.ended?, Option.some.injEq]
      exact delivered_readCounted b job out n
  | errandDone errand first second =>
      simp only [Letter.ended?, Option.some.injEq]
      exact delivered_readErrand b errand first second n

def Knows (b : Background α) (x : Letter α) : Prop := ∀ n, x.ended? = some n → b.delivered n ≠ none

theorem Knows.mono {x : Letter α} (h : b.Pends c) (hx : b.Knows x) : c.Knows x := by
  intro n hn
  rcases h n with hsame | ⟨hnone, -⟩
  · rw [hsame]
    exact hx n hn
  · exact absurd hnone (hx n hn)

theorem knows_next {x y : Letter α} (hy : y ∈ x.next) : b.Knows y := by
  cases x with
  | note n =>
      obtain ⟨label, next⟩ := n
      obtain ⟨m, -, rfl⟩ := List.mem_map.1 hy
      nofun
  | _ => cases hy

theorem knows_letterOf {work : Work} {x : Letter α} {left : Option Work}
    (h : b.moveWork work = some (c, left)) (hx : b.letterOf work = some x) : b.Knows x := by
  intro n hn
  cases work with
  | count job o seen w =>
      obtain ⟨j, hj, -⟩ := moveWork_count h
      rw [letterOf, hj, Option.bind_some] at hx
      split at hx
      · cases hx
        cases hn
        simp [delivered, hj]
      · cases hx
      · obtain ⟨s, -, hs⟩ := Option.bind_eq_some_iff.1 hx
        rcases s with e | m
        · cases e with
          | progress t =>
              cases o with
              | none => cases hs
              | some o => cases hs; cases hn
          | _ => cases hs
        · cases hs
  | errand e first =>
      obtain ⟨y, hy, -⟩ := Option.bind_eq_some_iff.1 h
      cases first with
      | none => cases hx
      | some first =>
          rw [letterOf, hy] at hx
          cases hx
          cases hn
          simp [delivered, hy]

theorem knows_sends {a : Action α} {x : Letter α} (hx : x ∈ b.sends a) : b.Knows x := by
  cases a with
  | postNote n =>
      rw [List.mem_singleton.1 hx]
      nofun
  | move l k =>
      rw [sends] at hx
      split at hx
      · rename_i hmove
        obtain ⟨c, hc⟩ := Option.isSome_iff_exists.1 hmove
        obtain ⟨work, hwork, hmoved⟩ := Option.bind_eq_some_iff.1 hc
        obtain ⟨⟨d, left⟩, hd, -⟩ := Option.map_eq_some_iff.1 hmoved
        rw [hwork] at hx
        exact knows_letterOf hd (Option.mem_toList.1 hx)
      · cases hx
  | read =>
      rw [sends] at hx
      cases hy : b.mailbox.waiting.head? with
      | none => rw [hy] at hx; cases hx
      | some y =>
          rw [hy] at hx
          exact knows_next hx
  | _ => cases hx

/-- What has been delivered is what was read, and nothing waits that is not known. -/
structure Delivers (b : Background α) (taken : List (Letter α)) : Prop where
  delivered : ∀ n, b.delivered n = some true ↔ ∃ x ∈ taken, x.ended? = some n
  known : ∀ x ∈ b.mailbox.waiting, b.Knows x

theorem delivered_read {x : Letter α} {rest : List (Letter α)} (h : b.mailbox.waiting = x :: rest)
    (n : Charge) : (b.act .read).delivered n =
      if x.ended? = some n then (b.delivered n).map fun _ => true else b.delivered n := by
  have hsame : ({ b with mailbox := { b.mailbox with waiting := rest } } : Background α).delivered n =
      b.delivered n := by cases n <;> rfl
  rw [act, iterate?_cons h, Option.getD_some, delivered_readLetter, hsame]

theorem mem_waiting_act (a : Action α) {x : Letter α} (hx : x ∈ (b.act a).mailbox.waiting) :
    x ∈ b.mailbox.waiting ∨ x ∈ b.sends a := by
  by_cases ha : a = .closeMailbox
  · subst ha
    cases hx
  · rw [mailbox_act b ha, Mailbox.postAll_eq] at hx
    split at hx
    · exact .inl (List.drop_subset _ _ hx)
    · exact (List.mem_append.1 hx).imp (fun h => List.drop_subset _ _ h) id

theorem delivers_act {taken : List (Letter α)} (h : b.Delivers taken) (a : Action α) :
    (b.act a).Delivers (taken ++ (b.takes a).toList) := by
  have hknown (hknows : ∀ x, b.Knows x → (b.act a).Knows x) (x : Letter α)
      (hx : x ∈ (b.act a).mailbox.waiting) : (b.act a).Knows x := by
    rcases mem_waiting_act a hx with hx | hx
    · exact hknows x (h.known x hx)
    · exact hknows x (knows_sends hx)
  by_cases ha : a = .read
  · subst ha
    cases hwaiting : b.mailbox.waiting with
    | nil =>
        have hread : b.act .read = b := by
          rw [act, iterate?_nil hwaiting]
          rfl
        rw [hread, takes, hwaiting]
        exact (List.append_nil taken).symm ▸ h
    | cons y rest =>
        have hread := delivered_read hwaiting
        have htakes : b.takes .read = some y := by rw [takes, hwaiting]; rfl
        refine ⟨fun n => ?_, hknown fun x hx n hn => ?_⟩
        · rw [hread n, htakes, Option.toList_some]
          simp only [List.mem_append, List.mem_singleton, or_and_right, exists_or, exists_eq_left]
          by_cases hn : y.ended? = some n
          · have hthere := h.known y (by rw [hwaiting]; exact List.mem_cons_self) n hn
            obtain ⟨c, hc⟩ := Option.ne_none_iff_exists'.1 hthere
            simp [hn, hc]
          · simp [hn, h.delivered n]
        · rw [hread n]
          split
          · rw [ne_eq, Option.map_eq_none_iff]
            exact hx n hn
          · exact hx n hn
  · have hpends := pends_act b ha
    have htakes : b.takes a = none := by
      cases a with
      | read => exact absurd rfl ha
      | _ => rfl
    refine ⟨fun n => ?_, hknown fun x => .mono hpends⟩
    rw [htakes, Option.toList_none, List.append_nil, ← h.delivered n]
    rcases hpends n with hsame | ⟨hnone, hfalse⟩
    · rw [hsame]
    · simp [hnone, hfalse]

theorem delivers_play {taken : List (Letter α)} (h : b.Delivers taken) (script : List (Action α)) :
    (b.play script).Delivers (taken ++ b.taken script) := by
  induction script generalizing b taken with
  | nil =>
      rw [Background.taken, List.append_nil]
      exact h
  | cons a script ih =>
      have hrest := ih (delivers_act h a)
      rw [Background.taken, ← List.append_assoc]
      exact hrest

def warnings (b : Background α) : Nat := (b.messages.filter fun m => m.level = .warn).length

theorem warnings_log (b : Background α) (m : LogMessage) :
    (b.log m).warnings = b.warnings + if m.level = .warn then 1 else 0 := by
  by_cases hm : m.level = .warn <;> simp [warnings, messages, journal, log, record, hm]

theorem warnings_call (b : Background α) (x : Call α) :
    (b.record (.call x)).warnings = b.warnings := by
  simp [warnings, messages, journal, record]

theorem Edits.warnings (h : b.Edits c) : c.warnings = b.warnings := by
  induction h with
  | refl => rfl
  | tail _ hlast ih =>
      refine Eq.trans ?_ ih
      cases hlast with
      | log m hm => rw [warnings_log, if_neg hm, Nat.add_zero]
      | lane works l => cases l <;> rfl
      | _ => rfl

theorem warnings_readLetter (b : Background α) (x : Letter α) :
    (b.readLetter x).warnings = b.warnings := by
  cases x with
  | note n =>
      obtain ⟨label, next⟩ := n
      exact warnings_call b _
  | progress job o t =>
      have hcancel (c : Background α) (p : Prop) [Decidable p] (token : Nat) :
          (if p then c.cancelToken token else c).warnings = c.warnings := by
        split <;> rfl
      rw [readLetter, readProgress]
      split
      · split
        · rfl
        · exact (hcancel _ _ _).trans (warnings_call _ _)
      · rfl
  | counted job out =>
      rw [readLetter, readCounted_eq]
      split
      · rfl
      · rename_i j _
        dsimp only
        have hmessage (o : Outcome) : (messageAfter o).level ≠ .warn := by
          rcases o with f | t
          · cases f <;> simp [messageAfter, LogMessage.level]
          · simp [messageAfter, LogMessage.level]
        rw [warnings_call, warnings_log, if_neg (hmessage _)]
        rfl
  | errandDone errand first second =>
      rw [readLetter, readErrand]
      split
      · rfl
      · exact warnings_call _ _

theorem filter_next (x : Letter α) : x.next.filter Letter.isEnd = [] := by
  rw [List.filter_eq_nil_iff]
  intro y hy
  cases x with
  | note n =>
      obtain ⟨label, next⟩ := n
      obtain ⟨m, -, rfl⟩ := List.mem_map.1 hy
      nofun
  | _ => cases hy

theorem ends_read (b : Background α) : (b.sends .read).filter Letter.isEnd = [] := by
  rw [sends]
  cases b.mailbox.waiting.head? with
  | none => rfl
  | some x => exact filter_next x

theorem length_ends (b : Background α) (a : Action α) :
    ((b.sends a).filter Letter.isEnd).length = if (b.sends a).any Letter.isEnd then 1 else 0 := by
  have hoption (o : Option (Letter α)) : (o.toList.filter Letter.isEnd).length =
      if o.toList.any Letter.isEnd then 1 else 0 := by
    cases o with
    | none => rfl
    | some x => cases hx : x.isEnd <;> simp [hx]
  cases a with
  | move l k =>
      rw [sends]
      split
      · exact hoption _
      · rfl
  | read =>
      have hnone := ends_read b
      have hany : (b.sends .read).any Letter.isEnd = false := by
        rw [List.any_eq_false]
        exact List.filter_eq_nil_iff.1 hnone
      rw [hnone, hany]
      rfl
  | _ => rfl

theorem warnings_warned (b : Background α) (a : Action α) : (b.warned a).warnings = b.warnings +
    ((if b.mailbox.accepts then [] else b.sends a).filter Letter.isEnd).length := by
  rw [warned]
  cases b.mailbox.accepts with
  | true => rfl
  | false =>
      have hlength := length_ends b a
      cases hany : (b.sends a).any Letter.isEnd with
      | true =>
          rw [hany] at hlength
          exact (warnings_log b _).trans (congrArg (b.warnings + ·) hlength.symm)
      | false =>
          rw [hany] at hlength
          exact (congrArg (b.warnings + ·) hlength).symm

theorem warnings_act (b : Background α) (a : Action α) : (b.act a).warnings = b.warnings +
    ((if b.mailbox.accepts then [] else b.sends a).filter Letter.isEnd).length := by
  have hedits {a : Action α} (hread : a ≠ .read) (hlift : ∀ i, a ≠ .liftBarrier i)
      (hgo : ∀ e, a ≠ .letGo e) : (b.act a).warnings = b.warnings +
        ((if b.mailbox.accepts then [] else b.sends a).filter Letter.isEnd).length :=
    (edits_act b hread hlift hgo).warnings.trans (warnings_warned b a)
  cases a with
  | liftBarrier i => cases b.mailbox.accepts <;> rfl
  | letGo e => cases b.mailbox.accepts <;> rfl
  | read =>
      have hnone : (if b.mailbox.accepts then [] else b.sends .read).filter Letter.isEnd = [] := by
        split
        · rfl
        · exact ends_read b
      rw [hnone, act]
      cases hwaiting : b.mailbox.waiting with
      | nil =>
          rw [iterate?_nil hwaiting]
          rfl
      | cons x rest =>
          rw [iterate?_cons hwaiting]
          exact warnings_readLetter _ x
  | _ => exact hedits (by simp) (by simp) (by simp)

theorem warnings_play (b : Background α) (script : List (Action α)) :
    (b.play script).warnings = b.warnings + ((b.refused script).filter Letter.isEnd).length := by
  induction script generalizing b with
  | nil => rfl
  | cons a script ih =>
      have hrest := ih (b.act a)
      rw [warnings_act, Nat.add_assoc, ← List.length_append, ← List.filter_append] at hrest
      refine hrest.trans ?_
      cases hm : b.mailbox.accepts <;> simp [refused, sentWhere, hm]

end TreeTally.Background
