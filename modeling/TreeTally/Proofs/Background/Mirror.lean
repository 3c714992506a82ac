import Mathlib.Data.List.Basic
import TreeTally.Proofs.Background.Notices

namespace TreeTally

variable {α : Type}

def Word.letter? : Word → Item → Option (Letter α)
  | progress t, .job i observer => observer.map fun o => .progress i o t
  | finished (.counted (.outcome out)), .job i _ => some (.counted i out)
  | finished (.errandDone first second), .errand e => some (.errandDone e first second)
  | _, _ => none

def Word.About : Word → Item → Prop
  | progress _, .job _ _ | finished (.counted _), .job _ _ | finished (.errandDone _ _), .errand _ =>
      True
  | _, _ => False

namespace Background

variable {b b' : Background α}

theorem moveWork_waits {work : Work} {x : Duty} (h : b.duty work = some x)
    (hwaits : x.waits = true) : b.moveWork work = none := by
  cases work with
  | count i o seen w =>
      obtain ⟨j, hj, rfl⟩ := Option.map_eq_some_iff.1 h
      rw [moveWork, hj, Option.bind_some, moveCount, if_pos (of_decide_eq_true hwaits)]
  | errand e first =>
      obtain ⟨x, hx, rfl⟩ := Option.map_eq_some_iff.1 h
      cases first with
      | none => cases hwaits
      | some first =>
          have hheld : x.held = true := hwaits
          rw [moveWork, hx, Option.bind_some, moveErrand, if_pos hheld]

theorem moveWork_finished {work : Work} {x : Duty} {f : Finish} (h : b.duty work = some x)
    (hwaits : x.waits = false) (hmove : x.move = .finished f) :
    ∃ c, b.moveWork work = some (c, none) ∧ (Word.finished f).About work.item ∧
      b.letterOf work = (Word.finished f).letter? work.item := by
  cases work with
  | count i o seen w =>
      obtain ⟨j, hj, rfl⟩ := Option.map_eq_some_iff.1 h
      have hpass := of_decide_eq_false hwaits
      rw [Duty.move] at hmove
      cases hfin : w.finished? with
      | none =>
          rw [hfin] at hmove
          cases hmove
      | some e =>
          rw [hfin] at hmove
          cases hmove
          rw [moveWork, hj, Option.bind_some, moveCount, if_neg hpass, letterOf, hfin]
          cases e with
          | outcome out => exact ⟨_, rfl, trivial, rfl⟩
          | clockOverrun => exact ⟨_, rfl, trivial, rfl⟩
  | errand e first =>
      obtain ⟨x, hx, rfl⟩ := Option.map_eq_some_iff.1 h
      cases first with
      | none => cases hmove
      | some first =>
          cases hmove
          have hheld : x.held = false := hwaits
          rw [moveWork, hx, Option.bind_some, moveErrand, hheld, if_neg Bool.false_ne_true, letterOf, hx]
          exact ⟨_, rfl, trivial, rfl⟩

theorem moveWork_goes {work : Work} {x y : Duty} {report : Option Tally} (h : b.duty work = some x)
    (hwaits : x.waits = false) (hmove : x.move = .goes report y) :
    ∃ c left, b.moveWork work = some (c, some left) ∧ b.duty left = some y ∧
      left.item = work.item ∧ (∀ t ∈ report, (Word.progress t).About work.item) ∧
      b.letterOf work = report.bind fun t => (Word.progress t).letter? work.item := by
  cases work with
  | count i o seen w =>
      obtain ⟨j, hj, rfl⟩ := Option.map_eq_some_iff.1 h
      have hpass := of_decide_eq_false hwaits
      rw [Duty.move] at hmove
      cases hfin : w.finished? with
      | some e =>
          rw [hfin] at hmove
          cases hmove
      | none =>
          rw [hfin] at hmove
          rcases hs : w.step j.plan (b.isCancelled j.token) with ⟨w', s⟩
          have hs' : w.step j.toJobSpec.plan (b.isCancelled j.token) = (w', s) := hs
          rw [hs'] at hmove
          cases hmove
          rw [moveWork, hj, Option.bind_some, moveCount, if_neg hpass, letterOf, hfin, hj,
            Option.bind_some, hs]
          cases s with
          | none =>
              refine ⟨_, _, rfl, ?_, rfl, fun _ _ => trivial, ?_⟩
              · rw [duty, hj]
                rfl
              · cases o <;> rfl
          | some s =>
              refine ⟨(b.hear i j o seen s).1, .count i o (b.hear i j o seen s).2 w', rfl, ?_, rfl,
                fun _ _ => trivial, ?_⟩
              · have hseen : (b.hear i j o seen s).2 = seen + s.number := by
                  rcases s with e | m
                  · cases e <;> rfl
                  · rfl
                rw [duty, hj, hseen]
                rfl
              · rcases s with e | m
                · cases e <;> cases o <;> rfl
                · cases o <;> rfl
  | errand e first =>
      obtain ⟨x, hx, rfl⟩ := Option.map_eq_some_iff.1 h
      cases first with
      | some first => cases hmove
      | none =>
          cases hmove
          rw [moveWork, hx, Option.bind_some, moveErrand, letterOf]
          refine ⟨_, _, rfl, ?_, rfl, by simp, rfl⟩
          rw [duty, hx]
          rfl

end Background

/-- These works are those that are not finished on the desk, and stand as they do there. -/
structure Mirrors (duty : Work → Option Duty) (works : List Work) (items : List Item) (d : Desk) :
    Prop where
  waiting : works.map duty = d.waiting.map some
  rest : works.map Work.item = items.drop d.finished.length
  le : d.finished.length ≤ items.length

namespace Mirrors

variable {duty duty' : Work → Option Duty} {works : List Work} {items : List Item} {d : Desk}

theorem getElem? (h : Mirrors duty works items d) (k : Nat) :
    (works[k]?).map duty = (d.waiting[k]?).map some ∧
      (works[k]?).map Work.item = items[d.finished.length + k]? := by
  rw [← List.getElem?_map, ← List.getElem?_map, ← List.getElem?_map, h.waiting, h.rest,
    List.getElem?_drop]
  exact ⟨rfl, rfl⟩

theorem of_getElem? (hwaiting : ∀ k : Nat, (works[k]?).map duty = (d.waiting[k]?).map some)
    (hrest : works.map Work.item = items.drop d.finished.length)
    (hle : d.finished.length ≤ items.length) : Mirrors duty works items d := by
  refine ⟨List.ext_getElem? fun k => ?_, hrest, hle⟩
  rw [List.getElem?_map, List.getElem?_map]
  exact hwaiting k

theorem enter (h : Mirrors duty works items d) {work : Work} {x : Duty} (hx : duty work = some x) :
    Mirrors duty (works ++ [work]) (items ++ [work.item]) (d.mark (.enter x)) := by
  refine ⟨?_, ?_, ?_⟩
  · show (works ++ [work]).map duty = (d.waiting ++ [x]).map some
    rw [List.map_append, List.map_append, h.waiting]
    exact congrArg (d.waiting.map some ++ [·]) hx
  · show (works ++ [work]).map Work.item = (items ++ [work.item]).drop d.finished.length
    rw [List.map_append, h.rest, List.drop_append_of_le_length h.le]
    rfl
  · rw [List.length_append]
    exact Nat.le_trans h.le (Nat.le_add_right _ _)

theorem uncons {work : Work} (h : Mirrors duty (work :: works) items d) : ∃ x waiting,
    d.waiting = x :: waiting ∧ duty work = some x ∧ items[d.finished.length]? = some work.item := by
  obtain ⟨hx, hitem⟩ := h.getElem? 0
  cases hwaiting : d.waiting with
  | nil =>
      rw [hwaiting] at hx
      cases hx
  | cons x waiting =>
      rw [hwaiting] at hx
      exact ⟨x, waiting, rfl, Option.some.inj hx, hitem.symm⟩

theorem finish {work : Work} {x : Duty} {waiting : List Duty} (h : Mirrors duty (work :: works) items d)
    (hwaiting : d.waiting = x :: waiting) (f : Finish) (said : List (Nat × Word)) :
    Mirrors duty works items ⟨d.finished ++ [f], waiting, said⟩ := by
  have hduties := h.waiting
  rw [hwaiting] at hduties
  obtain ⟨-, -, -, -, hitem⟩ := h.uncons
  have hlt : d.finished.length < items.length := (List.getElem?_eq_some_iff.1 hitem).1
  refine ⟨(List.cons.inj hduties).2, ?_, ?_⟩
  · rw [List.length_append, List.length_singleton, ← List.tail_drop, ← h.rest]
    rfl
  · rw [List.length_append]
    exact hlt

theorem go {work left : Work} {x y : Duty} {waiting : List Duty}
    (h : Mirrors duty (work :: works) items d) (hwaiting : d.waiting = x :: waiting)
    (hleft : duty left = some y) (hsame : left.item = work.item) (said : List (Nat × Word)) :
    Mirrors duty (left :: works) items ⟨d.finished, y :: waiting, said⟩ := by
  have hduties := h.waiting
  rw [hwaiting] at hduties
  refine ⟨?_, ?_, h.le⟩
  · rw [List.map_cons, hleft, (List.cons.inj hduties).2, List.map_cons]
  · rw [List.map_cons, hsame, ← List.map_cons]
    exact h.rest

theorem renew {f : Duty → Duty} (hf : ∀ x, f (f x) = f x) (p : Item → Bool)
    (h : Mirrors duty works items d)
    (hduty : ∀ work x, duty work = some x → duty' work = some (if p work.item then f x else x)) :
    Mirrors duty' works items ((numbers p items).foldl (fun d n => d.renew n f) d) := by
  obtain ⟨hfinished, -, hwaiting⟩ := Desk.renew_foldl hf (numbers p items) d
  refine .of_getElem? (fun k => ?_) (by rw [hfinished, h.rest]) (by rw [hfinished]; exact h.le)
  obtain ⟨hk, hitem⟩ := h.getElem? k
  rw [hwaiting]
  cases hwork : works[k]? with
  | none =>
      rw [hwork] at hk
      cases hx : d.waiting[k]? with
      | none => rfl
      | some x => rw [hx] at hk; cases hk
  | some work =>
      rw [hwork] at hk hitem
      cases hx : d.waiting[k]? with
      | none => rw [hx] at hk; cases hk
      | some x =>
          rw [hx] at hk
          have hwaits : duty work = some x := Option.some.inj hk
          have hp : (d.finished.length + k ∈ numbers p items) = (p work.item = true) := by
            rw [mem_numbers, ← hitem]
            rfl
          simp only [Option.map_some, hp]
          exact congrArg some (hduty work x hwaits)

end Mirrors

namespace Background

variable {b b' : Background α} {l : Lane} {items : List Item} {d : Desk} {a : Action α}

theorem follow_lift (d : Desk) (ns : List Nat) :
    d.follow (ns.map .lift) = ns.foldl (fun d n => d.renew n .lift) d := by
  rw [Desk.follow, List.foldl_map]
  rfl

theorem follow_stop (d : Desk) (ns : List Nat) :
    d.follow (ns.map .stop) = ns.foldl (fun d n => d.renew n .stop) d := by
  rw [Desk.follow, List.foldl_map]
  rfl

theorem mirrors_renew {works : List Work} (h : Mirrors b.duty works items d) (a : Action α) :
    Mirrors (b.act a).duty works items
      ((d.follow ((numbers a.lifts items).map .lift)).follow
        ((numbers (b.stops a) items).map .stop)) := by
  rw [follow_lift, follow_stop]
  have hlift : Mirrors (fun work => (b.duty work).map fun x =>
      if a.lifts work.item then x.lift else x) works items
      ((numbers a.lifts items).foldl (fun d n => d.renew n .lift) d) := by
    refine h.renew Duty.lift_lift a.lifts fun work x hx => ?_
    rw [hx]
    rfl
  refine hlift.renew Duty.stop_stop (b.stops a) fun work x hx => ?_
  obtain ⟨y, hy, rfl⟩ := Option.map_eq_some_iff.1 hx
  exact duty_act hy a

theorem numbers_false (items : List Item) : numbers (fun _ => false) items = [] := by
  rw [numbers, List.filter_eq_nil_iff]
  intro n _
  cases items[n]? <;> simp

theorem moveAt_cons {work : Work} {rest : List Work} (h : b.lane l = work :: rest) :
    b.moveAt l 0 = (b.moveWork work).map fun moved =>
      moved.1.setLane (moved.2.toList ++ rest) l := by
  rw [moveAt, h]
  rfl

/-- The worker of a lane does with its next work what it would do with it on its desk, and sends what
it would say. -/
structure MovesAlike (b : Background α) (l : Lane) (items : List Item) (d : Desk) : Prop where
  mirrors : Mirrors b.duty ((b.act (.move l 0)).lane l) items d.move
  said : ∃ more, d.move.said = d.said ++ more ∧
    (∀ x ∈ more, ∃ y, items[x.1]? = some y ∧ x.2.About y) ∧
    b.sends (.move l 0) = more.filterMap fun x => items[x.1]?.bind x.2.letter?

theorem movesAlike_still (h : Mirrors b.duty (b.lane l) items d) (hmove : b.moveAt l 0 = none)
    (hd : d.move = d) : b.MovesAlike l items d := by
  refine ⟨?_, [], ?_, List.forall_mem_nil _, ?_⟩
  · rw [act, hmove, hd]
    exact h
  · rw [hd, List.append_nil]
  · rw [sends, hmove]
    rfl

section

variable {work : Work} {rest : List Work} {x : Duty} {waiting : List Duty}

theorem act_move_cons {left : Option Work} {c : Background α} (hlane : b.lane l = work :: rest)
    (hc : b.moveWork work = some (c, left)) :
    (b.act (.move l 0)).lane l = left.toList ++ rest ∧
      b.sends (.move l 0) = (b.letterOf work).toList := by
  have hmove : b.moveAt l 0 = some (c.setLane (left.toList ++ rest) l) := by
    rw [moveAt_cons hlane, hc]
    rfl
  constructor
  · rw [act, hmove, Option.getD_some, lane_setLane, if_pos rfl]
  · rw [sends, hmove, hlane]
    rfl

theorem movesAlike_finished {f : Finish} (h : Mirrors b.duty (b.lane l) items d)
    (hlane : b.lane l = work :: rest) (hwaiting : d.waiting = x :: waiting)
    (hduty : b.duty work = some x) (hname : items[d.finished.length]? = some work.item)
    (hwaits : x.waits = false) (hgo : x.move = .finished f) : b.MovesAlike l items d := by
  obtain ⟨c, hc, habout, hletter⟩ := moveWork_finished hduty hwaits hgo
  obtain ⟨hrest, hsends⟩ := act_move_cons hlane hc
  have hd : d.move = ⟨d.finished ++ [f], waiting, d.said ++ [(d.finished.length, .finished f)]⟩ := by
    simp only [Desk.move, hwaiting, hwaits, hgo, Bool.false_eq_true, if_false]
  refine ⟨?_, [(d.finished.length, .finished f)], by rw [hd], ?_, ?_⟩
  · rw [hrest, hd]
    rw [hlane] at h
    exact h.finish hwaiting f _
  · intro x hx
    rw [List.mem_singleton.1 hx]
    exact ⟨work.item, hname, habout⟩
  · rw [hsends, hletter, List.filterMap_cons, hname, Option.bind_some]
    cases (Word.finished f).letter? (α := α) work.item <;> rfl

theorem movesAlike_goes {report : Option Tally} {y : Duty} (h : Mirrors b.duty (b.lane l) items d)
    (hlane : b.lane l = work :: rest) (hwaiting : d.waiting = x :: waiting)
    (hduty : b.duty work = some x) (hname : items[d.finished.length]? = some work.item)
    (hwaits : x.waits = false) (hgo : x.move = .goes report y) : b.MovesAlike l items d := by
  obtain ⟨c, left, hc, hleft, hsame, habout, hletter⟩ := moveWork_goes hduty hwaits hgo
  obtain ⟨hrest, hsends⟩ := act_move_cons hlane hc
  have hd : d.move = ⟨d.finished, y :: waiting,
      d.said ++ report.toList.map fun t => (d.finished.length, .progress t)⟩ := by
    simp only [Desk.move, hwaiting, hwaits, hgo, Bool.false_eq_true, if_false]
  refine ⟨?_, _, by rw [hd], ?_, ?_⟩
  · rw [hrest, hd]
    rw [hlane] at h
    exact h.go hwaiting hleft hsame _
  · intro x hx
    obtain ⟨t, ht, rfl⟩ := List.mem_map.1 hx
    exact ⟨work.item, hname, habout t (Option.mem_toList.1 ht)⟩
  · rw [hsends, hletter]
    cases report with
    | none => rfl
    | some t =>
        rw [Option.bind_some, Option.toList_some, List.map_cons, List.map_nil, List.filterMap_cons,
          hname, Option.bind_some]
        cases (Word.progress t).letter? (α := α) work.item <;> rfl

end

theorem mirrors_move (h : Mirrors b.duty (b.lane l) items d) : b.MovesAlike l items d := by
  cases hlane : b.lane l with
  | nil =>
      have hempty : d.waiting = [] := by
        have hwaiting := h.waiting
        rw [hlane] at hwaiting
        exact List.map_eq_nil_iff.1 hwaiting.symm
      refine movesAlike_still h ?_ ?_
      · rw [moveAt, hlane]
        rfl
      · rw [Desk.move, hempty]
  | cons work rest =>
      obtain ⟨x, waiting, hwaiting, hduty, hname⟩ := (hlane ▸ h).uncons
      cases hwaits : x.waits with
      | true =>
          refine movesAlike_still h ?_ ?_
          · rw [moveAt_cons hlane, moveWork_waits hduty hwaits]
            rfl
          · simp only [Desk.move, hwaiting, hwaits, if_true]
      | false =>
          cases hgo : x.move with
          | finished f => exact movesAlike_finished h hlane hwaiting hduty hname hwaits hgo
          | goes report y => exact movesAlike_goes h hlane hwaiting hduty hname hwaits hgo

theorem duty_enters {work : Work} (h : b.enters l a = some work) :
    ∃ x, (b.act a).duty work = some x ∧ x.Fresh := by
  cases a with
  | run job =>
      obtain ⟨j, hj, hwork⟩ := Option.bind_eq_some_iff.1 h
      obtain ⟨j', hj', -, hspec⟩ := job_act hj none (.run job)
      split at hwork
      · cases hwork
        have hspec' : j'.toJobSpec = j.toJobSpec := hspec
        refine ⟨.count j'.toJobSpec j.observer.isSome ((b.act (.run job)).isCancelled j'.token) 0
          (.start j.options j.roots), ?_, rfl, by rw [hspec']⟩
        rw [duty, hj']
        rfl
      · cases hwork
  | submit lane label held token =>
      rw [enters] at h
      split at h
      · cases h
        have herrands : ∃ x, (b.act (.submit lane label held token)).errands[b.errands.length]? =
            some x := by
          cases token <;>
            exact ⟨_, (congrArg (·[b.errands.length]?) (errands_setLane _ _ lane)).trans
              List.getElem?_concat_length⟩
        obtain ⟨x, hx⟩ := herrands
        let c := b.act (.submit lane label held token)
        refine ⟨.errand x.held (c.isCancelled x.token) none, ?_, rfl⟩
        rw [duty, hx]
        rfl
      · cases h
  | _ => cases h

theorem mirrors_act (h : Mirrors b.duty (b.lane l) items d) (ha : a.Lone) :
    Mirrors (b.act a).duty ((b.act a).lane l) (items ++ ((b.enters l a).map Work.item).toList)
      (d.follow (b.notices l items a)) := by
  rw [notices, Desk.follow_append, Desk.follow_append, Desk.follow_append]
  cases hmoves : a.moves l with
  | false =>
      have hrenew := mirrors_renew h a
      rw [lane_act b l hmoves, if_neg Bool.false_ne_true]
      cases hwork : b.enters l a with
      | none =>
          rw [Option.map_none, Option.toList_none, Option.toList_none, List.append_nil,
            List.append_nil]
          exact hrenew
      | some work =>
          obtain ⟨x, hx, -⟩ := duty_enters hwork
          rw [Option.bind_some, hx]
          exact hrenew.enter hx
  | true =>
      cases a with
      | move lane k =>
          obtain rfl : lane = l := of_decide_eq_true hmoves
          obtain rfl : k = 0 := ha
          have hlifts : (Action.move lane 0 : Action α).lifts = fun _ => false := by
            funext x
            cases x <;> rfl
          have hrenew := mirrors_renew (mirrors_move h).mirrors (.move lane 0)
          have henters : b.enters lane (.move lane 0) = none := rfl
          rw [hlifts, numbers_false] at hrenew ⊢
          rw [if_pos rfl, henters, Option.map_none, Option.toList_none, List.append_nil]
          exact hrenew
      | _ => cases hmoves

def entered (b : Background α) (l : Lane) : List (Action α) → List Item
  | [] => []
  | a :: script => ((b.enters l a).map Work.item).toList ++ (b.act a).entered l script

/-- All that a lane notices of a script, when these items have been handed in to it before. -/
def noticed (b : Background α) (l : Lane) (items : List Item) : List (Action α) → List Notice
  | [] => []
  | a :: script => b.notices l items a ++
      (b.act a).noticed l (items ++ ((b.enters l a).map Work.item).toList) script

def sentBy (b : Background α) (l : Lane) : List (Action α) → List (Letter α) :=
  b.sentWhere fun _ a => a.moves l

theorem mirrors_play {script : List (Action α)} (hlone : ∀ a ∈ script, a.Lone)
    (h : Mirrors b.duty (b.lane l) items d) :
    Mirrors (b.play script).duty ((b.play script).lane l) (items ++ b.entered l script)
      (d.follow (b.noticed l items script)) := by
  induction script generalizing b items d with
  | nil =>
      rw [entered, List.append_nil]
      exact h
  | cons a script ih =>
      have hrest := ih (fun x hx => hlone x (List.mem_cons_of_mem _ hx))
        (mirrors_act h (hlone a List.mem_cons_self))
      rw [entered, noticed, Desk.follow_append, ← List.append_assoc]
      exact hrest

/-- What was sent is what was said, with the names that the work has outside. -/
structure Tells (letters : List (Letter α)) (items : List Item) (d : Desk) : Prop where
  about : ∀ x ∈ d.said, ∃ y, items[x.1]? = some y ∧ x.2.About y
  letters : letters = d.said.filterMap fun x => items[x.1]?.bind x.2.letter?

theorem Tells.more {letters : List (Letter α)} (h : Tells letters items d) (more : List Item) :
    Tells letters (items ++ more) d := by
  have hsame (x : Nat × Word) (hx : x ∈ d.said) : (items ++ more)[x.1]? = items[x.1]? := by
    obtain ⟨y, hy, -⟩ := h.about x hx
    exact List.getElem?_append_left (List.getElem?_eq_some_iff.1 hy).1
  refine ⟨fun x hx => ?_, ?_⟩
  · rw [hsame x hx]
    exact h.about x hx
  · rw [h.letters]
    exact List.filterMap_congr fun x hx => by rw [hsame x hx]

theorem said_follow {β : Type} {f : β → Notice} (hf : ∀ x, f x ≠ .move) (l : List β) (d : Desk) :
    (d.follow (l.map f)).said = d.said := by
  induction l generalizing d with
  | nil => rfl
  | cons x l ih =>
      refine (ih (d.mark (f x))).trans ?_
      cases hx : f x with
      | enter y => rfl
      | lift n => exact d.said_renew n _
      | stop n => exact d.said_renew n _
      | move => exact absurd hx (hf x)

theorem tells_act {letters : List (Letter α)} (h : Tells letters items d)
    (hm : Mirrors b.duty (b.lane l) items d) (ha : a.Lone) :
    Tells (letters ++ if a.moves l then b.sends a else [])
      (items ++ ((b.enters l a).map Work.item).toList) (d.follow (b.notices l items a)) := by
  refine Tells.more ?_ _
  have hlifts (d : Desk) : (d.follow ((numbers a.lifts items).map .lift)).said = d.said :=
    said_follow (by simp) _ d
  have hstops (d : Desk) : (d.follow ((numbers (b.stops a) items).map .stop)).said = d.said :=
    said_follow (by simp) _ d
  have henter (d : Desk) :
      (d.follow (((b.enters l a).bind (b.act a).duty).toList.map .enter)).said = d.said :=
    said_follow (by simp) _ d
  have hsaid : (d.follow (b.notices l items a)).said =
      ((d.follow ((numbers a.lifts items).map .lift)).follow
        (if a.moves l then [.move] else [])).said := by
    rw [notices, Desk.follow_append, Desk.follow_append, Desk.follow_append, henter, hstops]
  cases hmoves : a.moves l with
  | false =>
      rw [hmoves, if_neg Bool.false_ne_true] at hsaid
      rw [if_neg Bool.false_ne_true, List.append_nil]
      have hsame : (d.follow (b.notices l items a)).said = d.said := hsaid.trans (hlifts d)
      exact ⟨by rw [hsame]; exact h.about, by rw [hsame]; exact h.letters⟩
  | true =>
      cases a with
      | move lane k =>
          obtain rfl : lane = l := of_decide_eq_true hmoves
          obtain rfl : k = 0 := ha
          have hnone : (Action.move lane 0 : Action α).lifts = fun _ => false := by
            funext x
            cases x <;> rfl
          obtain ⟨more, hmore, habout, hsends⟩ := (mirrors_move hm).said
          rw [hmoves, if_pos rfl, hnone, numbers_false] at hsaid
          have hsame : (d.follow (b.notices lane items (.move lane 0))).said = d.said ++ more :=
            hsaid.trans hmore
          rw [if_pos rfl, hsends]
          refine ⟨fun x hx => ?_, ?_⟩
          · rw [hsame] at hx
            rcases List.mem_append.1 hx with hx | hx
            · exact h.about x hx
            · exact habout x hx
          · rw [hsame, List.filterMap_append, ← h.letters]
      | _ => cases hmoves

theorem tells_play {script : List (Action α)} (hlone : ∀ a ∈ script, a.Lone)
    {letters : List (Letter α)} (h : Tells letters items d)
    (hm : Mirrors b.duty (b.lane l) items d) :
    Tells (letters ++ b.sentBy l script) (items ++ b.entered l script)
      (d.follow (b.noticed l items script)) := by
  induction script generalizing b items d letters with
  | nil =>
      rw [entered, sentBy, sentWhere, List.append_nil, List.append_nil]
      exact h
  | cons a script ih =>
      have ha := hlone a List.mem_cons_self
      have hrest := ih (fun x hx => hlone x (List.mem_cons_of_mem _ hx)) (tells_act h hm ha)
        (mirrors_act hm ha)
      rw [entered, noticed, sentBy, sentWhere, Desk.follow_append, ← List.append_assoc,
        ← List.append_assoc]
      exact hrest

end Background

end TreeTally
