import Mathlib.Algebra.GroupWithZero.Nat
import TreeTally.Background.Worker
import TreeTally.Proofs.Walk.Advance

namespace TreeTally

def JobSpec.plan (s : JobSpec) : Plan := .ofOptions s.fs s.options s.clock s.roots

/-- The count comes to an end with the effort it is given. -/
def JobSpec.Ends (s : JobSpec) : Prop :=
  ∃ k ≤ s.effort, (Walk.advance s.plan k (.start s.options s.roots)).2.finished?.isSome = true

def Signal.number : Signal → Nat
  | .event (.progress _) | .log _ => 0
  | .event _ => 1

def Signal.report? : Signal → Option Tally
  | .event (.progress t) => some t
  | .event _ | .log _ => none

inductive Finish
  | counted (e : Ending)
  | errandDone (first second : Bool)

inductive Word
  | progress (t : Tally)
  | finished (f : Finish)

def Word.finish? : Word → Option Finish
  | progress _ => none
  | finished f => some f

/-- Work as its worker sees it: what is to be done, whether anybody watches, whether its token is
cancelled, and how far it has come. -/
inductive Duty
  | count (spec : JobSpec) (watched cancelled : Bool) (seen : Nat) (walk : Walk)
  | errand (held cancelled : Bool) (first : Option Bool)

inductive Moved
  | finished (f : Finish)
  | goes (report : Option Tally) (left : Duty)

namespace Duty

def lift : Duty → Duty
  | count spec watched cancelled seen walk =>
      count { spec with barrier := { spec.barrier with lifted := true } } watched cancelled seen walk
  | errand _ cancelled first => errand false cancelled first

def stop : Duty → Duty
  | count spec watched _ seen walk => count spec watched true seen walk
  | errand held _ first => errand held true first

def waits : Duty → Bool
  | count spec _ _ seen _ => decide (seen ≠ 0 ∧ seen = spec.barrier.event ∧ !spec.barrier.lifted)
  | errand held _ first => first.isSome && held

def move : Duty → Moved
  | count spec watched cancelled seen walk =>
      match walk.finished? with
      | some e => .finished (.counted e)
      | none =>
          let (walk, s) := walk.step spec.plan cancelled
          .goes (if watched then s.bind Signal.report? else none)
            (count spec watched cancelled (seen + s.elim 0 Signal.number) walk)
  | errand held cancelled none => .goes none (errand held cancelled (some cancelled))
  | errand _ cancelled (some first) => .finished (.errandDone first cancelled)

def Fresh : Duty → Prop
  | count spec _ _ seen walk => seen = 0 ∧ walk = .start spec.options spec.roots
  | errand _ _ first => first = none

def Within (n : Nat) : Duty → Prop
  | count spec _ _ _ walk =>
      ∃ k < n, (Walk.advance spec.plan k walk).2.finished?.isSome = true
  | errand _ _ none => 2 ≤ n
  | errand _ _ (some _) => 1 ≤ n

def effort : Duty → Nat
  | count spec _ _ _ _ => spec.effort + 1
  | errand _ _ _ => 2

theorem waits_stop (x : Duty) : x.stop.waits = x.waits := by cases x <;> rfl

theorem lift_lift (x : Duty) : x.lift.lift = x.lift := by cases x <;> rfl

theorem stop_stop (x : Duty) : x.stop.stop = x.stop := by cases x <;> rfl

theorem fresh_lift {x : Duty} (h : x.Fresh) : x.lift.Fresh := by cases x <;> exact h

theorem fresh_stop {x : Duty} (h : x.Fresh) : x.stop.Fresh := by cases x <;> exact h

theorem within_lift {n : Nat} {x : Duty} : x.lift.Within n ↔ x.Within n := by
  cases x with
  | count => exact Iff.rfl
  | errand held cancelled first => cases first <;> exact Iff.rfl

theorem within_stop {n : Nat} {x : Duty} : x.stop.Within n ↔ x.Within n := by
  cases x with
  | count => exact Iff.rfl
  | errand held cancelled first => cases first <;> exact Iff.rfl

theorem effort_lift (x : Duty) : x.lift.effort = x.effort := by cases x <;> rfl

theorem effort_stop (x : Duty) : x.stop.effort = x.effort := by cases x <;> rfl

theorem within_pos {n : Nat} {x : Duty} (h : x.Within n) : 0 < n := by
  cases x with
  | count =>
      obtain ⟨k, hk, -⟩ := h
      exact Nat.zero_lt_of_lt hk
  | errand held cancelled first =>
      cases first with
      | none => exact Nat.lt_of_lt_of_le Nat.two_pos h
      | some first => exact h

theorem Within.mono {n m : Nat} {x : Duty} (h : x.Within n) (hnm : n ≤ m) : x.Within m := by
  cases x with
  | count =>
      obtain ⟨k, hk, hend⟩ := h
      exact ⟨k, Nat.lt_of_lt_of_le hk hnm, hend⟩
  | errand held cancelled first => cases first <;> exact Nat.le_trans h hnm

theorem step_cancelled (P : Plan) (w : Walk) :
    w.step P true = w.step P false ∨ (w.step P true).1.finished?.isSome = true := by
  cases h : w.stage.readsToken with
  | false =>
      left
      simp [Walk.step, h]
  | true =>
      right
      simp [Walk.step, h, Walk.cancel, Walk.stop, Walk.finished?]

theorem within_move {n : Nat} {x y : Duty} {report : Option Tally} (h : x.Within (n + 1))
    (hmove : x.move = .goes report y) : y.Within n := by
  cases x with
  | count spec watched cancelled seen walk =>
      obtain ⟨k, hk, hend⟩ := h
      rw [move] at hmove
      split at hmove
      · cases hmove
      · rename_i hfin
        cases hmove
        cases k with
        | zero =>
            rw [show (Walk.advance spec.plan 0 walk).2 = walk from rfl, hfin] at hend
            cases hend
        | succ k =>
            have hlt : k < n := Nat.lt_of_succ_lt_succ hk
            rw [Walk.advance_succ] at hend
            cases cancelled with
            | false => exact ⟨k, hlt, hend⟩
            | true =>
                rcases step_cancelled spec.plan walk with hsame | hstopped
                · have hrest : (Walk.advance spec.plan k
                      (walk.step spec.plan true).1).2.finished?.isSome = true := by
                    rw [hsame]
                    exact hend
                  exact ⟨k, hlt, hrest⟩
                · exact ⟨0, Nat.zero_lt_of_lt hlt, hstopped⟩
  | errand held cancelled first =>
      cases first with
      | none =>
          cases hmove
          exact Nat.le_of_succ_le_succ h
      | some first => cases hmove

theorem effort_move {x y : Duty} {report : Option Tally} (hmove : x.move = .goes report y) :
    y.effort = x.effort := by
  cases x with
  | count spec watched cancelled seen walk =>
      rw [move] at hmove
      split at hmove
      · cases hmove
      · cases hmove
        rfl
  | errand held cancelled first =>
      cases first with
      | none =>
          cases hmove
          rfl
      | some first => cases hmove

end Duty

/-- What the worker of a lane gets to notice. Work goes by the number under which it was handed in. -/
inductive Notice
  | enter (x : Duty)
  | lift (n : Nat)
  | stop (n : Nat)
  | move

def Notice.Sound : Notice → Prop
  | enter x => x.Fresh
  | lift _ | stop _ | move => True

def Notice.Ends : Notice → Prop
  | enter x => x.Within x.effort
  | lift _ | stop _ | move => True

/-- All work that was handed in: how that which is finished ended, and how the rest stands; and what
the worker has said about which work. -/
structure Desk where
  finished : List Finish := []
  waiting : List Duty := []
  said : List (Nat × Word) := []

namespace Desk

variable {d : Desk}

def renew (d : Desk) (n : Nat) (f : Duty → Duty) : Desk :=
  if n < d.finished.length then d
  else { d with waiting := d.waiting.modify (n - d.finished.length) f }

def move (d : Desk) : Desk :=
  match d.waiting with
  | [] => d
  | x :: rest =>
      if x.waits then d
      else match x.move with
        | .finished f => ⟨d.finished ++ [f], rest, d.said ++ [(d.finished.length, .finished f)]⟩
        | .goes report y =>
            { d with
              waiting := y :: rest
              said := d.said ++ report.toList.map fun t => (d.finished.length, .progress t) }

def mark (d : Desk) : Notice → Desk
  | .enter x => { d with waiting := d.waiting ++ [x] }
  | .lift n => d.renew n .lift
  | .stop n => d.renew n .stop
  | .move => d.move

def follow (d : Desk) (l : List Notice) : Desk := l.foldl mark d

theorem follow_append (d : Desk) (l m : List Notice) : d.follow (l ++ m) = (d.follow l).follow m :=
  List.foldl_append

def Rests (d : Desk) : Prop := ∀ x ∈ d.waiting.head?, x.waits = true

theorem move_rests (h : d.Rests) : d.move = d := by
  rw [move]
  cases hw : d.waiting with
  | nil => rfl
  | cons x rest =>
      have hx : x.waits = true := h x (by rw [hw]; rfl)
      exact if_pos hx

theorem finished_renew (d : Desk) (n : Nat) (f : Duty → Duty) :
    (d.renew n f).finished = d.finished := by
  rw [renew]
  split <;> rfl

theorem said_renew (d : Desk) (n : Nat) (f : Duty → Duty) : (d.renew n f).said = d.said := by
  rw [renew]
  split <;> rfl

theorem waiting_renew (d : Desk) (n : Nat) (f : Duty → Duty) (k : Nat) :
    (d.renew n f).waiting[k]? =
      d.waiting[k]?.map fun x => if n = d.finished.length + k then f x else x := by
  rw [renew]
  split
  · rename_i h
    have hne : n ≠ d.finished.length + k := by omega
    simp [hne]
  · rename_i h
    have hiff : (n - d.finished.length = k) = (n = d.finished.length + k) :=
      propext ⟨fun hk => by omega, fun hk => by omega⟩
    rw [List.getElem?_modify]
    simp only [hiff]
    rfl

/-- The same change at several numbers, where it is all the same how often a change is made. -/
theorem renew_foldl {f : Duty → Duty} (hf : ∀ x, f (f x) = f x) (ns : List Nat) (d : Desk) :
    (ns.foldl (fun d n => d.renew n f) d).finished = d.finished ∧
      (ns.foldl (fun d n => d.renew n f) d).said = d.said ∧
      ∀ k, (ns.foldl (fun d n => d.renew n f) d).waiting[k]? =
        d.waiting[k]?.map fun x => if d.finished.length + k ∈ ns then f x else x := by
  induction ns generalizing d with
  | nil => exact ⟨rfl, rfl, fun k => by simp⟩
  | cons n ns ih =>
      obtain ⟨hfinished, hsaid, hwaiting⟩ := ih (d.renew n f)
      rw [finished_renew] at hfinished
      rw [said_renew] at hsaid
      refine ⟨hfinished, hsaid, fun k => (hwaiting k).trans ?_⟩
      rw [waiting_renew, finished_renew, Option.map_map]
      refine congrArg (Option.map · d.waiting[k]?) (funext fun x => ?_)
      by_cases hn : n = d.finished.length + k
      · by_cases hmem : d.finished.length + k ∈ ns <;> simp [hn, hmem, hf]
      · by_cases hmem : d.finished.length + k ∈ ns <;> simp [hn, hmem, Ne.symm hn]

/-- At any time the worker is at the first work that waits, and has finished all before; and it has
said so of each once, in this order. -/
structure Orderly (d : Desk) : Prop where
  fresh : ∀ k x, d.waiting[k + 1]? = some x → x.Fresh
  ends : d.said.filterMap (fun x => x.2.finish?.map (x.1, ·)) =
    d.finished.zipIdx.map fun x => (x.2, x.1)

def Fits (d : Desk) : Prop := ∀ (k : Nat) (x : Duty), d.waiting[k]? = some x → x.Within x.effort

theorem orderly_new : ({} : Desk).Orderly := ⟨by simp, rfl⟩

theorem fits_new : ({} : Desk).Fits := by simp [Fits]

theorem orderly_renew {n : Nat} {f : Duty → Duty} (hf : ∀ x : Duty, x.Fresh → (f x).Fresh)
    (h : d.Orderly) : (d.renew n f).Orderly := by
  refine ⟨fun k x hx => ?_, ?_⟩
  · rw [waiting_renew] at hx
    obtain ⟨y, hy, rfl⟩ := Option.map_eq_some_iff.1 hx
    have hfresh := h.fresh k y hy
    split
    · exact hf y hfresh
    · exact hfresh
  · rw [said_renew, finished_renew]
    exact h.ends

theorem orderly_move (h : d.Orderly) : d.move.Orderly := by
  rw [move]
  cases hw : d.waiting with
  | nil => exact h
  | cons x rest =>
      have hrest (k : Nat) (y : Duty) (hy : rest[k]? = some y) : y.Fresh :=
        h.fresh k y (by rw [hw]; exact hy)
      dsimp only
      split
      · exact h
      split
      · rename_i f hmove
        refine ⟨fun k y hy => hrest (k + 1) y hy, ?_⟩
        rw [List.filterMap_append, h.ends, List.zipIdx_append, List.map_append]
        simp [Word.finish?]
      · rename_i report y hmove
        refine ⟨fun k z hz => hrest k z hz, ?_⟩
        rw [List.filterMap_append, h.ends]
        cases report <;> simp [Word.finish?]

theorem orderly_mark {x : Notice} (hx : x.Sound) (h : d.Orderly) : (d.mark x).Orderly := by
  cases x with
  | enter y =>
      refine ⟨fun k z hz => ?_, h.ends⟩
      rw [show (d.mark (.enter y)).waiting = d.waiting ++ [y] from rfl, List.getElem?_append] at hz
      split at hz
      · exact h.fresh k z hz
      · obtain rfl : y = z := by
          have hmem := List.mem_of_getElem? hz
          exact (List.mem_singleton.1 hmem).symm
        exact hx
  | lift n => exact orderly_renew (fun _ => Duty.fresh_lift) h
  | stop n => exact orderly_renew (fun _ => Duty.fresh_stop) h
  | move => exact orderly_move h

theorem orderly_follow {l : List Notice} (hl : ∀ x ∈ l, x.Sound) (h : d.Orderly) :
    (d.follow l).Orderly := by
  induction l generalizing d with
  | nil => exact h
  | cons x l ih =>
      exact ih (fun y hy => hl y (List.mem_cons_of_mem _ hy)) (orderly_mark (hl x List.mem_cons_self) h)

def Within (d : Desk) (n : Nat) : Prop :=
  ∃ ns : List Nat, ns.length = d.waiting.length ∧ ns.sum ≤ n ∧
    ∀ (k : Nat) (x : Duty), d.waiting[k]? = some x → x.Within (ns[k]?.getD 0)

theorem fits_renew {n : Nat} {f : Duty → Duty} (hf : ∀ m (x : Duty), (f x).Within m ↔ x.Within m)
    (hf' : ∀ x, (f x).effort = x.effort) (h : d.Fits) : (d.renew n f).Fits := by
  intro k x hx
  rw [waiting_renew] at hx
  obtain ⟨y, hy, rfl⟩ := Option.map_eq_some_iff.1 hx
  have hy' := h k y hy
  split
  · rw [hf', hf]
    exact hy'
  · exact hy'

theorem fits_move (h : d.Fits) : d.move.Fits := by
  rw [move]
  cases hw : d.waiting with
  | nil => exact h
  | cons x rest =>
      have hx : x.Within x.effort := h 0 x (by rw [hw]; rfl)
      have hrest (k : Nat) (y : Duty) (hy : rest[k]? = some y) : y.Within y.effort :=
        h (k + 1) y (by rw [hw]; exact hy)
      dsimp only
      split
      · exact h
      split
      · exact hrest
      · rename_i report y hmove
        intro k z hz
        cases k with
        | zero =>
            obtain rfl : y = z := Option.some.inj hz
            obtain ⟨n, hn⟩ : ∃ n, x.effort = n + 1 :=
              Nat.exists_eq_succ_of_ne_zero (Nat.ne_of_gt (Duty.within_pos hx))
            rw [Duty.effort_move hmove]
            rw [hn] at hx ⊢
            exact (Duty.within_move hx hmove).mono (Nat.le_succ n)
        | succ k => exact hrest k z hz

theorem fits_mark {x : Notice} (hx : x.Ends) (h : d.Fits) : (d.mark x).Fits := by
  cases x with
  | enter y =>
      intro k z hz
      rw [show (d.mark (.enter y)).waiting = d.waiting ++ [y] from rfl, List.getElem?_append] at hz
      split at hz
      · exact h k z hz
      · have hmem := List.mem_of_getElem? hz
        rw [List.mem_singleton.1 hmem]
        exact hx
  | lift n => exact fits_renew (fun _ _ => Duty.within_lift) Duty.effort_lift h
  | stop n => exact fits_renew (fun _ _ => Duty.within_stop) Duty.effort_stop h
  | move => exact fits_move h

theorem fits_follow {l : List Notice} (hl : ∀ x ∈ l, x.Ends) (h : d.Fits) : (d.follow l).Fits := by
  induction l generalizing d with
  | nil => exact h
  | cons x l ih =>
      exact ih (fun y hy => hl y (List.mem_cons_of_mem _ hy)) (fits_mark (hl x List.mem_cons_self) h)

theorem within_of_fits (h : d.Fits) : d.Within (d.waiting.map Duty.effort).sum := by
  refine ⟨d.waiting.map Duty.effort, List.length_map _, Nat.le_refl _, fun k x hx => ?_⟩
  rw [List.getElem?_map, hx]
  exact h k x hx

theorem within_move {n : Nat} (h : d.Within n) (hrests : ¬ d.Rests) :
    ∃ m, n = m + 1 ∧ d.move.Within m := by
  obtain ⟨ns, hlength, hsum, hns⟩ := h
  rw [move]
  cases hw : d.waiting with
  | nil =>
      refine absurd (fun x hx => ?_) hrests
      rw [hw] at hx
      cases hx
  | cons x rest =>
      rw [hw] at hlength hns
      obtain ⟨m, ms, rfl⟩ := List.exists_cons_of_length_eq_add_one hlength
      have hx : x.Within m := hns 0 x rfl
      have hrest (k : Nat) (y : Duty) (hy : rest[k]? = some y) : y.Within (ms[k]?.getD 0) :=
        hns (k + 1) y hy
      have hlength' : ms.length = rest.length := Nat.succ.inj hlength
      have hwaits : x.waits = false := by
        refine Bool.eq_false_iff.2 fun hwaits => hrests fun y hy => ?_
        rw [hw] at hy
        obtain rfl : x = y := Option.some.inj hy
        exact hwaits
      obtain ⟨j, rfl⟩ : ∃ j, m = j + 1 :=
        Nat.exists_eq_succ_of_ne_zero (Nat.ne_of_gt (Duty.within_pos hx))
      rw [List.sum_cons] at hsum
      refine ⟨n - 1, by omega, ?_⟩
      dsimp only
      rw [hwaits, if_neg Bool.false_ne_true]
      split
      · exact ⟨ms, hlength', by omega, hrest⟩
      · rename_i report y hmove
        refine ⟨j :: ms, congrArg (· + 1) hlength', by rw [List.sum_cons]; omega, fun k z hz => ?_⟩
        cases k with
        | zero =>
            obtain rfl : y = z := Option.some.inj hz
            exact Duty.within_move hx hmove
        | succ k => exact hrest k z hz

theorem within_stop {n k : Nat} (h : d.Within n) : (d.mark (.stop k)).Within n := by
  obtain ⟨ns, hlength, hsum, hns⟩ := h
  refine ⟨ns, ?_, hsum, fun j x hx => ?_⟩
  · rw [mark, renew]
    split
    · exact hlength
    · exact hlength.trans (List.length_modify _ _ _).symm
  · rw [mark, waiting_renew] at hx
    obtain ⟨y, hy, rfl⟩ := Option.map_eq_some_iff.1 hx
    have hy' := hns j y hy
    split
    · exact Duty.within_stop.2 hy'
    · exact hy'

theorem rests_of_within_zero (h : d.Within 0) : d.Rests := by
  by_cases hrests : d.Rests
  · exact hrests
  · obtain ⟨m, hm, -⟩ := within_move h hrests
    cases hm

end Desk

end TreeTally
