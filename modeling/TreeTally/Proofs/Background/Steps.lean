import TreeTally.Proofs.Background.Lanes
import TreeTally.Proofs.Background.Refine

namespace TreeTally

variable {α : Type}

namespace Desk

variable {d e : Desk}

def moves (d : Desk) (n : Nat) : Desk := d.follow (List.replicate n .move)

theorem moves_rests (h : d.Rests) (n : Nat) : d.moves n = d := by
  induction n with
  | zero => rfl
  | succ n ih =>
      have hmove : d.mark .move = d := move_rests h
      rw [moves, List.replicate_succ]
      show (d.mark .move).moves n = d
      rw [hmove, ih]

theorem moves_add (d : Desk) (m n : Nat) : d.moves (m + n) = (d.moves m).moves n := by
  rw [moves, List.replicate_add, follow_append]
  rfl

theorem moves_eq {m n : Nat} (hm : (d.moves m).Rests) (hn : (d.moves n).Rests) :
    d.moves m = d.moves n := by
  rcases Nat.le_total m n with h | h
  · obtain ⟨k, rfl⟩ := Nat.exists_eq_add_of_le h
    rw [moves_add, moves_rests hm]
  · obtain ⟨k, rfl⟩ := Nat.exists_eq_add_of_le h
    rw [moves_add, moves_rests hn]

/-- The worker notices one group of things after the other, and goes on in between until it rests. -/
inductive Goes : Desk → List (List Notice) → Desk → Prop
  | nil (d : Desk) : Goes d [] d
  | cons {d e : Desk} {g : List Notice} {gs : List (List Notice)} (n : Nat)
      (hrests : ((d.follow g).moves n).Rests) (h : Goes ((d.follow g).moves n) gs e) :
      Goes d (g :: gs) e

theorem Goes.unique {e' : Desk} {gs : List (List Notice)} (h : Goes d gs e) (h' : Goes d gs e') :
    e = e' := by
  induction h with
  | nil d =>
      cases h'
      rfl
  | cons n hrests _ ih =>
      cases h' with
      | cons m hrests' h' =>
          rw [moves_eq hrests' hrests] at h'
          exact ih h'

open Classical in
noncomputable def outcome (gs : List (List Notice)) : Desk :=
  if h : ∃ e, Goes {} gs e then h.choose else {}

theorem outcome_eq {gs : List (List Notice)} (h : Goes {} gs e) : outcome gs = e := by
  have hex : ∃ e, Goes {} gs e := ⟨e, h⟩
  rw [outcome, dif_pos hex]
  exact hex.choose_spec.unique h

end Desk

/-- The count comes to an end and never cancels its own token. -/
def JobSpec.Plain (s : JobSpec) : Prop := s.Ends ∧ s.interrupt = 0

namespace Background

variable {b c : Background α} {l : Lane} {items : List Item} {d : Desk}

theorem loose_plain : Loose JobSpec.Plain := fun _ h => h

theorem tokens_moveWork {work : Work} {left : Option Work} (hb : Every JobSpec.Plain b)
    (h : b.moveWork work = some (c, left)) : c.tokens = b.tokens := by
  cases work with
  | count i o seen w =>
      obtain ⟨j, hj, ⟨out, -, rfl, -⟩ | ⟨-, rfl, -⟩ | ⟨-, w', s, -, hmove⟩⟩ := moveWork_count h
      · exact tokens_postResult b _
      · rfl
      · cases s with
        | none => rw [hmove.1]
        | some s =>
            have hinterrupt : j.interrupt = 0 := (hb j (List.mem_of_getElem? hj)).2
            rw [hmove.1]
            rcases s with e | m
            · cases e with
              | progress t => cases o <;> rfl
              | _ => simp [hear, hinterrupt, modifyJob]
            · rfl
  | errand e first =>
      obtain ⟨rfl | ⟨x, y, rfl⟩, -⟩ := moveWork_errand (i := 0) h
      · rfl
      · exact tokens_postResult b _

theorem tokens_move (hb : Every JobSpec.Plain b) (l : Lane) (k : Nat) :
    (b.act (.move l k)).tokens = b.tokens := by
  rw [act]
  cases h : b.moveAt l k with
  | none => rfl
  | some c =>
      obtain ⟨work, -, hmove⟩ := Option.bind_eq_some_iff.1 h
      obtain ⟨⟨c, left⟩, hc, rfl⟩ := Option.map_eq_some_iff.1 hmove
      exact (tokens_setLane c _ l).trans (tokens_moveWork hb hc)

theorem notices_quiet {l' : Lane} (hb : Every JobSpec.Plain b) :
    b.notices l items (.move l' 0) = if l' = l then [.move] else [] := by
  have hstops : b.stops (.move l' 0) = fun _ => false := by
    funext x
    have htokens := tokens_move hb l' 0
    rw [stops]
    cases b.tokenOf x with
    | none => rfl
    | some t => simp [isCancelled, htokens]
  have hlifts : (Action.move l' 0 : Action α).lifts = fun _ => false := by
    funext x
    cases x <;> rfl
  have henters : b.enters l (.move l' 0) = none := rfl
  rw [notices, hstops, hlifts, numbers_false, henters, Action.moves]
  by_cases hl : l' = l <;> simp [hl]

theorem noticed_moves {l' : Lane} {n : Nat}
    (hb : Every JobSpec.Plain (b.play (List.replicate n (.move l' 0)))) :
    b.noticed l items (List.replicate n (.move l' 0)) =
      if l' = l then List.replicate n .move else [] := by
  induction n generalizing b items with
  | zero => split <;> rfl
  | succ n ih =>
      rw [List.replicate_succ] at hb ⊢
      have hnow : Every JobSpec.Plain b := every_of_reaches loose_plain ⟨_, rfl⟩ hb
      rw [noticed, notices_quiet hnow, ih hb]
      split <;> rfl

theorem noticed_append (b : Background α) (l : Lane) (items : List Item) (s t : List (Action α)) :
    b.noticed l items (s ++ t) =
      b.noticed l items s ++ (b.play s).noticed l (items ++ b.entered l s) t := by
  induction s generalizing b items with
  | nil =>
      rw [entered, List.append_nil]
      rfl
  | cons a s ih =>
      rw [List.cons_append, noticed, ih, noticed, entered, ← List.append_assoc, List.append_assoc items]
      rfl

def steps (b : Background α) (script : List (Action α)) : Background α :=
  script.foldl (fun b a => (b.act a).settle) b

/-- What a lane notices of the actions themselves, except those of which it notices nothing. -/
def orders (b : Background α) (l : Lane) (items : List Item) :
    List (Action α) → List (List Notice)
  | [] => []
  | a :: script =>
      let rest := ((b.act a).settle).orders l
        (items ++ ((b.enters l a).map Work.item).toList) script
      if (b.notices l items a).isEmpty then rest else b.notices l items a :: rest

theorem reaches_steps (b : Background α) (script : List (Action α)) :
    b.Reaches (b.steps script) := by
  induction script generalizing b with
  | nil => exact .refl b
  | cons a script ih =>
      exact ((reaches_act b a).trans (reaches_settle (b.act a))).trans (ih (b.act a).settle)

theorem entered_moves (b : Background α) (l l' : Lane) (n : Nat) :
    b.entered l (List.replicate n (.move l' 0)) = [] := by
  induction n generalizing b with
  | zero => rfl
  | succ n ih => exact ih (b.act (.move l' 0))

theorem entered_append (b : Background α) (l : Lane) (s t : List (Action α)) :
    b.entered l (s ++ t) = b.entered l s ++ (b.play s).entered l t := by
  induction s generalizing b with
  | nil => rfl
  | cons a s ih =>
      rw [List.cons_append, entered, ih, entered, List.append_assoc]
      rfl

theorem entered_settling (b : Background α) (l : Lane) (m n : Nat) :
    b.entered l (settling m n) = [] := by
  rw [settling, entered_append, entered_moves, entered_moves]
  rfl

theorem noticed_settling (items : List Item) {m n : Nat}
    (hb : Every JobSpec.Plain (b.play (settling m n))) (l : Lane) :
    ∃ k, b.noticed l items (settling m n) = List.replicate k .move := by
  have hmid : Every JobSpec.Plain (b.play (List.replicate m (.move .default 0))) := by
    refine every_of_reaches loose_plain ⟨List.replicate n (.move .idle 0), ?_⟩ hb
    rw [settling, play_append]
  rw [settling, play_append] at hb
  rw [settling, noticed_append, noticed_moves hmid, noticed_moves hb]
  cases l with
  | default => exact ⟨m, by simp⟩
  | idle => exact ⟨n, by simp⟩

theorem ends_play {i : Nat} {j : Job} (hj : b.jobs[i]? = some j) (hends : j.toJobSpec.Ends)
    (script : List (Action α)) : ∃ j', (b.play script).jobs[i]? = some j' ∧ j'.toJobSpec.Ends := by
  induction script generalizing b j with
  | nil => exact ⟨j, hj, hends⟩
  | cons a script ih =>
      obtain ⟨j', hj', -, hspec⟩ := job_act hj none a
      refine ih hj' ?_
      rw [hspec]
      split
      · exact hends
      · exact hends

/-- The lane stands as on its desk, where the worker rests and there is an end to all that waits. -/
structure Rested (b : Background α) (l : Lane) (items : List Item) (d : Desk) : Prop where
  mirrors : Mirrors b.duty (b.lane l) items d
  fits : d.Fits
  rests : d.Rests

theorem rested_step {items : Lane → List Item} {d : Lane → Desk} {a : Action α} (ha : a.Lone)
    (hplain : Every JobSpec.Plain (b.act a).settle) (h : ∀ l, b.Rested l (items l) (d l)) :
    ∃ m n, (b.act a).settle = (b.act a).play (settling m n) ∧ ∀ l, ∃ k,
      (b.act a).noticed l (items l ++ ((b.enters l a).map Work.item).toList) (settling m n) =
        List.replicate k .move ∧
      (b.act a).settle.Rested l (items l ++ ((b.enters l a).map Work.item).toList)
        (((d l).follow (b.notices l (items l) a)).moves k) := by
  have hends : Every JobSpec.Ends (b.act a) := fun j hj =>
    (every_of_reaches loose_plain (reaches_settle (b.act a)) hplain j hj).1
  have hm (l : Lane) := mirrors_act (h l).mirrors ha
  have hfits (l : Lane) := Desk.fits_follow (ends_notices hends l (items l)) (h l).fits
  obtain ⟨m, n, hsettle, hrest⟩ := settle_eq hm hfits
  refine ⟨m, n, hsettle, fun l => ?_⟩
  obtain ⟨k, hk⟩ := noticed_settling (items l ++ ((b.enters l a).map Work.item).toList)
    (hsettle ▸ hplain) l
  have hmirrors := mirrors_play (lone_settling m n) (hm l)
  rw [← hsettle, entered_settling, List.append_nil, hk] at hmirrors
  refine ⟨k, hk, hmirrors, Desk.fits_follow (fun x hx => ?_) (hfits l), (atRest_iff hmirrors).1 (hrest l)⟩
  rw [List.eq_of_mem_replicate hx]
  trivial

/-- Steps are a script of their own, and each lane goes the way of its orders. -/
theorem steps_eq {items : Lane → List Item} {d : Lane → Desk} {script : List (Action α)}
    (hlone : ∀ a ∈ script, a.Lone) (hplain : Every JobSpec.Plain (b.steps script))
    (h : ∀ l, b.Rested l (items l) (d l)) :
    ∃ full : List (Action α), (∀ a ∈ full, a.Lone) ∧ b.steps script = b.play full ∧
      (∀ l, (b.steps script).AtRest l) ∧
      ∀ l, (d l).Goes (b.orders l (items l) script)
        ((d l).follow (b.noticed l (items l) full)) := by
  induction script generalizing b items d with
  | nil =>
      exact ⟨[], List.forall_mem_nil _, rfl, fun l => (atRest_iff (h l).mirrors).2 (h l).rests,
        fun l => .nil (d l)⟩
  | cons a script ih =>
      obtain ⟨ha, hlone⟩ := List.forall_mem_cons.1 hlone
      have hsettled : Every JobSpec.Plain (b.act a).settle :=
        every_of_reaches loose_plain (reaches_steps _ script) hplain
      obtain ⟨m, n, hsettle, hstep⟩ := rested_step ha hsettled h
      choose k hk hrested using hstep
      obtain ⟨full, hfull, hsteps, hlast, hgoes⟩ := ih hlone hplain hrested
      refine ⟨a :: (settling m n ++ full), ?_, ?_, hlast, fun l => ?_⟩
      · refine List.forall_mem_cons.2 ⟨ha, fun x hx => ?_⟩
        rcases List.mem_append.1 hx with hx | hx
        · exact lone_settling m n x hx
        · exact hfull x hx
      · have hplay : b.play (a :: (settling m n ++ full)) =
            ((b.act a).play (settling m n)).play full := play_append _ _ _
        rw [hplay, ← hsettle]
        exact hsteps
      · let items' := items l ++ ((b.enters l a).map Work.item).toList
        let d' := ((d l).follow (b.notices l (items l) a)).moves (k l)
        have hgo : d'.Goes ((b.act a).settle.orders l items' script)
            (d'.follow ((b.act a).settle.noticed l items' full)) := hgoes l
        have hnoticed : (d l).follow (b.noticed l (items l) (a :: (settling m n ++ full))) =
            d'.follow ((b.act a).settle.noticed l items' full) := by
          rw [noticed, noticed_append, hk l, entered_settling, List.append_nil, ← hsettle,
            Desk.follow_append, Desk.follow_append]
          rfl
        rw [hnoticed, orders]
        cases hnone : b.notices l (items l) a with
        | nil =>
            -- Nothing was noticed, so that the lane is still at rest.
            have hsame : d' = d l := by
              show ((d l).follow (b.notices l (items l) a)).moves (k l) = d l
              rw [hnone]
              exact Desk.moves_rests (h l).rests (k l)
            rw [hsame] at hgo ⊢
            exact hgo
        | cons x g =>
            have hgo' : (d l).Goes
                (b.notices l (items l) a :: (b.act a).settle.orders l items' script)
                (d'.follow ((b.act a).settle.noticed l items' full)) :=
              .cons (k l) (hrested l).rests hgo
            rw [hnone] at hgo'
            exact hgo'

/-- Each lane finishes what was handed in to it, in order and one piece at a time, up to the first that
waits at a hold. It does so however the other lane fares. Of each end the owner is told once, or the
log is, and work counts as finished once the owner has heard of its end. -/
theorem lanes_in_order {script : List (Action α)} (hlone : ∀ a ∈ script, a.Lone) :
    let o : Background α := {}
    let b := o.play script
    (∀ l, o.LaneRuns l script) ∧
    (Every JobSpec.Ends b → ∃ m n, b.settle = b.play (settling m n) ∧
      ∀ l, b.settle.AtRest l ∧ o.LaneRuns l (script ++ settling m n)) ∧
    (∀ l script', (∀ a ∈ script', a.Lone) → SameFor l script script' →
      ((o.play script').lane l).map (o.play script').duty = (b.lane l).map b.duty ∧
      ∃ said : List (Nat × Word),
        o.sentBy l script = said.filterMap (fun x => (o.entered l script)[x.1]?.bind x.2.letter?) ∧
        o.sentBy l script' =
          said.filterMap (fun x => (o.entered l script')[x.1]?.bind x.2.letter?)) ∧
    (Every JobSpec.Plain (o.steps script) → ∃ full : List (Action α), (∀ a ∈ full, a.Lone) ∧
      o.steps script = o.play full ∧ ∀ l, (o.steps script).AtRest l ∧ o.LaneRuns l full ∧
        o.desk l full = Desk.outcome (o.orders l [] script)) ∧
    (∀ (c : Background α) (l : Lane) (a : Action α), a.moves l = false → c.enters l a = none →
      (∀ work ∈ c.lane l, a.lifts work.item = false) → c.Undisturbed l a) ∧
    o.taken script <+: o.posted script ∧
    b.warnings = ((o.refused script).filter Letter.isEnd).length ∧
    ∀ n, b.delivered n = some true ↔ ∃ x ∈ o.taken script, x.ended? = some n := by
  intro o b
  have hempty (l : Lane) : Mirrors o.duty (o.lane l) [] {} := by
    cases l <;> exact ⟨rfl, rfl, Nat.le_refl _⟩
  refine ⟨fun l => laneRuns l hlone, fun hends => ?_, fun l script' hlone' hsame => ?_,
    fun hplain => ?_, fun c l a => undisturbed c, (inOrder script).taken, ?_, fun n => ?_⟩
  · have hm (l : Lane) := mirrors_play hlone (hempty l)
    have hfits (l : Lane) : (o.desk l script).Fits :=
      Desk.fits_follow (ends_noticed hends l []) Desk.fits_new
    obtain ⟨m, n, hsettle, hrest⟩ := settle_eq hm hfits
    refine ⟨m, n, hsettle, fun l => ⟨hrest l, laneRuns l fun a ha => ?_⟩⟩
    rcases List.mem_append.1 ha with ha | ha
    · exact hlone a ha
    · exact lone_settling m n a ha
  · have hruns := laneRuns l hlone
    have hruns' := laneRuns l hlone'
    have hdesk : o.desk l script' = o.desk l script := congrArg ({} : Desk).follow hsame.symm
    refine ⟨?_, _, hruns.sent, ?_⟩
    · rw [hruns.stands, hruns'.stands, hdesk]
    · rw [← hdesk]
      exact hruns'.sent
  · have hrests : ({} : Desk).Rests := by simp [Desk.Rests]
    obtain ⟨full, hfull, hsteps, hrest, hgoes⟩ :=
      steps_eq hlone hplain fun l => ⟨hempty l, Desk.fits_new, hrests⟩
    exact ⟨full, hfull, hsteps, fun l =>
      ⟨hrest l, laneRuns l hfull, (Desk.outcome_eq (hgoes l)).symm⟩⟩
  · rw [warnings_play]
    exact Nat.zero_add _
  · have hnew : o.Delivers [] := by
      refine ⟨fun n => ?_, List.forall_mem_nil _⟩
      cases n <;> simp [o, delivered]
    exact (delivers_play hnew script).delivered n

theorem play_cons (b : Background α) (a : Action α) (script : List (Action α)) :
    b.play (a :: script) = (b.act a).play script := rfl

def heldSpec : JobSpec := { sampleSpec ['/', 'a'] with barrier := { event := 2 } }

def sampleLanes : List (Action Nat) :=
  [.create heldSpec, .run 0, .submit .default 7 true none, .submit .default 8 false (some 0)] ++
    List.replicate 9 (.move .idle 0) ++ List.replicate 3 (.move .default 0) ++
    [.cancel 0, .letGo 0] ++ List.replicate 4 (.move .default 0) ++ [.read]

theorem lanes_in_order_sample :
    let o : Background Nat := {}
    let b := o.play sampleLanes
    (o.desk .default sampleLanes).finished.length = 2 ∧
    (o.desk .idle sampleLanes).finished.length = 0 ∧ b.settle.AtRest .idle ∧
    o.LaneRuns .default sampleLanes ∧ o.taken sampleLanes <+: o.posted sampleLanes ∧
    (b.delivered (.errand 0) = some true ↔ ∃ x ∈ o.taken sampleLanes, x.ended? = some (.errand 0)) ∧
    b.delivered (.errand 0) = some true ∧ b.delivered (.errand 1) = some false := by
  intro o b
  have hspec : heldSpec.Ends := ⟨11, by decide, by decide +kernel⟩
  have hlone : ∀ a ∈ sampleLanes, a.Lone := by simp [sampleLanes, Action.Lone]
  have hends : Every JobSpec.Ends b := by
    intro j hj
    obtain ⟨i, hi⟩ := List.getElem?_of_mem hj
    have hlength : b.jobs.length = 1 := by decide +kernel
    obtain rfl : i = 0 := by
      have hlt := (List.getElem?_eq_some_iff.1 hi).1
      omega
    let first : Job := { toJobSpec := heldSpec, token := 0 }
    have hfirst : (o.act (.create heldSpec)).jobs[0]? = some first := rfl
    have hscript : sampleLanes = .create heldSpec :: sampleLanes.drop 1 := rfl
    have hplay : b = (o.act (.create heldSpec)).play (sampleLanes.drop 1) :=
      (congrArg o.play hscript).trans (play_cons o _ _)
    obtain ⟨j', hj', hends'⟩ := ends_play hfirst hspec (sampleLanes.drop 1)
    rw [← hplay] at hj'
    obtain rfl : j' = j := Option.some.inj (hj'.symm.trans hi)
    exact hends'
  obtain ⟨hruns, hsettle, -, -, -, htaken, -, hdelivered⟩ := lanes_in_order hlone
  obtain ⟨m, n, -, hrest⟩ := hsettle hends
  exact ⟨by decide +kernel, by decide +kernel, (hrest .idle).1, hruns .default, htaken,
    hdelivered _, by decide +kernel, by decide +kernel⟩

end Background

end TreeTally
