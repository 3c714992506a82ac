import TreeTally.Proofs.Background.Breadth
import TreeTally.Proofs.Background.Completion
import TreeTally.Proofs.Background.Mirror

namespace TreeTally.Background

variable {α : Type} {b c : Background α} {l : Lane} {items : List Item} {d : Desk} {a : Action α}

def Every (Q : JobSpec → Prop) (b : Background α) : Prop := ∀ j ∈ b.jobs, Q j.toJobSpec

def Loose (Q : JobSpec → Prop) : Prop :=
  ∀ s : JobSpec, Q { s with barrier := { s.barrier with lifted := true } } → Q s

theorem every_of_act {Q : JobSpec → Prop} (hQ : Loose Q) (h : Every Q (b.act a)) : Every Q b := by
  intro j hj
  obtain ⟨i, hi⟩ := List.getElem?_of_mem hj
  obtain ⟨j', hj', -, hspec⟩ := job_act hi none a
  have hj'' := h j' (List.mem_of_getElem? hj')
  rw [hspec] at hj''
  split at hj''
  · exact hQ _ hj''
  · exact hj''

theorem every_of_reaches {Q : JobSpec → Prop} (hQ : Loose Q) (h : b.Reaches c) (hc : Every Q c) :
    Every Q b := by
  obtain ⟨script, rfl⟩ := h
  induction script generalizing b with
  | nil => exact hc
  | cons a script ih => exact every_of_act hQ (ih hc)

theorem loose_ends : Loose JobSpec.Ends := fun _ h => h

theorem within_fresh (hb : Every JobSpec.Ends b) {work : Work} {x : Duty} (hx : b.duty work = some x)
    (hfresh : x.Fresh) : x.Within x.effort := by
  cases work with
  | count i o seen w =>
      obtain ⟨j, hj, rfl⟩ := Option.map_eq_some_iff.1 hx
      obtain ⟨-, rfl⟩ := hfresh
      obtain ⟨k, hk, hend⟩ := hb j (List.mem_of_getElem? hj)
      exact ⟨k, Nat.lt_succ_of_le hk, hend⟩
  | errand e first =>
      obtain ⟨y, -, rfl⟩ := Option.map_eq_some_iff.1 hx
      obtain rfl : first = none := hfresh
      exact Nat.le_refl 2

theorem enter_mem_notices {x : Notice} (hx : x ∈ b.notices l items a) :
    (∃ n, x = .lift n) ∨ x = .move ∨ (∃ n, x = .stop n) ∨
      ∃ y work, x = .enter y ∧ (b.act a).duty work = some y ∧ y.Fresh := by
  rw [notices, List.mem_append, List.mem_append, List.mem_append] at hx
  rcases hx with ((hx | hx) | hx) | hx
  · obtain ⟨n, -, rfl⟩ := List.mem_map.1 hx
    exact .inl ⟨n, rfl⟩
  · split at hx
    · exact .inr (.inl (List.mem_singleton.1 hx))
    · cases hx
  · obtain ⟨n, -, rfl⟩ := List.mem_map.1 hx
    exact .inr (.inr (.inl ⟨n, rfl⟩))
  · obtain ⟨y, hy, rfl⟩ := List.mem_map.1 hx
    obtain ⟨work, hwork, hduty⟩ := Option.bind_eq_some_iff.1 (Option.mem_toList.1 hy)
    obtain ⟨y', hy', hfresh⟩ := duty_enters hwork
    obtain rfl : y' = y := Option.some.inj (hy'.symm.trans hduty)
    exact .inr (.inr (.inr ⟨y', work, rfl, hduty, hfresh⟩))

theorem sound_noticed (b : Background α) (l : Lane) (items : List Item) (script : List (Action α)) :
    ∀ x ∈ b.noticed l items script, x.Sound := by
  induction script generalizing b items with
  | nil =>
      intro x hx
      cases hx
  | cons a script ih =>
      intro x hx
      rcases List.mem_append.1 hx with hx | hx
      · obtain ⟨n, rfl⟩ | rfl | ⟨n, rfl⟩ | ⟨y, work, rfl, -, hfresh⟩ := enter_mem_notices hx
        · trivial
        · trivial
        · trivial
        · exact hfresh
      · exact ih _ _ x hx

theorem ends_notices (hb : Every JobSpec.Ends (b.act a)) (l : Lane) (items : List Item) :
    ∀ x ∈ b.notices l items a, x.Ends := by
  intro x hx
  obtain ⟨n, rfl⟩ | rfl | ⟨n, rfl⟩ | ⟨y, work, rfl, hduty, hfresh⟩ := enter_mem_notices hx
  · trivial
  · trivial
  · trivial
  · exact within_fresh hb hduty hfresh

theorem ends_noticed {script : List (Action α)} (hb : Every JobSpec.Ends (b.play script)) (l : Lane)
    (items : List Item) : ∀ x ∈ b.noticed l items script, x.Ends := by
  induction script generalizing b items with
  | nil =>
      intro x hx
      cases hx
  | cons a script ih =>
      intro x hx
      rcases List.mem_append.1 hx with hx | hx
      · exact ends_notices (every_of_reaches loose_ends ⟨script, rfl⟩ hb) l items x hx
      · exact ih (b := b.act a) hb _ x hx

def AtRest (b : Background α) (l : Lane) : Prop :=
  ∀ work ∈ (b.lane l).head?, ∃ x, b.duty work = some x ∧ x.waits = true

theorem atRest_iff (hm : Mirrors b.duty (b.lane l) items d) : b.AtRest l ↔ d.Rests := by
  have hfirst := (hm.getElem? 0).1
  rw [AtRest, Desk.Rests, List.head?_eq_getElem?, List.head?_eq_getElem?]
  cases hwork : (b.lane l)[0]? with
  | none =>
      cases hx : d.waiting[0]? with
      | none => simp
      | some x => rw [hwork, hx] at hfirst; cases hfirst
  | some work =>
      cases hx : d.waiting[0]? with
      | none => rw [hwork, hx] at hfirst; cases hfirst
      | some x =>
          rw [hwork, hx] at hfirst
          have hduty : b.duty work = some x := Option.some.inj hfirst
          simp [hduty]

theorem atRest_of_moveWorker (hm : Mirrors b.duty (b.lane l) items d)
    (h : b.moveWorker l = none) : b.AtRest l := by
  intro work hwork
  obtain ⟨rest, hlane⟩ : ∃ rest, b.lane l = work :: rest := by
    cases hlane : b.lane l with
    | nil => rw [hlane] at hwork; cases hwork
    | cons first rest =>
        rw [hlane] at hwork
        obtain rfl : first = work := Option.some.inj hwork
        exact ⟨rest, rfl⟩
  have hfirst := (hm.getElem? 0).1
  rw [hlane] at hfirst
  cases hx : d.waiting[0]? with
  | none => rw [hx] at hfirst; cases hfirst
  | some x =>
      rw [hx] at hfirst
      have hduty : b.duty work = some x := Option.some.inj hfirst
      refine ⟨x, hduty, ?_⟩
      rw [← moveAt_zero, moveAt_cons hlane, Option.map_eq_none_iff] at h
      cases hwaits : x.waits with
      | true => rfl
      | false =>
          cases hmove : x.move with
          | finished f =>
              obtain ⟨c, hc, -⟩ := moveWork_finished hduty hwaits hmove
              rw [hc] at h
              cases h
          | goes report y =>
              obtain ⟨c, left, hc, -⟩ := moveWork_goes hduty hwaits hmove
              rw [hc] at h
              cases h

theorem moveWorker_of_atRest (h : b.AtRest l) : b.moveWorker l = none := by
  rw [← moveAt_zero]
  cases hlane : b.lane l with
  | nil =>
      rw [moveAt, hlane]
      rfl
  | cons work rest =>
      obtain ⟨x, hx, hwaits⟩ := h work (by rw [hlane]; rfl)
      rw [moveAt_cons hlane, moveWork_waits hx hwaits]
      rfl

theorem notices_move (b : Background α) (l : Lane) (items : List Item) :
    b.notices l items (.move l 0) =
      .move :: (numbers (b.stops (.move l 0)) items).map .stop := by
  have hlifts : (Action.move l 0 : Action α).lifts = fun _ => false := by
    funext x
    cases x <;> rfl
  have henters : b.enters l (.move l 0) = none := rfl
  have hmoves : (Action.move l 0 : Action α).moves l = true := decide_eq_true rfl
  rw [notices, hlifts, numbers_false, hmoves, if_pos rfl, henters]
  exact List.append_nil _

theorem within_stops {n : Nat} (h : d.Within n) (ns : List Nat) :
    (d.follow (ns.map .stop)).Within n := by
  induction ns generalizing d with
  | nil => exact h
  | cons k ns ih => exact ih (Desk.within_stop h)

theorem settleLane_eq {fuel : Nat} (hm : Mirrors b.duty (b.lane l) items d) (hd : d.Within fuel) :
    ∃ n, settleLane l fuel b = b.play (List.replicate n (.move l 0)) ∧
      (settleLane l fuel b).AtRest l := by
  induction fuel generalizing b d items with
  | zero => exact ⟨0, rfl, (atRest_iff hm).2 (Desk.rests_of_within_zero hd)⟩
  | succ fuel ih =>
      rw [settleLane]
      cases hmove : b.moveWorker l with
      | none => exact ⟨0, rfl, atRest_of_moveWorker hm hmove⟩
      | some c =>
          have hact : b.act (.move l 0) = c := by
            rw [act, moveAt_zero, hmove]
            rfl
          have hbusy : ¬ d.Rests := fun h => by
            rw [moveWorker_of_atRest ((atRest_iff hm).2 h)] at hmove
            cases hmove
          obtain ⟨n, hn, hwithin⟩ := Desk.within_move hd hbusy
          obtain rfl : n = fuel := (Nat.succ.inj hn).symm
          have hm' := mirrors_act hm (a := .move l 0) rfl
          rw [notices_move, hact] at hm'
          obtain ⟨k, hk, hrest⟩ := ih hm' (within_stops hwithin _)
          refine ⟨k + 1, ?_, hrest⟩
          rw [List.replicate_succ]
          exact hk.trans (congrArg (play · _) hact.symm)

theorem effort_eq {work : Work} {x : Duty} (h : b.duty work = some x) :
    b.effort work = x.effort := by
  cases work with
  | count i o seen w =>
      obtain ⟨j, hj, rfl⟩ := Option.map_eq_some_iff.1 h
      rw [effort, hj]
      rfl
  | errand e first =>
      obtain ⟨y, -, rfl⟩ := Option.map_eq_some_iff.1 h
      rfl

theorem efforts_eq {works : List Work} {duties : List Duty}
    (h : works.map b.duty = duties.map some) :
    b.efforts works = (duties.map Duty.effort).sum := by
  induction works generalizing duties with
  | nil =>
      rw [List.map_nil, eq_comm, List.map_eq_nil_iff] at h
      rw [h]
      rfl
  | cons work works ih =>
      cases duties with
      | nil => cases h
      | cons x duties =>
          obtain ⟨hx, hrest⟩ := List.cons.inj h
          rw [efforts, effort_eq hx, ih hrest, List.map_cons, List.sum_cons]

theorem settleWorker_eq (hm : Mirrors b.duty (b.lane l) items d) (hd : d.Fits) :
    ∃ n, b.settleWorker l = b.play (List.replicate n (.move l 0)) ∧ (b.settleWorker l).AtRest l := by
  have hwithin := Desk.within_of_fits hd
  rw [← efforts_eq hm.waiting] at hwithin
  exact settleLane_eq hm hwithin

theorem lane_undisturbed (b : Background α) (l : Lane) {a : Action α} (hmoves : a.moves l = false)
    (henters : b.enters l a = none) : (b.act a).lane l = b.lane l := by
  rw [lane_act b l hmoves, henters]
  exact List.append_nil _

theorem waits_renewed {x : Item} {y : Duty} (h : a.lifts x = false) :
    (b.renewed a x y).waits = y.waits := by
  have hsame : b.renewed a x y = if b.stops a x then y.stop else y := by simp [renewed, h]
  rw [hsame]
  split
  · exact y.waits_stop
  · rfl

theorem atRest_act (h : b.AtRest l) (hmoves : a.moves l = false) (henters : b.enters l a = none)
    (hlifts : ∀ work ∈ b.lane l, a.lifts work.item = false) : (b.act a).AtRest l := by
  intro work hwork
  rw [lane_undisturbed b l hmoves henters] at hwork
  obtain ⟨x, hx, hwaits⟩ := h work hwork
  refine ⟨_, duty_act hx a, ?_⟩
  rw [waits_renewed (hlifts work (List.mem_of_mem_head? hwork))]
  exact hwaits

theorem settleLane_other {l' : Lane} (hl : l' ≠ l) (fuel : Nat) (b : Background α) :
    (settleLane l' fuel b).lane l = b.lane l ∧
      (b.AtRest l → (settleLane l' fuel b).AtRest l) := by
  induction fuel generalizing b with
  | zero => exact ⟨rfl, id⟩
  | succ fuel ih =>
      rw [settleLane]
      cases hmove : b.moveWorker l' with
      | none => exact ⟨rfl, id⟩
      | some c =>
          have hact : b.act (.move l' 0) = c := by
            rw [act, moveAt_zero, hmove]
            rfl
          have hmoves : (Action.move l' 0 : Action α).moves l = false := decide_eq_false hl
          have hlifts (x : Item) : (Action.move l' 0 : Action α).lifts x = false := by cases x <;> rfl
          obtain ⟨hlane, hrest⟩ := ih c
          rw [← hact] at hlane hrest ⊢
          exact ⟨hlane.trans (lane_undisturbed b l hmoves rfl),
            fun h => hrest (atRest_act h hmoves rfl fun _ _ => hlifts _)⟩

theorem settleWorker_atRest (h : b.AtRest l) : b.settleWorker l = b := by
  rw [settleWorker]
  cases b.efforts (b.lane l) with
  | zero => rfl
  | succ fuel => rw [settleLane, moveWorker_of_atRest h]

theorem settle_atRest (h : b.AtRest l) : b.settle.lane l = b.lane l := by
  cases l with
  | default =>
      rw [settle, settleWorker_atRest h]
      exact (settleLane_other Lane.noConfusion _ b).1
  | idle =>
      have hrest : (b.settleWorker .default).AtRest .idle :=
        (settleLane_other Lane.noConfusion _ b).2 h
      rw [settle, settleWorker_atRest hrest]
      exact (settleLane_other Lane.noConfusion _ b).1

def desk (b : Background α) (l : Lane) (script : List (Action α)) : Desk :=
  ({} : Desk).follow (b.noticed l [] script)

theorem isEnd_letter? {w : Word} {y : Item} {x : Letter α} (h : w.letter? y = some x) :
    x.isEnd = w.finish?.isSome := by
  cases w with
  | progress t =>
      cases y with
      | job i o =>
          obtain ⟨n, -, rfl⟩ := Option.map_eq_some_iff.1 h
          rfl
      | errand e => cases h
  | finished f =>
      cases f with
      | counted ending =>
          cases y with
          | job i o =>
              cases ending with
              | outcome out => cases h; rfl
              | clockOverrun => cases h
          | errand e => cases ending <;> cases h
      | errandDone first second =>
          cases y with
          | job i o => cases h
          | errand e => cases h; rfl

theorem filter_ends (items : List Item) (said : List (Nat × Word)) :
    (said.filterMap fun x => items[x.1]?.bind x.2.letter?).filter (Letter.isEnd (α := α)) =
      (said.filterMap fun x => x.2.finish?.map (x.1, ·)).filterMap fun x =>
        items[x.1]?.bind (Word.finished x.2).letter? := by
  induction said with
  | nil => rfl
  | cons x said ih =>
      obtain ⟨n, w⟩ := x
      rw [List.filterMap_cons, List.filterMap_cons]
      cases hw : w.finish? with
      | none =>
          cases hx : (items[n]?).bind (w.letter? (α := α)) with
          | none => exact ih
          | some x =>
              obtain ⟨y, -, hletter⟩ := Option.bind_eq_some_iff.1 hx
              have hend : x.isEnd = false := by rw [isEnd_letter? hletter, hw]; rfl
              rw [List.filter_cons, hend]
              exact ih
      | some f =>
          obtain rfl : w = .finished f := by
            cases w with
            | progress t => cases hw
            | finished g => cases hw; rfl
          rw [Option.map_some, List.filterMap_cons]
          cases hx : (items[n]?).bind ((Word.finished f).letter? (α := α)) with
          | none => exact ih
          | some x =>
              obtain ⟨y, -, hletter⟩ := Option.bind_eq_some_iff.1 hx
              have hend : x.isEnd = true := by rw [isEnd_letter? hletter]; rfl
              rw [List.filter_cons, hend]
              exact congrArg (x :: ·) ih

theorem sentWhere_split (hb : b.Emptied) (p : Background α → Action α → Bool)
    (script : List (Action α)) :
    ∃ kept lost, b.sentWhere p script = kept ++ lost ∧ kept.Sublist (b.posted script) ∧
      lost.Sublist (b.refused script) ∧ (b.mailbox.closed = true → kept = []) := by
  induction script generalizing b with
  | nil => exact ⟨[], [], rfl, .slnil, .slnil, fun _ => rfl⟩
  | cons a script ih =>
      obtain ⟨_, -, -, hb'⟩ := flow_act hb a
      obtain ⟨kept, lost, hsent, hkept, hlost, hnone⟩ := ih hb'
      have hsub : (if p b a then b.sends a else []).Sublist (b.sends a) := by
        split
        · exact .refl _
        · exact List.nil_sublist _
      rw [sentWhere, hsent]
      cases hclosed : b.mailbox.closed with
      | true =>
          have hshut : (b.act a).mailbox.closed = true := by
            rw [(act_closed hb hclosed a).1, hclosed]
          rw [hnone hshut]
          refine ⟨[], _, rfl, List.nil_sublist _, ?_, fun _ => rfl⟩
          rw [refused, sentWhere, Mailbox.accepts, hclosed]
          exact hsub.append hlost
      | false =>
          refine ⟨(if p b a then b.sends a else []) ++ kept, lost, by rw [List.append_assoc], ?_, ?_,
            by simp⟩
          · rw [posted, sentWhere, Mailbox.accepts, hclosed]
            exact hsub.append hkept
          · rw [refused, sentWhere, Mailbox.accepts, hclosed]
            exact hlost

theorem orderly_desk (b : Background α) (l : Lane) (script : List (Action α)) :
    (b.desk l script).Orderly :=
  Desk.orderly_follow (sound_noticed b l [] script) Desk.orderly_new

/-- What a lane comes to during a script that starts where there is no work yet. -/
structure LaneRuns (o : Background α) (l : Lane) (script : List (Action α)) : Prop where
  order : (o.desk l script).finished.length ≤ (o.entered l script).length ∧
    ((o.play script).lane l).map Work.item =
      (o.entered l script).drop (o.desk l script).finished.length
  fresh : ∀ work ∈ ((o.play script).lane l).tail, ∃ x, (o.play script).duty work = some x ∧ x.Fresh
  /-- How it stands is up to what the lane has noticed, and to nothing else. -/
  stands : ((o.play script).lane l).map (o.play script).duty = (o.desk l script).waiting.map some
  sent : o.sentBy l script =
    (o.desk l script).said.filterMap fun x => (o.entered l script)[x.1]?.bind x.2.letter?
  /-- Of each piece of work that is finished the end was sent once, in order. -/
  ends : (o.sentBy l script).filter Letter.isEnd = (o.desk l script).finished.zipIdx.filterMap
    fun x => (o.entered l script)[x.2]?.bind (Word.finished x.1).letter?
  fitting : ∀ (n : Nat) (f : Finish), (o.desk l script).finished[n]? = some f →
    ∃ y, (o.entered l script)[n]? = some y ∧ (Word.finished f).About y
  posted : ∃ kept lost, o.sentBy l script = kept ++ lost ∧ kept.Sublist (o.posted script) ∧
    lost.Sublist (o.refused script)

theorem laneRuns (l : Lane) {script : List (Action α)} (hlone : ∀ a ∈ script, a.Lone) :
    ({} : Background α).LaneRuns l script := by
  have hempty : Mirrors ({} : Background α).duty (({} : Background α).lane l) [] {} := by
    cases l <;> exact ⟨rfl, rfl, Nat.le_refl _⟩
  have hsilent : Tells ([] : List (Letter α)) [] {} := ⟨List.forall_mem_nil _, rfl⟩
  have hm := mirrors_play hlone hempty
  have ht := tells_play hlone hsilent hempty
  have ho := orderly_desk ({} : Background α) l script
  rw [List.nil_append] at hm ht
  rw [List.nil_append] at ht
  have hsaid (n : Nat) (f : Finish) (hf : (({} : Background α).desk l script).finished[n]? = some f) :
      (n, Word.finished f) ∈ (({} : Background α).desk l script).said := by
    have hmem : (n, f) ∈ (({} : Background α).desk l script).finished.zipIdx.map
        fun x => (x.2, x.1) :=
      List.mem_map.2 ⟨(f, n), List.mem_zipIdx_iff_getElem?.2 hf, rfl⟩
    rw [← ho.ends] at hmem
    obtain ⟨⟨m, w⟩, hx, hw⟩ := List.mem_filterMap.1 hmem
    cases w with
    | progress t => cases hw
    | finished g => cases hw; exact hx
  refine ⟨⟨hm.le, hm.rest⟩, ?_, hm.waiting, ht.letters, ?_, ?_, ?_⟩
  · intro work hwork
    obtain ⟨k, hk⟩ := List.getElem?_of_mem hwork
    rw [List.getElem?_tail] at hk
    have hduty := (hm.getElem? (k + 1)).1
    rw [hk] at hduty
    obtain ⟨x, hx, hsome⟩ := Option.map_eq_some_iff.1 hduty.symm
    exact ⟨x, hsome.symm, ho.fresh k x hx⟩
  · have hends := ho.ends
    rw [desk] at hends
    rw [ht.letters, filter_ends, hends, List.filterMap_map]
    rfl
  · intro n f hf
    obtain ⟨y, hy, habout⟩ := ht.about _ (hsaid n f hf)
    exact ⟨y, hy, habout⟩
  · obtain ⟨kept, lost, hsent, hkept, hlost, -⟩ :=
      sentWhere_split (b := ({} : Background α)) (fun _ => rfl) (fun _ a => a.moves l) script
    exact ⟨kept, lost, hsent, hkept, hlost⟩

theorem ends_moves (b : Background α) (l l' : Lane) (items : List Item) (n : Nat) :
    ∀ x ∈ b.noticed l items (List.replicate n (.move l' 0)), x.Ends := by
  induction n generalizing b items with
  | zero =>
      intro x hx
      cases hx
  | succ n ih =>
      intro x hx
      rw [List.replicate_succ] at hx
      rcases List.mem_append.1 hx with hx | hx
      · cases x with
        | enter y =>
            have henters : b.enters l (.move l' 0) = none := rfl
            rw [notices, henters] at hx
            simp at hx
        | _ => trivial
      · exact ih _ _ x hx

theorem lone_replicate (n : Nat) (l : Lane) :
    ∀ a ∈ List.replicate n (Action.move l 0 : Action α), a.Lone := by
  intro a ha
  rw [List.eq_of_mem_replicate ha]
  rfl

def settling (m n : Nat) : List (Action α) :=
  List.replicate m (.move .default 0) ++ List.replicate n (.move .idle 0)

theorem lone_settling (m n : Nat) : ∀ a ∈ (settling m n : List (Action α)), a.Lone := by
  intro a ha
  rcases List.mem_append.1 ha with ha | ha
  · exact lone_replicate m .default a ha
  · exact lone_replicate n .idle a ha

theorem settle_eq {items : Lane → List Item} {d : Lane → Desk}
    (hm : ∀ l, Mirrors b.duty (b.lane l) (items l) (d l)) (hd : ∀ l, (d l).Fits) :
    ∃ m n, b.settle = b.play (settling m n) ∧ ∀ l, b.settle.AtRest l := by
  obtain ⟨m, hdefault, hrest⟩ := settleWorker_eq (hm .default) (hd .default)
  have hm' := mirrors_play (lone_replicate m .default) (hm .idle)
  have hd' := Desk.fits_follow (ends_moves b .idle .default (items .idle) m) (hd .idle)
  rw [← hdefault] at hm'
  obtain ⟨n, hidle, hrest'⟩ := settleWorker_eq hm' hd'
  refine ⟨m, n, ?_, fun l => ?_⟩
  · rw [settling, play_append, ← hdefault]
    exact hidle
  · cases l with
    | idle => exact hrest'
    | default =>
        -- The worker of the other lane has moved since this one came to rest.
        exact (settleLane_other Lane.noConfusion _ (b.settleWorker .default)).2 hrest

/-- Two scripts of which a lane notices the same. -/
def SameFor (l : Lane) (script script' : List (Action α)) : Prop :=
  ({} : Background α).noticed l [] script = ({} : Background α).noticed l [] script'

/-- What is done elsewhere leaves a lane alone. -/
structure Undisturbed (b : Background α) (l : Lane) (a : Action α) : Prop where
  lane : (b.act a).lane l = b.lane l
  duty : ∀ work ∈ b.lane l, ∀ x, b.duty work = some x →
    (b.act a).duty work = some (if b.stops a work.item then x.stop else x)
  rest : b.AtRest l → (b.act a).settle.lane l = b.lane l

theorem undisturbed (b : Background α) {l : Lane} {a : Action α} (hmoves : a.moves l = false)
    (henters : b.enters l a = none) (hlifts : ∀ work ∈ b.lane l, a.lifts work.item = false) :
    b.Undisturbed l a := by
  have hlane := lane_undisturbed b l hmoves henters
  refine ⟨hlane, fun work hwork x hx => ?_,
    fun h => (settle_atRest (atRest_act h hmoves henters hlifts)).trans hlane⟩
  have hrenewed : b.renewed a work.item x = if b.stops a work.item then x.stop else x := by
    simp [renewed, hlifts work hwork]
  rw [duty_act hx a, hrenewed]

end TreeTally.Background
