import TreeTally.Proofs.Background.Phase

namespace TreeTally

variable {α : Type} {i : Nat}

theorem JobStep.keeps_task {c : Bool} {d : Deed} {v v' : View α} {j : Job} (h : JobStep i c v d v')
    (hj : v.job = some j) : ∃ j', v'.job = some j' ∧ j'.SameTask j := by
  have hsame {j' : Job} (h : v.job = some j') : j' = j := Option.some.inj (h.symm.trans hj)
  cases h with
  | create hnone =>
      rw [hj] at hnone
      cases hnone
  | observe h | lift h | run h | hearEnd h =>
      obtain rfl := hsame h
      exact ⟨_, rfl, rfl, rfl, rfl, rfl, rfl⟩
  | @move j' l r o seen w w' s h =>
      obtain rfl := hsame h
      obtain ⟨-, -, hjob | ⟨e, hjob⟩⟩ := v.hear?_fields i j' o seen s
      · exact ⟨j', hjob.trans h, .refl j'⟩
      · exact ⟨_, hjob, rfl, rfl, rfl, rfl, rfl⟩
  | @finish l r o seen w e => exact ⟨j, (v.settle_fields i e).2.2.trans hj, .refl j⟩
  | _ => exact ⟨j, hj, .refl j⟩

def View.Owned (v : View α) : Prop := ∀ j, v.job = some j → j.token < v.tokens

theorem JobStep.owned {c : Bool} {d : Deed} {v v' : View α} (h : JobStep i c v d v') (hv : v.Owned) :
    v'.Owned := by
  intro j' hj'
  cases hj : v.job with
  | some j =>
      obtain ⟨j'', hj'', htask⟩ := h.keeps_task hj
      rw [hj''] at hj'
      cases hj'
      have hlt := hv j hj
      have hle := h.grows.2
      have htoken := htask.token
      omega
  | none =>
      cases h with
      | create =>
          cases hj'
          exact Nat.lt_succ_self _
      | @finish l r o seen w e =>
          have hjob : (v.settle i e).job = v.job := (v.settle_fields i e).2.2
          rw [show (v.settle i e).job = some j' from hj', hj] at hjob
          cases hjob
      | other | refuse | close | ignore =>
          rw [show v.job = some j' from hj'] at hj
          cases hj
      | observe h | lift h | run h | move h | hearProgress h | hearEnd h =>
          rw [hj] at h
          cases h

namespace Background

def Spares (b b' : Background α) : Prop := ∀ t, b.isCancelled t = true → b'.isCancelled t = true

variable {b b' : Background α}

theorem Spares.of_eq (h : b'.tokens = b.tokens) : b.Spares b' := by
  intro t ht
  rw [isCancelled, h]
  exact ht

theorem Spares.trans {d : Background α} (h : b.Spares b') (h' : b'.Spares d) : b.Spares d :=
  fun t ht => h' t (h t ht)

theorem isCancelled_iff {t : Nat} : b.isCancelled t = true ↔ b.tokens[t]? = some true := by
  rw [isCancelled]
  cases b.tokens[t]? with
  | none => simp
  | some c => simp

theorem spares_cancelToken (b : Background α) (t : Nat) : b.Spares (b.cancelToken t) := by
  intro u hu
  rw [isCancelled_iff] at hu ⊢
  rw [cancelToken, List.getElem?_set]
  split
  · rename_i htu
    subst htu
    rw [if_pos (List.getElem?_eq_some_iff.1 hu).1]
  · exact hu

theorem spares_newToken (b : Background α) : b.Spares b.newToken := by
  intro t ht
  rw [isCancelled_iff] at ht ⊢
  rw [newToken, List.getElem?_append_left (List.getElem?_eq_some_iff.1 ht).1]
  exact ht

theorem tokens_setLane (b : Background α) (works : List Work) (l : Lane) :
    (b.setLane works l).tokens = b.tokens := by
  cases l <;> rfl

theorem tokens_postResult (b : Background α) (l : Letter α) :
    (b.postResult l).tokens = b.tokens := by
  rw [postResult]
  split <;> rfl

theorem spares_cancel (b : Background α) (job : Nat) : b.Spares (b.cancel job) := by
  rw [cancel]
  split
  · exact .of_eq rfl
  · dsimp only
    split
    · exact spares_cancelToken b _
    · exact spares_cancelToken (b.log _) _

theorem spares_hear (b : Background α) (job : Nat) (j : Job) (o : Option Nat) (seen : Nat)
    (s : Signal) : b.Spares (b.hear job j o seen s).1 := by
  rcases s with e | m
  · cases e with
    | progress t => cases o <;> exact .of_eq rfl
    | _ =>
        have hcancel (d : Background α) (p : Prop) [Decidable p] (hd : d.tokens = b.tokens) :
            b.Spares (if p then d.cancelToken j.token else d) := by
          split
          · exact (Spares.of_eq hd).trans (spares_cancelToken d _)
          · exact .of_eq hd
        exact hcancel _ _ rfl
  · exact .of_eq rfl

theorem spares_moveWork {work : Work} {d : Background α} {left : Option Work}
    (h : b.moveWork work = some (d, left)) : b.Spares d := by
  cases work with
  | count job o seen w =>
      obtain ⟨j, -, ⟨out, -, rfl, -⟩ | ⟨-, rfl, -⟩ | ⟨-, w', s, -, hs⟩⟩ := moveWork_count h
      · exact .of_eq (tokens_postResult b _)
      · exact .of_eq rfl
      · cases s with
        | none => exact .of_eq (congrArg tokens hs.1)
        | some s => exact hs.1 ▸ spares_hear b job j o seen s
  | errand errand first =>
      obtain ⟨rfl | ⟨x, y, rfl⟩, -⟩ := moveWork_errand (i := 0) h
      · exact .of_eq rfl
      · exact .of_eq (tokens_postResult b _)

theorem spares_readLetter (b : Background α) (l : Letter α) : b.Spares (b.readLetter l) := by
  cases l with
  | note n =>
      obtain ⟨label, next⟩ := n
      exact .of_eq rfl
  | progress job o t =>
      rw [readLetter, readProgress]
      split
      · dsimp only
        split
        · exact .of_eq rfl
        split
        · exact (Spares.of_eq rfl).trans (spares_cancelToken _ _)
        · exact .of_eq rfl
      · exact .of_eq rfl
  | counted job out =>
      rw [readLetter, readCounted_eq]
      split
      · exact .of_eq rfl
      · exact .of_eq rfl
  | errandDone errand x y =>
      rw [readLetter, readErrand]
      split
      · exact .of_eq rfl
      · exact .of_eq rfl

theorem spares_act (b : Background α) (a : Action α) : b.Spares (b.act a) := by
  cases a with
  | create spec =>
      rw [act, create]
      split
      · exact .of_eq rfl
      · exact (spares_newToken b).trans (.of_eq rfl)
  | observe job label cancelAt => exact .of_eq rfl
  | run job =>
      rw [act, run]
      split
      · exact .of_eq rfl
      split
      · exact .of_eq rfl
      · exact .of_eq (tokens_setLane _ _ _)
  | cancel job => exact spares_cancel b job
  | cancelToken t => exact spares_cancelToken b t
  | liftBarrier job => exact .of_eq rfl
  | submit lane label held token =>
      cases token with
      | none => exact (spares_newToken b).trans (.of_eq (tokens_setLane _ _ _))
      | some t => exact .of_eq (tokens_setLane _ _ _)
  | letGo errand => exact .of_eq rfl
  | postNote n => exact .of_eq rfl
  | closeMailbox => exact .of_eq rfl
  | release job =>
      rw [act, release]
      split
      · exact .of_eq rfl
      split
      · exact (Spares.of_eq rfl).trans (spares_cancel (b.log .releasedWhileRunning) job)
      · exact .of_eq rfl
  | move l k =>
      rw [act]
      cases h : b.moveAt l k with
      | none => exact .of_eq rfl
      | some d =>
          obtain ⟨work, -, h⟩ := Option.bind_eq_some_iff.1 h
          obtain ⟨moved, hmoved, rfl⟩ := Option.map_eq_some_iff.1 h
          exact (spares_moveWork hmoved).trans (.of_eq (tokens_setLane _ _ _))
  | read =>
      rw [act]
      cases h : b.iterate? with
      | none => exact .of_eq rfl
      | some d =>
          obtain ⟨⟨l, mailbox⟩, -, rfl⟩ := Option.map_eq_some_iff.1 h
          let d : Background α := { b with mailbox }
          have hread : d.Spares (d.readLetter l) := spares_readLetter d l
          exact (Spares.of_eq rfl).trans hread

theorem stopped_act (b : Background α) (a : Action α) (h : b.stopped i = true) :
    (b.act a).stopped i = true := by
  obtain ⟨j, hj, hcancelled⟩ := (Option.any_eq_true _ _).1 h
  obtain ⟨j', hj', htask⟩ := (jobStep_act b a i).keeps_task hj
  rw [stopped_eq hj', htask.token]
  exact spares_act b a _ hcancelled

theorem Reaches.stopped (h : b.Reaches b') (hb : b.stopped i = true) : b'.stopped i = true :=
  h.preserves (fun d a hd => stopped_act d a hd) hb

def Lives (b : Background α) (i : Nat) : Prop :=
  Untouched (b.view i) ∨
    ∃ j₀ label, Labelled j₀ label (b.view i) ∧ Begun i j₀ label (b.stopped i) (b.view i)

theorem begun_act {j₀ : Job} {label : Option α} (a : Action α)
    (hlabel : Labelled j₀ label (b.view i)) (h : Begun i j₀ label (b.stopped i) (b.view i)) :
    Labelled j₀ label ((b.act a).view i) ∧
      Begun i j₀ label ((b.act a).stopped i) ((b.act a).view i) :=
  ⟨hlabel.step (jobStep_act b a i), (h.step hlabel (jobStep_act b a i)).mono (stopped_act b a)⟩

theorem begun_reaches {j₀ : Job} {label : Option α} (h : b.Reaches b')
    (hlabel : Labelled j₀ label (b.view i)) (hb : Begun i j₀ label (b.stopped i) (b.view i)) :
    Begun i j₀ label (b'.stopped i) (b'.view i) :=
  (h.preserves (I := fun d => Labelled j₀ label (d.view i) ∧
    Begun i j₀ label (d.stopped i) (d.view i)) (fun _ a hd => begun_act a hd.1 hd.2) ⟨hlabel, hb⟩).2

theorem lives_act (a : Action α) (h : b.Lives i) : (b.act a).Lives i := by
  rcases h with h | ⟨j₀, label, hlabel, h⟩
  · rcases h.step (jobStep_act b a i) with ⟨-, h'⟩ | ⟨-, j, label, -, hlabel, h'⟩
    · exact .inl h'
    · exact .inr ⟨j, label, hlabel, _, _, h'.mono (stopped_act b a)⟩
  · exact .inr ⟨j₀, label, begun_act a hlabel h⟩

theorem lives (h : ({} : Background α).Reaches b) (i : Nat) : b.Lives i := by
  have hempty : ({} : Background α).Lives i :=
    .inl ⟨rfl, rfl, rfl, fun j hj => by cases hj⟩
  exact h.preserves (I := fun d => d.Lives i) (fun d a hd => lives_act a hd) hempty

theorem token_lt (h : ({} : Background α).Reaches b) {j : Job} (hj : b.jobs[i]? = some j) :
    j.token < b.tokens.length := by
  have hempty : (({} : Background α).view i).Owned := fun j hj => by cases hj
  have howned : (b.view i).Owned :=
    h.preserves (I := fun d => (d.view i).Owned) (fun d a => (jobStep_act d a i).owned) hempty
  exact howned j hj

theorem stopped_cancelToken (h : ({} : Background α).Reaches b) {j : Job}
    (hj : b.jobs[i]? = some j) : (b.cancelToken j.token).stopped i = true := by
  rw [stopped_eq (b := b.cancelToken j.token) hj, isCancelled_iff, cancelToken]
  exact List.getElem?_set_self (token_lt h hj)

theorem stopped_release (h : ({} : Background α).Reaches b) {j : Job} (hj : b.jobs[i]? = some j)
    (hrunning : j.state = .running) : (b.release i).stopped i = true := by
  rw [release, hj]
  dsimp only
  rw [if_pos hrunning, cancel, show (b.log .releasedWhileRunning).jobs[i]? = some j from hj]
  dsimp only
  split
  · exact stopped_cancelToken h hj
  · exact stopped_cancelToken h hj

end Background

end TreeTally
