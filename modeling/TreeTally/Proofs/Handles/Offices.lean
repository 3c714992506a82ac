import TreeTally.Proofs.Handles.Script

namespace TreeTally

open Background

/-- What one step, or several, may do to a mailbox and the work that reports to it. -/
structure Office.Onward (reads : Prop) (x y : Office) : Prop where
  reaches : x.work.Reaches y.work
  quiet : ¬reads → y.work.calls = x.work.calls
  callbacks : ∃ more, y.callbacks = x.callbacks ++ more ∧
    y.work.jobs.length = x.work.jobs.length + more.length

namespace Office.Onward

variable {x y z : Office} {r r' : Prop}

theorem refl (r : Prop) (x : Office) : x.Onward r x :=
  ⟨.refl _, fun _ => rfl, [], (List.append_nil _).symm, rfl⟩

theorem mono (h : x.Onward r y) (hr : r → r') : x.Onward r' y :=
  { h with quiet := fun hno => h.quiet fun hyes => hno (hr hyes) }

theorem trans (h : x.Onward r y) (h' : y.Onward r z) : x.Onward r z := by
  obtain ⟨hreaches, hquiet, more, hmore, hlength⟩ := h
  obtain ⟨hreaches', hquiet', more', hmore', hlength'⟩ := h'
  refine ⟨hreaches.trans hreaches', fun hr => (hquiet' hr).trans (hquiet hr), more ++ more', ?_, ?_⟩
  · rw [hmore', hmore, List.append_assoc]
  · rw [hlength', hlength, List.length_append, Nat.add_assoc]

theorem of_act (x : Office) {a : Action Nat} (ha : ∀ spec, a ≠ .create spec) :
    x.Onward (a = .read) { x with work := x.work.act a } :=
  ⟨reaches_act _ a, fun hr => calls_act _ hr, [], (List.append_nil _).symm, length_jobs_act _ ha⟩

theorem of_reads (x : Office) (n : Nat) :
    x.Onward True { x with work := x.work.play (List.replicate n .read) } := by
  induction n generalizing x with
  | zero => exact .refl _ x
  | succ n ih =>
      have hread : x.Onward True { x with work := x.work.act .read } :=
        (of_act x fun _ h => by cases h).mono fun _ => trivial
      exact hread.trans (ih _)

end Office.Onward

namespace Draft

variable {d : Draft} {b c : Background Nat}

/-- A draft that was entered is the last of the jobs, and it has been run. -/
structure Entered (d : Draft) (b c : Background Nat) (b₁ : Background Nat) (j : Job) : Prop where
  reaches : b.Reaches b₁
  job : b₁.jobs[b.jobs.length]? = some j
  run : b₁.run b.jobs.length = .ok c
  calls : c.calls = b.calls
  length : c.jobs.length = b.jobs.length + 1
  /-- Who observes the job calls the callback of the draft. -/
  observer : ∀ k, j.observer = some k → ∃ f, d.callback = some f ∧
    (b₁.observers[k]?).bind (·.label) = some f

def orders (d : Draft) (b : Background Nat) : List (Action Nat) :=
  (d.callback.map fun f => .observe b.jobs.length (some f) 0).toList ++
    if d.cancelled then [.cancelToken b.tokens.length] else []

theorem enter_eq (d : Draft) (b : Background Nat) :
    d.enter b = (b.create d.toJobSpec).bind fun made =>
      (made.play (d.orders b)).run b.jobs.length := by
  rw [enter, orders]
  cases d.callback <;> cases d.cancelled <;> rfl

theorem of_mem_orders {a : Action Nat} (h : a ∈ d.orders b) :
    a ≠ .read ∧ ∀ spec, a ≠ .create spec := by
  rcases List.mem_append.1 h with h | h
  · obtain ⟨f, -, rfl⟩ := Option.map_eq_some_iff.1 (Option.mem_toList.1 h)
    exact ⟨nofun, nofun⟩
  · split at h
    · obtain rfl := List.mem_singleton.1 h
      exact ⟨nofun, nofun⟩
    · cases h

theorem ordered (d : Draft) {made : Background Nat} {j₀ : Job}
    (hj₀ : made.jobs[b.jobs.length]? = some j₀) (hcreated : j₀.state = .created)
    (hnone : j₀.observer = none) :
    ∃ j, (made.play (d.orders b)).jobs[b.jobs.length]? = some j ∧ j.state = .created ∧
      ∀ k, j.observer = some k → ∃ f, d.callback = some f ∧
        ((made.play (d.orders b)).observers[k]?).bind (·.label) = some f := by
  have hcancelled (c : Background Nat) (t : Nat) :
      (c.play (if d.cancelled then [.cancelToken t] else [])).jobs = c.jobs ∧
        (c.play (if d.cancelled then [.cancelToken t] else [])).observers = c.observers := by
    split <;> exact ⟨rfl, rfl⟩
  rw [orders, play_append, (hcancelled _ _).1, (hcancelled _ _).2]
  cases hd : d.callback with
  | none =>
      refine ⟨j₀, hj₀, hcreated, fun k hk => ?_⟩
      rw [hnone] at hk
      cases hk
  | some f =>
      have hjob : (made.observe b.jobs.length (some f) 0).jobs[b.jobs.length]? =
          some { j₀ with observer := some made.observers.length } := by
        show (made.jobs.modify _ _)[_]? = _
        rw [List.getElem?_modify_eq, hj₀]
        rfl
      have hobserver : (made.observe b.jobs.length (some f) 0).observers[made.observers.length]? =
          some { label := some f, cancelAt := 0 } := List.getElem?_concat_length
      refine ⟨_, hjob, hcreated, fun k hk => ⟨f, rfl, ?_⟩⟩
      obtain rfl := Option.some.inj hk
      show ((made.observe b.jobs.length (some f) 0).observers[made.observers.length]?).bind _ = _
      rw [hobserver]
      rfl

theorem exists_entered (hroots : d.roots ≠ []) (b : Background Nat) :
    ∃ c b₁ j, d.enter b = .ok c ∧ d.Entered b c b₁ j := by
  let j₀ : Job := { toJobSpec := d.toJobSpec, token := b.tokens.length }
  let made : Background Nat := { b.newToken with jobs := b.jobs ++ [j₀] }
  let b₁ := made.play (d.orders b)
  have hmade : b.create d.toJobSpec = .ok made := if_neg (by simpa using hroots)
  have hlast : made.jobs[b.jobs.length]? = some j₀ := List.getElem?_concat_length
  obtain ⟨j, hj, hcreated, hobserver⟩ := d.ordered hlast rfl rfl
  obtain ⟨c, hrun⟩ : ∃ c, b₁.run b.jobs.length = .ok c := by
    rw [run, hj]
    exact ⟨_, if_neg fun hno => hno hcreated⟩
  have hc : b₁.act (.run b.jobs.length) = c := by rw [act, hrun]; rfl
  refine ⟨c, b₁, j, ?_, ?_⟩
  · rw [enter_eq, hmade]
    exact hrun
  · constructor
    · exact (reaches_create hmade).trans ⟨_, rfl⟩
    · exact hj
    · exact hrun
    · have hquiet : b₁.calls = made.calls := calls_play_quiet fun a ha => (of_mem_orders ha).1
      rw [← hc, calls_act b₁ (a := .run b.jobs.length) (fun h => by cases h), hquiet]
      rfl
    · have hsame : b₁.jobs.length = made.jobs.length :=
        length_jobs_play fun a ha => (of_mem_orders ha).2
      rw [← hc, length_jobs_act b₁ (a := .run b.jobs.length) (fun _ h => by cases h), hsame]
      exact List.length_append
    · exact hobserver

theorem entered_of_ok (h : d.enter b = .ok c) : ∃ b₁ j, d.Entered b c b₁ j := by
  have hroots : d.roots ≠ [] := by
    intro hnil
    rw [enter_eq, create, hnil] at h
    cases h
  obtain ⟨c', b₁, j, hc', hentered⟩ := exists_entered hroots b
  obtain rfl : c' = c := Except.ok.inj (hc'.symm.trans h)
  exact ⟨b₁, j, hentered⟩

theorem Entered.reaches_all {b₁ : Background Nat} {j : Job} (h : d.Entered b c b₁ j) :
    b.Reaches c := h.reaches.trans (reaches_run h.run)

end Draft

theorem Office.open?_eq_some {x y : Office} :
    x.open? = some y ↔ x = y ∧ x.work.mailbox.closed = false := by
  rw [Office.open?.eq_def]
  split
  · simp_all
  · simp_all

namespace Handles

variable {s t : Handles} {p : Option Nat} {i m k : Nat} {x y : Office} {h : Handle}

theorem office?_eq_some : s.office? p = some (m, x) ↔
    p = some m ∧ s.offices[m]? = some x ∧ x.work.mailbox.closed = false := by
  rw [office?]
  constructor
  · intro hp
    obtain ⟨k, hk, hp⟩ := Option.bind_eq_some_iff.1 hp
    obtain ⟨y, hy, hp⟩ := Option.bind_eq_some_iff.1 hp
    obtain ⟨z, hz, hp⟩ := Option.bind_eq_some_iff.1 hp
    obtain ⟨rfl, hopen⟩ := Office.open?_eq_some.1 hz
    cases hp
    exact ⟨hk, hy, hopen⟩
  · rintro ⟨rfl, hx, hopen⟩
    simp [hx, Office.open?_eq_some.2 ⟨rfl, hopen⟩]

theorem job?_eq_some {q : Place} : s.job? p = some (i, q) ↔
    p = some i ∧ s.jobs[i]? = some ⟨q, false⟩ := by
  rw [job?]
  constructor
  · intro hp
    obtain ⟨k, hk, hp⟩ := Option.bind_eq_some_iff.1 hp
    obtain ⟨⟨q', freed⟩, hh, hp⟩ := Option.bind_eq_some_iff.1 hp
    cases freed with
    | true => cases hp
    | false =>
        cases hp
        exact ⟨hk, hh⟩
  · rintro ⟨rfl, hh⟩
    simp [hh]

theorem offices_modifyWork (s : Handles) (k m : Nat) (f : Background Nat → Background Nat) :
    (s.modifyWork k f).offices[m]? =
      (s.offices[m]?).map fun x => if k = m then { x with work := f x.work } else x := by
  rw [modifyWork, List.getElem?_modify]
  rfl

theorem onward_modifyWork {r : Prop} {f : Background Nat → Background Nat}
    (hx : s.offices[m]? = some x) (hf : k = m → x.Onward r { x with work := f x.work }) :
    ∃ y, (s.modifyWork k f).offices[m]? = some y ∧ x.Onward r y := by
  rw [offices_modifyWork, hx]
  by_cases hk : k = m
  · exact ⟨_, congrArg some (if_pos hk), hf hk⟩
  · exact ⟨x, congrArg some (if_neg hk), .refl r x⟩

theorem offices_release (q : Place) (hx : s.offices[m]? = some x) :
    (s.release q).offices[m]? = some (match q with
      | .draft _ => x
      | .started k job => if k = m then { x with work := x.work.release job } else x) := by
  cases q with
  | draft d => exact hx
  | started k job =>
      rw [release]
      dsimp only
      by_cases hk : k = m
      · subst hk
        have hstate : s.stateAt (.started k job) =
            ((x.work.jobs[job]?).map (·.state)).getD .failed := by
          rw [stateAt, hx]
          rfl
        rw [if_pos rfl, hstate]
        cases hj : x.work.jobs[job]? with
        | none =>
            rw [if_neg nofun, Background.release, hj]
            exact hx
        | some j =>
            rw [Background.release, hj]
            by_cases hrunning : j.state = .running
            · rw [if_pos (by rw [← hrunning]; rfl), offices_modifyWork, hx]
              dsimp only
              rw [if_pos hrunning, Option.map_some, if_pos rfl]
            · rw [if_neg (by exact hrunning)]
              dsimp only
              rw [if_neg hrunning]
              exact hx
      · rw [if_neg hk]
        split
        · rw [offices_modifyWork, hx, Option.map_some, if_neg hk]
        · exact hx

/-- What a call does to all that was handed out, save the error it leaves. -/
inductive Handling (s : Handles) (q : Request) : Handles → Prop
  | nothing : Handling s q s
  | runners (l : List Bool) : Handling s q { s with runners := l }
  | mailbox (x : Office) (hx : x = {}) : Handling s q { s with offices := s.offices ++ [x] }
  | draft (h : Handle) (d : Draft) (hh : h = ⟨.draft d, false⟩) (hroots : d.roots ≠ []) :
      Handling s q { s with jobs := s.jobs ++ [h] }
  | change {i : Nat} {d : Draft} (d' : Draft) (l : List LogMessage)
      (hj : s.jobs[i]? = some ⟨.draft d, false⟩) (hroots : d'.roots = d.roots) :
      Handling s q ({ s with messages := l }.setPlace i (.draft d'))
  | work (m : Nat) (f : Background Nat → Background Nat)
      (hf : ∀ x : Office, x.Onward ((Step.call q).reads m = true) { x with work := f x.work }) :
      Handling s q (s.modifyWork m f)
  | free {i : Nat} {p : Place} (hj : s.jobs[i]? = some ⟨p, false⟩) : Handling s q
      { s.release p with jobs := s.jobs.modify i fun h => { h with freed := true } }
  | start {i m : Nat} {d : Draft} {x : Office} {work : Background Nat} (callback : Option Nat)
      (hj : s.jobs[i]? = some ⟨.draft d, false⟩) (hx : s.offices[m]? = some x)
      (hwork : d.enter x.work = .ok work) : Handling s q
        ({ s with offices := s.offices.set m ⟨work, x.callbacks ++ [callback]⟩ }.setPlace i
          (.started m x.work.jobs.length))

theorem jobs_release (s : Handles) (q : Place) : (s.release q).jobs = s.jobs := by
  cases q with
  | draft d => rfl
  | started k job =>
      rw [release]
      split <;> rfl

def Handled (s : Handles) (q : Request) (u : Handles) : Prop :=
  ∃ t e, s.Handling q t ∧ u = { t with lastError := e }

section

variable {q : Request}

theorem Handling.succeed (h : s.Handling q t) : s.Handled q t.succeed := ⟨t, none, h, rfl⟩

theorem handled_succeed (s : Handles) : s.Handled q s.succeed := Handling.nothing.succeed

theorem handled_fail (s : Handles) (e : HandleError) : s.Handled q (s.fail e) :=
  ⟨s, some e, .nothing, rfl⟩

theorem handling_act (s : Handles) (m : Nat) {a : Action Nat} (ha : ∀ spec, a ≠ .create spec)
    (hread : a ≠ .read) : s.Handling q (s.modifyWork m (·.act a)) :=
  .work m _ fun x => (Office.Onward.of_act x ha).mono fun h => absurd h hread

theorem handled_newRunner (s : Handles) (trouble : Option String) :
    s.Handled q (s.newRunner trouble).2 := by
  cases trouble with
  | none => exact (Handling.runners _).succeed
  | some why => exact handled_fail s _

theorem handled_freeRunner (s : Handles) (p : Option Nat) : s.Handled q (s.freeRunner p) := by
  rw [freeRunner]
  split
  · exact handled_succeed s
  · exact (Handling.runners _).succeed

theorem handled_freeMailbox (s : Handles) (p : Option Nat) : s.Handled q (s.freeMailbox p) := by
  rw [freeMailbox]
  split
  · exact handled_succeed s
  · exact (handling_act s _ (a := .closeMailbox) nofun nofun).succeed

theorem handled_iterate (s : Handles) (p : Option Nat) : s.Handled (.iterate p) (s.iterate p).2 := by
  rw [iterate]
  split
  · exact handled_fail s _
  · rename_i m x hp
    obtain ⟨rfl, -⟩ := office?_eq_some.1 hp
    refine (Handling.work _ (·.iterate.2) fun x => ?_).succeed
    rw [← act_read_eq]
    exact (Office.Onward.of_reads x 1).mono fun _ => decide_eq_true rfl

theorem handled_dispatch (s : Handles) (p : Option Nat) : s.Handled (.dispatch p) (s.dispatch p).2 := by
  rw [dispatch]
  split
  · exact handled_fail s _
  · rename_i m x hp
    obtain ⟨rfl, -⟩ := office?_eq_some.1 hp
    refine (Handling.work _ (·.dispatch.2) fun x => ?_).succeed
    obtain ⟨n, hn⟩ := exists_reads x.work.backlog x.work
    rw [Background.dispatch, hn]
    exact (Office.Onward.of_reads x n).mono fun _ => decide_eq_true rfl

theorem handled_newJob (s : Handles) (defaults : JobDefaults) (texts : RootTexts) (follow : Bool) :
    s.Handled q (s.newJob defaults texts follow).2 := by
  rw [newJob]
  split
  · exact handled_fail s _
  split
  · exact handled_fail s _
  · rename_i roots _ hroots
    exact (Handling.draft _ _ rfl (by simpa using hroots)).succeed

theorem handled_freeJob (s : Handles) (p : Option Nat) : s.Handled q (s.freeJob p) := by
  rw [freeJob]
  split
  · exact handled_succeed s
  · rename_i i place hp
    obtain ⟨-, hj⟩ := job?_eq_some.1 hp
    dsimp only
    rw [jobs_release]
    exact (Handling.free hj).succeed

theorem handled_setProgress (s : Handles) (p c : Option Nat) : s.Handled q (s.setProgress p c).2 := by
  rw [setProgress]
  split
  · exact handled_fail s _
  split
  · exact handled_fail s _
  split
  · rename_i f _ d hp
    obtain ⟨-, hj⟩ := job?_eq_some.1 hp
    exact (Handling.change { d with callback := some f } s.messages hj rfl).succeed
  · exact handled_fail s _

theorem handled_run (s : Handles) (p r o c : Option Nat) : s.Handled q (s.run p r o c).2 := by
  rw [run]
  split
  · exact handled_fail s _
  split
  · exact handled_fail s _
  split
  · exact handled_fail s _
  split
  · exact handled_fail s _
  split
  · exact handled_fail s _
  · rename_i i _ _ _ m x ho _ d hp _ work hwork
    obtain ⟨-, hj⟩ := job?_eq_some.1 hp
    obtain ⟨-, hx, -⟩ := office?_eq_some.1 ho
    exact (Handling.start c hj hx hwork).succeed

theorem handled_cancel (s : Handles) (p : Option Nat) : s.Handled q (s.cancel p) := by
  rw [cancel]
  split
  · exact handled_succeed s
  · rename_i i d hp
    obtain ⟨-, hj⟩ := job?_eq_some.1 hp
    exact (Handling.change { d with cancelled := true } _ hj rfl).succeed
  · rename_i m job _
    exact (handling_act s _ (a := .cancel job) nofun nofun).succeed

theorem handled_state (s : Handles) (p : Option Nat) : s.Handled q (s.state p).2 := by
  rw [state]
  split
  · exact handled_fail s _
  · exact handled_succeed s

theorem handled_answer (s : Handles) (q : Request) : s.Handled q (s.answer q).2 := by
  cases q with
  | version | lastError => exact ⟨s, s.lastError, .nothing, rfl⟩
  | newRunner trouble => exact handled_newRunner s trouble
  | freeRunner p => exact handled_freeRunner s p
  | newMailbox => exact (Handling.mailbox _ rfl).succeed
  | freeMailbox p => exact handled_freeMailbox s p
  | iterate p => exact handled_iterate s p
  | dispatch p => exact handled_dispatch s p
  | newJob defaults texts follow => exact handled_newJob s defaults texts follow
  | freeJob p => exact handled_freeJob s p
  | setProgress p c => exact handled_setProgress s p c
  | run p r o c => exact handled_run s p r o c
  | cancel p => exact handled_cancel s p
  | state p => exact handled_state s p

end

theorem getElem?_concat {β : Type} (l : List β) (b : β) (n : Nat) :
    (l ++ [b])[n]? = if n = l.length then some b else l[n]? := by
  rw [List.getElem?_append]
  grind

theorem Handling.offices {q : Request} (h : s.Handling q t) (m : Nat) :
    (∀ x, s.offices[m]? = some x → ∃ y, t.offices[m]? = some y ∧
      x.Onward ((Step.call q).reads m = true) y) ∧
    (s.offices[m]? = none → t.offices[m]? = none ∨ t.offices[m]? = some {}) := by
  have hsame : (∀ x, s.offices[m]? = some x → ∃ y, s.offices[m]? = some y ∧
      x.Onward ((Step.call q).reads m = true) y) ∧
      (s.offices[m]? = none → s.offices[m]? = none ∨ s.offices[m]? = some {}) :=
    ⟨fun x hx => ⟨x, hx, .refl _ x⟩, fun hnone => .inl hnone⟩
  cases h with
  | nothing | runners | draft | change => exact hsame
  | mailbox z hz =>
      rw [getElem?_concat]
      refine ⟨fun x hx => ⟨x, ?_, .refl _ x⟩, fun hnone => ?_⟩
      · rw [if_neg (Nat.ne_of_lt (List.getElem?_eq_some_iff.1 hx).1)]
        exact hx
      · split
        · exact .inr (congrArg some hz)
        · exact .inl hnone
  | work k f hf =>
      refine ⟨fun x hx => onward_modifyWork hx fun hk => hk ▸ hf x, fun hnone => .inl ?_⟩
      rw [offices_modifyWork, hnone]
      rfl
  | @free i p hj =>
      refine ⟨fun x hx => ⟨_, offices_release p hx, ?_⟩, fun hnone => .inl ?_⟩
      · cases p with
        | draft d => exact .refl _ x
        | started k job =>
            dsimp only
            split
            · exact (Office.Onward.of_act x (a := .release job) nofun).mono nofun
            · exact .refl _ x
      · show (s.release p).offices[m]? = none
        cases p with
        | draft d => exact hnone
        | started k job =>
            rw [release]
            split
            · rw [offices_modifyWork, hnone]
              rfl
            · exact hnone
  | @start i k d z work callback hj hz hwork =>
      let y : Office := ⟨work, z.callbacks ++ [callback]⟩
      have hset : (s.offices.set k y)[m]? = if k = m then some y else s.offices[m]? := by
        rw [List.getElem?_set, if_pos (List.getElem?_eq_some_iff.1 hz).1]
      show (∀ x, _ → ∃ z, (s.offices.set k y)[m]? = some z ∧ _) ∧
        (_ → (s.offices.set k y)[m]? = _ ∨ (s.offices.set k y)[m]? = _)
      rw [hset]
      by_cases hk : k = m
      · subst hk
        obtain ⟨b₁, j, hentered⟩ := Draft.entered_of_ok hwork
        rw [if_pos rfl, hz]
        refine ⟨fun x hx => ?_, nofun⟩
        obtain rfl := Option.some.inj hx
        exact ⟨y, rfl, hentered.reaches_all, fun _ => hentered.calls, [callback], rfl, hentered.length⟩
      · rw [if_neg hk]
        exact hsame

inductive Rehandled (s t : Handles) : Place → Place → Prop
  | same (p : Place) : Rehandled s t p p
  | draft {d d' : Draft} (hroots : d'.roots = d.roots) : Rehandled s t (.draft d) (.draft d')
  | start {m : Nat} {d : Draft} {x : Office} {work : Background Nat} (callback : Option Nat)
      (hx : s.offices[m]? = some x) (hwork : d.enter x.work = .ok work)
      (hy : t.offices[m]? = some ⟨work, x.callbacks ++ [callback]⟩) :
      Rehandled s t (.draft d) (.started m x.work.jobs.length)

theorem Handling.jobs {q : Request} (h : s.Handling q t) (i : Nat) :
    (∀ a, s.jobs[i]? = some a → ∃ b, t.jobs[i]? = some b ∧ s.Rehandled t a.place b.place ∧
      (a.freed = true → b.freed = true)) ∧
    (s.jobs[i]? = none → t.jobs[i]? = none ∨
      ∃ d : Draft, d.roots ≠ [] ∧ t.jobs[i]? = some ⟨.draft d, false⟩) := by
  have hsame : (∀ a, s.jobs[i]? = some a → ∃ b, s.jobs[i]? = some b ∧
      s.Rehandled t a.place b.place ∧ (a.freed = true → b.freed = true)) ∧
      (s.jobs[i]? = none → s.jobs[i]? = none ∨
        ∃ d : Draft, d.roots ≠ [] ∧ s.jobs[i]? = some ⟨.draft d, false⟩) :=
    ⟨fun a ha => ⟨a, ha, .same _, id⟩, .inl⟩
  -- A change of one handle is no change of the others.
  have hmodify {k : Nat} {c : Handle} (f : Handle → Handle) (hc : s.jobs[k]? = some c)
      (hplace : s.Rehandled t c.place (f c).place) (hfreed : (f c).freed = true ∨ c.freed = false) :
      (∀ a, s.jobs[i]? = some a → ∃ b, (s.jobs.modify k f)[i]? = some b ∧
        s.Rehandled t a.place b.place ∧ (a.freed = true → b.freed = true)) ∧
      (s.jobs[i]? = none → (s.jobs.modify k f)[i]? = none ∨
        ∃ d : Draft, d.roots ≠ [] ∧ (s.jobs.modify k f)[i]? = some ⟨.draft d, false⟩) := by
    rw [List.getElem?_modify]
    by_cases hk : k = i
    · subst hk
      rw [hc]
      refine ⟨fun a ha => ?_, nofun⟩
      obtain rfl := Option.some.inj ha
      refine ⟨f c, by simp, hplace, fun h => ?_⟩
      rcases hfreed with hfreed | hfreed
      · exact hfreed
      · rw [h] at hfreed
        cases hfreed
    · have hid : (fun a => if k = i then f a else a) <$> s.jobs[i]? = s.jobs[i]? := by
        cases s.jobs[i]? <;> simp [hk]
      rw [hid]
      exact hsame
  cases h with
  | nothing | runners | mailbox | work => exact hsame
  | draft c d hd hroots =>
      rw [getElem?_concat]
      refine ⟨fun a ha => ⟨a, ?_, .same _, id⟩, fun hnone => ?_⟩
      · rw [if_neg (Nat.ne_of_lt (List.getElem?_eq_some_iff.1 ha).1)]
        exact ha
      · split
        · exact .inr ⟨d, hroots, congrArg some hd⟩
        · exact .inl hnone
  | change d' l hj hroots => exact hmodify _ hj (.draft hroots) (.inr rfl)
  | free hj => exact hmodify _ hj (.same _) (.inl rfl)
  | @start k m d x work callback hj hx hwork =>
      refine hmodify _ hj (.start callback hx hwork ?_) (.inr rfl)
      show (s.offices.set m _)[m]? = _
      rw [List.getElem?_set, if_pos rfl, if_pos (List.getElem?_eq_some_iff.1 hx).1]

end Handles

end TreeTally
