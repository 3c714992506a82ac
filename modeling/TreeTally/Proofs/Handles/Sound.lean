import TreeTally.Proofs.Handles.Offices
import TreeTally.Proofs.Background.Lifecycle

namespace TreeTally

open Background

def Office.Runs (x : Office) (n : Nat) : Prop :=
  ∃ j₀ label, Labelled j₀ label (x.work.view n) ∧
    Begun n j₀ label (x.work.stopped n) (x.work.view n)

namespace Office

variable {x y : Office} {n : Nat} {r : Prop}

theorem Onward.begun {j₀ : Job} {label : Option Nat} (hxy : x.Onward r y)
    (hlabel : Labelled j₀ label (x.work.view n))
    (hbegun : Begun n j₀ label (x.work.stopped n) (x.work.view n)) :
    Labelled j₀ label (y.work.view n) ∧ Begun n j₀ label (y.work.stopped n) (y.work.view n) :=
  hxy.reaches.preserves (I := fun d => Labelled j₀ label (d.view n) ∧
    Begun n j₀ label (d.stopped n) (d.view n)) (fun _ a h => begun_act a h.1 h.2) ⟨hlabel, hbegun⟩

theorem Runs.onward (h : x.Runs n) (hxy : x.Onward r y) : y.Runs n := by
  obtain ⟨j₀, label, hlabel, hbegun⟩ := h
  exact ⟨j₀, label, hxy.begun hlabel hbegun⟩

theorem Runs.exists_job (h : x.Runs n) : ∃ j, x.work.jobs[n]? = some j ∧ j.state ≠ .created := by
  obtain ⟨j₀, label, -, hbegun⟩ := h
  obtain ⟨j, hj, -, hstate⟩ := hbegun.exists_job
  exact ⟨j, hj, hstate⟩

end Office

namespace Handles

variable {s t : Handles} {i m n : Nat} {x y : Office}

theorem step_offices (s : Handles) (e : Step) (m : Nat) :
    (∀ x, s.offices[m]? = some x → ∃ y, (s.step e).offices[m]? = some y ∧
      x.Onward (e.reads m = true) y) ∧
    (s.offices[m]? = none → (s.step e).offices[m]? = none ∨ (s.step e).offices[m]? = some {}) := by
  have hwork (k : Nat) (f : Background Nat → Background Nat)
      (hf : ∀ x : Office, k = m → x.Onward (e.reads m = true) { x with work := f x.work }) :
      (∀ x, s.offices[m]? = some x → ∃ y, (s.modifyWork k f).offices[m]? = some y ∧
        x.Onward (e.reads m = true) y) ∧
      (s.offices[m]? = none → (s.modifyWork k f).offices[m]? = none ∨
        (s.modifyWork k f).offices[m]? = some {}) := by
    refine ⟨fun x hx => onward_modifyWork hx (hf x), fun hnone => .inl ?_⟩
    rw [offices_modifyWork, hnone]
    rfl
  cases e with
  | call q =>
      obtain ⟨t, err, h, ht⟩ := s.handled_answer q
      rw [step, ht]
      exact h.offices m
  | read k =>
      refine hwork k _ fun x hk => ?_
      rw [← act_read_eq]
      exact (Office.Onward.of_reads x 1).mono fun _ => decide_eq_true hk
  | move k l p =>
      refine hwork k _ fun x hk => ?_
      exact (Office.Onward.of_act x (a := .move l p) nofun).mono nofun

theorem step_jobs (s : Handles) (e : Step) (i : Nat) :
    (∀ a, s.jobs[i]? = some a → ∃ b, (s.step e).jobs[i]? = some b ∧
      s.Rehandled (s.step e) a.place b.place ∧ (a.freed = true → b.freed = true)) ∧
    (s.jobs[i]? = none → (s.step e).jobs[i]? = none ∨
      ∃ d : Draft, d.roots ≠ [] ∧ (s.step e).jobs[i]? = some ⟨.draft d, false⟩) := by
  cases e with
  | call q =>
      obtain ⟨t, err, h, ht⟩ := s.handled_answer q
      obtain ⟨hold, hnew⟩ := h.jobs i
      rw [step, ht]
      refine ⟨fun ⟨p, f⟩ ha => ?_, hnew⟩
      obtain ⟨⟨p', f'⟩, hb, hplace, hfreed⟩ := hold ⟨p, f⟩ ha
      refine ⟨⟨p', f'⟩, hb, ?_, hfreed⟩
      dsimp only at hplace ⊢
      cases hplace with
      | same => exact .same p
      | draft hroots => exact .draft hroots
      | start callback hx hwork hy => exact .start callback hx hwork hy
  | read k => exact ⟨fun a ha => ⟨a, ha, .same _, id⟩, .inl⟩
  | move k l p => exact ⟨fun a ha => ⟨a, ha, .same _, id⟩, .inl⟩

theorem play_office (script : List Step) (hx : s.offices[m]? = some x) :
    ∃ y, (s.play script).offices[m]? = some y ∧ x.Onward (∃ e ∈ script, e.reads m = true) y := by
  induction script generalizing s x with
  | nil => exact ⟨x, hx, .refl _ x⟩
  | cons e script ih =>
      obtain ⟨y, hy, hxy⟩ := (s.step_offices e m).1 x hx
      obtain ⟨z, hz, hyz⟩ := ih hy
      refine ⟨z, hz, (hxy.mono fun h => ⟨e, List.mem_cons_self, h⟩).trans (hyz.mono ?_)⟩
      rintro ⟨a, ha, hreads⟩
      exact ⟨a, List.mem_cons_of_mem e ha, hreads⟩

theorem play_started {f : Bool} (script : List Step) (hi : s.jobs[i]? = some ⟨.started m n, f⟩) :
    ∃ g, (s.play script).jobs[i]? = some ⟨.started m n, g⟩ ∧ (f = true → g = true) := by
  induction script generalizing s f with
  | nil => exact ⟨f, hi, id⟩
  | cons e script ih =>
      obtain ⟨⟨p, g⟩, hb, hplace, hfreed⟩ := (s.step_jobs e i).1 _ hi
      cases hplace
      obtain ⟨g', hg', hfreed'⟩ := ih hb
      exact ⟨g', hg', fun hf => hfreed' (hfreed hf)⟩

/-- All that was handed out is in order. -/
structure Sound (s : Handles) : Prop where
  reached : ∀ (m : Nat) (x : Office), s.offices[m]? = some x →
    ({} : Background Nat).Reaches x.work
  callbacks : ∀ (m : Nat) (x : Office), s.offices[m]? = some x →
    x.callbacks.length = x.work.jobs.length
  drafts : ∀ (i : Nat) (d : Draft) (f : Bool), s.jobs[i]? = some ⟨.draft d, f⟩ → d.roots ≠ []
  started : ∀ (i m n : Nat) (f : Bool), s.jobs[i]? = some ⟨.started m n, f⟩ →
    ∃ x, s.offices[m]? = some x ∧ x.Runs n

theorem runs_entered {d : Draft} {work b₁ : Background Nat} {j : Job}
    (hx : ({} : Background Nat).Reaches x.work) (h : d.Entered x.work work b₁ j)
    (callbacks : List (Option Nat)) : Office.Runs ⟨work, callbacks⟩ x.work.jobs.length := by
  obtain ⟨label, -, hlabel, hbegun⟩ := begun_run (hx.trans h.reaches) h.job h.run
  exact ⟨j, label, hlabel, hbegun⟩

theorem Sound.step (h : s.Sound) (e : Step) : (s.step e).Sound := by
  -- Each mailbox and each job was there before, or is new.
  have hoffice (m : Nat) (y : Office) (hy : (s.step e).offices[m]? = some y) :
      y = {} ∨ ∃ x r, s.offices[m]? = some x ∧ x.Onward r y := by
    obtain ⟨hold, hnew⟩ := s.step_offices e m
    cases hx : s.offices[m]? with
    | none =>
        rcases hnew hx with hnone | hempty
        · rw [hnone] at hy
          cases hy
        · exact .inl (Option.some.inj (hy.symm.trans hempty))
    | some x =>
        obtain ⟨z, hz, hxz⟩ := hold x hx
        obtain rfl := Option.some.inj (hz.symm.trans hy)
        exact .inr ⟨x, _, rfl, hxz⟩
  have hjob (i : Nat) (b : Handle) (hb : (s.step e).jobs[i]? = some b) :
      (∃ d : Draft, d.roots ≠ [] ∧ b = ⟨.draft d, false⟩) ∨
        ∃ a, s.jobs[i]? = some a ∧ s.Rehandled (s.step e) a.place b.place := by
    obtain ⟨hold, hnew⟩ := s.step_jobs e i
    cases ha : s.jobs[i]? with
    | none =>
        rcases hnew ha with hnone | ⟨d, hroots, hd⟩
        · rw [hnone] at hb
          cases hb
        · exact .inl ⟨d, hroots, Option.some.inj (hb.symm.trans hd)⟩
    | some a =>
        obtain ⟨c, hc, hplace, -⟩ := hold a ha
        obtain rfl := Option.some.inj (hc.symm.trans hb)
        exact .inr ⟨a, rfl, hplace⟩
  constructor
  · intro m y hy
    rcases hoffice m y hy with rfl | ⟨x, r, hx, hxy⟩
    · exact .refl _
    · exact (h.reached m x hx).trans hxy.reaches
  · intro m y hy
    rcases hoffice m y hy with rfl | ⟨x, r, hx, hxy⟩
    · rfl
    · obtain ⟨more, hmore, hlength⟩ := hxy.callbacks
      rw [hmore, hlength, List.length_append, h.callbacks m x hx]
  · intro i d f hd
    rcases hjob i _ hd with ⟨d', hroots, hd'⟩ | ⟨⟨p, g⟩, ha, hplace⟩
    · cases hd'
      exact hroots
    · cases hplace with
      | same => exact h.drafts i d g ha
      | draft hroots =>
          rw [hroots]
          exact h.drafts i _ g ha
  · intro i m n f hn
    rcases hjob i _ hn with ⟨d', -, hd'⟩ | ⟨⟨p, g⟩, ha, hplace⟩
    · cases hd'
    · cases hplace with
      | same =>
          obtain ⟨x, hx, hruns⟩ := h.started i m n g ha
          obtain ⟨y, hy, hxy⟩ := (s.step_offices e m).1 x hx
          exact ⟨y, hy, hruns.onward hxy⟩
      | start callback hx hwork hy =>
          obtain ⟨b₁, j, hentered⟩ := Draft.entered_of_ok hwork
          exact ⟨_, hy, runs_entered (h.reached m _ hx) hentered _⟩

theorem sound_play (script : List Step) (h : s.Sound) : (s.play script).Sound := by
  induction script generalizing s with
  | nil => exact h
  | cons e script ih => exact ih (h.step e)

theorem sound (script : List Step) : (({} : Handles).play script).Sound :=
  sound_play script ⟨nofun, nofun, nofun, nofun⟩

end Handles

end TreeTally
