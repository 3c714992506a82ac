import Mathlib.Order.Defs.PartialOrder
import TreeTally.Proofs.Walk.Advance

namespace TreeTally

namespace Tally

instance : LE Tally :=
  ⟨fun a b => a.bytes ≤ b.bytes ∧ a.files ≤ b.files ∧ a.folders ≤ b.folders ∧
    a.unreadable ≤ b.unreadable⟩

instance : Preorder Tally where
  le_refl t := ⟨t.bytes.le_refl, t.files.le_refl, t.folders.le_refl, t.unreadable.le_refl⟩
  le_trans a b c h h' :=
    ⟨Nat.le_trans h.1 h'.1, Nat.le_trans h.2.1 h'.2.1, Nat.le_trans h.2.2.1 h'.2.2.1,
      Nat.le_trans h.2.2.2 h'.2.2.2⟩

variable {t : Tally}

theorem le_addFile (size : Nat) (h : t.bytes ≤ maxBytes) : t ≤ t.addFile size :=
  ⟨Nat.le_min.2 ⟨Nat.le_add_right _ _, h⟩, Nat.le_succ _, Nat.le_refl _, Nat.le_refl _⟩

theorem le_addFolder : t ≤ t.addFolder :=
  ⟨Nat.le_refl _, Nat.le_refl _, Nat.le_succ _, Nat.le_refl _⟩

theorem le_addUnreadable : t ≤ t.addUnreadable :=
  ⟨Nat.le_refl _, Nat.le_refl _, Nat.le_refl _, Nat.le_succ _⟩

end Tally

namespace Walk

/-- What a step makes of the totals, which are within the limit afterwards. -/
structure Grows (w v : Walk) (s : Option Signal) : Prop where
  le : w.tally ≤ v.tally
  bytes : v.tally.bytes ≤ Tally.maxBytes
  reported : ∀ t, s = some (.event (.progress t)) → t = v.tally
  counted : ∀ t, v.stage = .done (.outcome (.ok t)) →
    t = v.tally ∧ s = some (.event (.progress t))
  cancelled : ∀ t, v.stage = .done (.outcome (.error (.cancelled t))) → t = v.tally

variable {P : Plan} {w v u : Walk} {s : Option Signal} {c : Bool}

theorem resume_goes_on (w : Walk) :
    w.resume.tally = w.tally ∧ ∀ e, w.resume.stage ≠ .done e := by
  rw [resume]
  split
  · exact ⟨rfl, nofun⟩
  · exact ⟨rfl, nofun⟩
  · exact ⟨rfl, nofun⟩

theorem grows_on (hle : w.tally ≤ v.tally) (hb : v.tally.bytes ≤ Tally.maxBytes)
    (hs : ∀ t, s = some (.event (.progress t)) → t = v.tally) (hgo : ∀ e, v.stage ≠ .done e) :
    w.Grows v s :=
  ⟨hle, hb, hs, fun _ h => absurd h (hgo _), fun _ h => absurd h (hgo _)⟩

theorem grows_same (hb : w.tally.bytes ≤ Tally.maxBytes) (ht : v.tally = w.tally)
    (hs : ∀ t, s = some (.event (.progress t)) → t = w.tally) (hgo : ∀ e, v.stage ≠ .done e) :
    w.Grows v s :=
  grows_on (ht ▸ le_refl _) (ht ▸ hb) (ht ▸ hs) hgo

theorem grows_end {e : Ending} (hb : w.tally.bytes ≤ Tally.maxBytes)
    (hs : ∀ t, s = some (.event (.progress t)) → t = w.tally)
    (hok : ∀ t, e = .outcome (.ok t) → t = w.tally ∧ s = some (.event (.progress t)))
    (hstop : ∀ t, e = .outcome (.error (.cancelled t)) → t = w.tally) :
    w.Grows { w with stage := .done e } s :=
  ⟨le_refl w.tally, hb, hs, fun t h => hok t (Stage.done.inj h),
    fun t h => hstop t (Stage.done.inj h)⟩

theorem grows_inspect {p : Path} {i : EntryInfo} (hb : w.tally.bytes ≤ Tally.maxBytes)
    (h : w.inspect P p i = (v, s)) : w.Grows v s := by
  rw [inspect] at h
  split at h
  · cases h
    exact grows_same hb w.resume_goes_on.1 nofun w.resume_goes_on.2
  split at h
  · cases h
    exact grows_same hb rfl nofun nofun
  · cases h
    let u : Walk := { w with tally := w.tally.addFile i.size }
    have ht : u.resume.tally = w.tally.addFile i.size := u.resume_goes_on.1
    refine grows_on ?_ ?_ nofun u.resume_goes_on.2
    · rw [ht]
      exact Tally.le_addFile _ hb
    · rw [ht]
      exact Nat.min_le_right _ _

theorem grows_opened {p : Path} {d : DeviceId} {answer : Except Fault (List Listed)}
    (hb : w.tally.bytes ≤ Tally.maxBytes) (h : w.opened P p d answer = (v, s)) : w.Grows v s := by
  cases answer with
  | ok entries =>
      cases h
      exact grows_on Tally.le_addFolder hb nofun nofun
  | error f =>
      rw [opened] at h
      split at h
      · cases h
        exact grows_on Tally.le_addUnreadable hb nofun nofun
      · cases h
        exact grows_on Tally.le_addUnreadable hb nofun nofun

theorem grows_pull (hb : w.tally.bytes ≤ Tally.maxBytes) (h : w.pull = (v, s)) : w.Grows v s := by
  rw [pull] at h
  split at h
  · cases h
    exact grows_same hb w.resume_goes_on.1 nofun w.resume_goes_on.2
  · cases h
    exact grows_same hb rfl nofun nofun
  · cases h
    refine grows_same hb rfl (fun t h => ?_) nofun
    split at h <;> cases h

theorem grows_leave (hb : w.tally.bytes ≤ Tally.maxBytes) (h : w.leave P = (v, s)) :
    w.Grows v s := by
  rw [leave] at h
  split at h
  · cases h
    exact grows_end hb nofun nofun nofun
  · rename_i report throttle _
    obtain ⟨rfl, rfl⟩ := Prod.mk.inj h
    refine grows_same hb (resume_goes_on _).1 (fun t h => ?_) (resume_goes_on _).2
    split at h
    · cases h
      rfl
    · cases h

theorem step_grows (hb : w.tally.bytes ≤ Tally.maxBytes) (hf : w.finished? = none)
    (h : w.step P c = (v, s)) : w.Grows v s := by
  rw [step] at h
  split at h
  · cases h
    exact grows_end hb (by simp) (by simp) fun t h => by cases h; rfl
  rw [proceed] at h
  cases hs : w.stage with
  | start =>
      rw [hs] at h
      cases h
      exact grows_same hb w.resume_goes_on.1 (by simp) w.resume_goes_on.2
  | visit p info =>
      rw [hs] at h
      cases info with
      | none =>
          cases h
          exact grows_same hb rfl (by simp) (by simp)
      | some i =>
          cases h
          exact grows_same hb rfl (by simp) (by simp)
  | inspect p answer =>
      rw [hs] at h
      cases answer with
      | ok i => exact grows_inspect hb h
      | error f =>
          cases h
          exact grows_end hb (by simp) (by simp) (by simp)
  | opened p d answer =>
      rw [hs] at h
      exact grows_opened hb h
  | refused p f =>
      rw [hs] at h
      cases h
      exact grows_end hb (by simp) (by simp) (by simp)
  | pull =>
      rw [hs] at h
      exact grows_pull hb h
  | received folder entry =>
      rw [hs] at h
      cases entry with
      | ok c =>
          cases h
          exact grows_same hb rfl (by simp) (by simp)
      | error f =>
          cases h
          exact grows_same hb rfl (by simp) (by simp)
  | leave =>
      rw [hs] at h
      exact grows_leave hb h
  | closing =>
      rw [hs] at h
      cases h
      refine grows_end hb (fun t h => ?_) (fun t h => ?_) (by simp)
      · cases h
        rfl
      · cases h
        exact ⟨rfl, rfl⟩
  | done e =>
      rw [finished?, hs] at hf
      cases hf

/-- The snapshots that were sent rise up to the totals of the walk, with which it ends. -/
structure Tracks (w : Walk) (snapshots : List Tally) : Prop where
  bytes : w.tally.bytes ≤ Tally.maxBytes
  rising : snapshots.Pairwise (· ≤ ·)
  le : ∀ t ∈ snapshots, t ≤ w.tally
  counted : ∀ t, w.stage = .done (.outcome (.ok t)) → t = w.tally ∧ snapshots.getLast? = some t
  cancelled : ∀ t, w.stage = .done (.outcome (.error (.cancelled t))) → t = w.tally

theorem tracks_start (options : Options) (roots : List Path) : (start options roots).Tracks [] :=
  ⟨Nat.zero_le _, .nil, nofun, nofun, nofun⟩

theorem Tracks.step {snapshots : List Tally} (h : w.Tracks snapshots) (hs : w.step P c = (v, s)) :
    v.Tracks (snapshots ++ (eventsOf s.toList).filterMap Event.progress?) := by
  cases hf : w.finished? with
  | some e =>
      rw [step_done (finished?_eq_some.1 hf)] at hs
      obtain ⟨rfl, rfl⟩ := Prod.mk.inj hs
      have hnil : (eventsOf (none : Option Signal).toList).filterMap Event.progress? = [] := rfl
      rw [hnil, List.append_nil]
      exact h
  | none =>
      have hgrows := step_grows h.bytes hf hs
      have hmem : ∀ t ∈ (eventsOf s.toList).filterMap Event.progress?, t = v.tally := by
        intro t ht
        obtain ⟨e, he, hprogress⟩ := List.mem_filterMap.1 ht
        rcases s with _ | e' | m
        · cases he
        · obtain rfl : e = e' := List.mem_singleton.1 he
          cases e with
          | progress u =>
              obtain rfl : u = t := Option.some.inj hprogress
              exact hgrows.reported u rfl
          | _ => cases hprogress
        · cases he
      have hle : ∀ t ∈ snapshots, t ≤ v.tally := fun t ht => le_trans (h.le t ht) hgrows.le
      refine ⟨hgrows.bytes, ?_, ?_, ?_, hgrows.cancelled⟩
      · refine List.pairwise_append.2 ⟨h.rising, ?_, fun t ht u hu => hmem u hu ▸ hle t ht⟩
        exact List.pairwise_of_forall_mem_list fun t ht u hu => by rw [hmem t ht, hmem u hu]
      · intro t ht
        rcases List.mem_append.1 ht with ht | ht
        · exact hle t ht
        · rw [hmem t ht]
      · intro t ht
        obtain ⟨htally, rfl⟩ := hgrows.counted t ht
        exact ⟨htally, List.getLast?_concat⟩

theorem Tracks.advance {snapshots : List Tally} {k : Nat} {l : List Signal} (h : w.Tracks snapshots)
    (hv : Walk.advance P k w = (l, v)) : v.Tracks (snapshots ++ snapshotsOf l) := by
  induction k generalizing w snapshots l with
  | zero =>
      obtain ⟨rfl, rfl⟩ := Prod.mk.inj hv
      rw [show snapshotsOf [] = [] from rfl, List.append_nil]
      exact h
  | succ k ih =>
      rcases hs : w.step P false with ⟨x, s⟩
      rw [advance_succ, hs] at hv
      obtain ⟨rfl, hu⟩ := Prod.mk.inj hv
      rw [snapshotsOf_append, ← List.append_assoc]
      exact ih (h.step hs) (Prod.ext rfl hu)

end Walk

end TreeTally
