import TreeTally.Proofs.Walk.Totals

namespace TreeTally

/-- What a walk meets at a root. The root's own device is the home of all that lies below. -/
def Plan.Shows (P : Plan) (r : Path) (s : Sight) : Prop :=
  ∃ i, P.fs.stat r P.options.follow = .ok i ∧ s.Shown P.fs P.options.follow i.device r i

def Plan.course (P : Plan) : List (Path × Sight) → Pace → Course
  | [], s => ⟨[], some s⟩
  | (r, sight) :: rest, s =>
      ((sight.course P r s).andThen (P.course rest)).after [.event (.stat r)]

def rootsCost (l : List (Path × Sight)) : Nat := (l.map fun x => x.2.cost + 1).sum

def rootsTotal (l : List (Path × Sight)) : Tally := (l.map fun x => x.2.total).sum

def Course.report (c : Course) (close : Pace → Report) : Report :=
  match c.pace with
  | some s => ⟨c.signals ++ (close s).signals, (close s).ending⟩
  | none => ⟨c.signals, .clockOverrun⟩

namespace Walk

variable {P : Plan}

theorem follows_roots (l : List (Path × Sight)) (w : Walk) (rest : List Path)
    (h : ∀ x ∈ l, P.Shows x.1 x.2 ∧ (P.lone = false ∨ ∀ f, x.2 ≠ .barred f)) :
    Follows P (rootsCost l) { w with frames := [], roots := l.map Prod.fst ++ rest }.resume
      (P.course l w.pace)
      (fun q => { w.atPace q with frames := [], roots := rest }.resume) := by
  induction l generalizing w with
  | nil => rfl
  | cons x l ih =>
      obtain ⟨r, sight⟩ := x
      obtain ⟨⟨i, hi, hs⟩, hlone⟩ := h _ List.mem_cons_self
      let here : Walk := { w with frames := [], roots := l.map Prod.fst ++ rest }
      have hvisit : ({ here with stage := .visit r none } : Walk).step P false =
          ({ here with stage := .inspect r (.ok i) }, some (.event (.stat r))) := by
        rw [← hi]
        rfl
      have hsight := follows_sight sight here hs rfl (.inr hlone)
      have hgo (q : Pace) := ih (w.atPace q) fun y hy => h y (List.mem_cons_of_mem _ hy)
      have hcost : rootsCost ((r, sight) :: l) = sight.cost + rootsCost l + 1 := by
        simp only [rootsCost, List.map_cons, List.sum_cons]
        omega
      rw [hcost]
      exact (hsight.andThen hgo).step hvisit

theorem count_of_follows {k m fuel : Nat} {roots : List Path} {c : Course} {next : Pace → Walk}
    {close : Pace → Report}
    (h : Follows P k (start P.options roots).resume c next)
    (hclose : ∀ s, ∃ v, advance P m (next s) = ((close s).signals, v) ∧
      v.stage = .done (close s).ending)
    (hfuel : k + m + 1 < fuel) : P.count fuel {} roots = some (c.report close) := by
  have hstart : advance P 1 (start P.options roots) = ([], (start P.options roots).resume) :=
    advance_one rfl
  rw [Follows] at h
  rw [Course.report]
  cases hp : c.pace with
  | none =>
      rw [hp] at h
      obtain ⟨v, hv, hd⟩ := h
      exact drive_of_advance (advance_trans hstart hv) hd (by omega)
  | some s =>
      rw [hp] at h
      obtain ⟨v, hv, hd⟩ := hclose s
      have hall := advance_trans hstart (advance_trans h hv)
      exact drive_of_advance hall hd (by omega)

end Walk

open Walk

variable {P : Plan} {l : List (Path × Sight)} {fuel : Nat}

theorem count_shown (h : ∀ x ∈ l, P.Shows x.1 x.2 ∧ (P.lone = false ∨ ∀ f, x.2 ≠ .barred f))
    (hfuel : rootsCost l + 2 < fuel) :
    P.count fuel {} (l.map Prod.fst) =
      some ((P.course l ⟨{}, ⟨P.options.interval, none⟩, 0⟩).report fun s =>
        ⟨[.event (.progress s.tally)], .outcome (.ok s.tally)⟩) := by
  have hl := follows_roots l (start P.options (l.map Prod.fst)) [] h
  rw [List.append_nil] at hl
  exact count_of_follows hl (fun s => ⟨_, advance_one rfl, rfl⟩) hfuel

theorem count_unshown {r : Path} {f : Fault}
    (h : ∀ x ∈ l, P.Shows x.1 x.2 ∧ (P.lone = false ∨ ∀ f, x.2 ≠ .barred f))
    (hr : P.fs.stat r P.options.follow = .error f) (hfuel : rootsCost l + 3 < fuel) (rest : List Path) :
    P.count fuel {} (l.map Prod.fst ++ r :: rest) =
      some ((P.course l ⟨{}, ⟨P.options.interval, none⟩, 0⟩).report fun _ =>
        ⟨[.event (.stat r)], .outcome (.error (.unreadable r f))⟩) := by
  have hl := follows_roots l (start P.options (l.map Prod.fst ++ r :: rest)) (r :: rest) h
  refine count_of_follows hl (fun s => ?_) hfuel
  let here : Walk := { (start P.options []).atPace s with roots := rest }
  have hvisit : ({ here with stage := .visit r none } : Walk).step P false =
      ({ here with stage := .inspect r (.error f) }, some (.event (.stat r))) := by
    rw [← hr]
    rfl
  exact ⟨_, advance_trans (advance_one hvisit) (advance_one rfl), rfl⟩

theorem count_barred {r : Path} {i : EntryInfo} {f : Fault} (hlone : P.lone = true)
    (hi : P.fs.stat r P.options.follow = .ok i) (hk : i.kind = .folder)
    (hf : P.fs.list r P.options.follow = .error f) (hfuel : 5 < fuel) :
    P.count fuel {} [r] =
      some ⟨[.event (.stat r), .event (.list r)], .outcome (.error (.unreadable r f))⟩ := by
  let here : Walk := start P.options []
  have hvisit : ({ here with stage := .visit r none } : Walk).step P false =
      ({ here with stage := .inspect r (.ok i) }, some (.event (.stat r))) := by
    rw [← hi]
    rfl
  have hhome : (here.frames.head?.map (·.device)).getD i.device = i.device := rfl
  have hlook := step_inspect (P := P) (p := r) here hhome
  rw [if_neg (not_not_intro rfl), if_pos hk, hf] at hlook
  have hfatal : here.frames.isEmpty ∧ P.lone := ⟨rfl, hlone⟩
  have hopen : ({ here with stage := .opened r i.device (.error f) } : Walk).step P false =
      ({ here with stage := .refused r f, tally := here.tally.addUnreadable }, none) :=
    if_pos hfatal
  have hall := advance_trans (advance_one hvisit) (advance_trans (advance_one hlook)
    (advance_trans (advance_one hopen) (advance_one (P := P) rfl)))
  have hstart : advance P 1 (start P.options [r]) = ([], { here with stage := .visit r none }) :=
    advance_one rfl
  exact drive_of_advance (advance_trans hstart hall) rfl hfuel

theorem gains_roots {t : Tally} (s : Pace) (ht : s.tally = t.capped)
    (hi : s.throttle.interval = P.options.interval) :
    (P.course l s).Gains P (t + rootsTotal l) := by
  induction l generalizing s t with
  | nil => exact ⟨by simpa [rootsTotal] using ht, hi⟩
  | cons x l ih =>
      obtain ⟨r, sight⟩ := x
      refine (Course.gains_after _).2 ((gains_sight sight s ht hi).andThen ?_)
      intro q hq hqi
      rw [rootsTotal, List.map_cons, List.sum_cons, ← add_assoc]
      exact ih q hq hqi

theorem Course.Gains.ending {t : Tally} {c : Course} (h : c.Gains P t) (close : Pace → Report) :
    (∃ s : Pace, s.tally = t.capped ∧ (c.report close).ending = (close s).ending) ∨
      (c.report close).ending = .clockOverrun ∧ P.Overruns := by
  rw [Course.Gains] at h
  rw [Course.report]
  cases hp : c.pace with
  | none =>
      rw [hp] at h
      exact .inr ⟨rfl, h⟩
  | some s =>
      rw [hp] at h
      exact .inl ⟨s, h.1, rfl⟩

end TreeTally
