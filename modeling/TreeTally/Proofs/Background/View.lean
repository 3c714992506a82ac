import TreeTally.Proofs.Background.Script

namespace TreeTally

variable {α : Type}

def Work.isFor (i : Nat) : Work → Bool
  | count job _ _ _ => decide (job = i)
  | errand _ _ => false

def Letter.isFor (i : Nat) : Letter α → Bool
  | progress job _ _ => decide (job = i)
  | counted job _ => decide (job = i)
  | note _ | errandDone _ _ _ => false

def Call.isFor (i : Nat) : Call α → Bool
  | progress job _ _ => decide (job = i)
  | done job _ _ => decide (job = i)
  | note _ | errandDone _ _ _ _ => false

/-- The part of the background that concerns one job, with the labels of all observers and the
number of all tokens. -/
@[ext] structure View (α : Type) where
  job : Option Job
  works : List Work
  letters : List (Letter α)
  calls : List (Call α)
  labels : List (Option α)
  tokens : Nat
  closed : Bool

namespace View

variable (v : View α)

def post (l : Letter α) : View α := if v.closed then v else { v with letters := v.letters ++ [l] }

def hear (i : Nat) (j : Job) (observer : Option Nat) (seen : Nat) : Signal → View α × Nat
  | .log _ => (v, seen)
  | .event (.progress t) =>
      (match observer with
        | some o => v.post (.progress i o t)
        | none => v, seen)
  | .event e => ({ v with job := some { j with heard := e :: j.heard } }, seen + 1)

def hear? (i : Nat) (j : Job) (observer : Option Nat) (seen : Nat) : Option Signal → View α × Nat
  | some s => v.hear i j observer seen s
  | none => (v, seen)

def settle (i : Nat) : Ending → View α
  | .outcome o => v.post (.counted i o)
  | .clockOverrun => v

variable {v}

@[simp] theorem post_job (l : Letter α) : (v.post l).job = v.job := by
  rw [post]
  split <;> rfl

@[simp] theorem post_labels (l : Letter α) : (v.post l).labels = v.labels := by
  rw [post]
  split <;> rfl

@[simp] theorem post_tokens (l : Letter α) : (v.post l).tokens = v.tokens := by
  rw [post]
  split <;> rfl

@[simp] theorem post_calls (l : Letter α) : (v.post l).calls = v.calls := by
  rw [post]
  split <;> rfl

@[simp] theorem post_closed (l : Letter α) : (v.post l).closed = v.closed := by
  rw [post]
  split <;> rfl

theorem hear?_fields (i : Nat) (j : Job) (o : Option Nat) (seen : Nat) (s : Option Signal) :
    (v.hear? i j o seen s).1.labels = v.labels ∧
    (v.hear? i j o seen s).1.tokens = v.tokens ∧
    ((v.hear? i j o seen s).1.job = v.job ∨
      ∃ e, (v.hear? i j o seen s).1.job = some { j with heard := e :: j.heard }) := by
  rcases s with _ | e | m
  · exact ⟨rfl, rfl, .inl rfl⟩
  · cases e with
    | progress t =>
        cases o with
        | none => exact ⟨rfl, rfl, .inl rfl⟩
        | some x => exact ⟨post_labels _, post_tokens _, .inl (post_job _)⟩
    | _ => exact ⟨rfl, rfl, .inr ⟨_, rfl⟩⟩
  · exact ⟨rfl, rfl, .inl rfl⟩

theorem settle_fields (i : Nat) (e : Ending) : (v.settle i e).labels = v.labels ∧
    (v.settle i e).tokens = v.tokens ∧ (v.settle i e).job = v.job := by
  cases e with
  | clockOverrun => exact ⟨rfl, rfl, rfl⟩
  | outcome out => exact ⟨post_labels _, post_tokens _, post_job _⟩

theorem hear?_calls (i : Nat) (j : Job) (o : Option Nat) (seen : Nat) (s : Option Signal) :
    (v.hear? i j o seen s).1.calls = v.calls ∧ (v.hear? i j o seen s).1.closed = v.closed := by
  rcases s with _ | e | m
  · exact ⟨rfl, rfl⟩
  · cases e with
    | progress t =>
        cases o with
        | none => exact ⟨rfl, rfl⟩
        | some x => exact ⟨post_calls _, post_closed _⟩
    | _ => exact ⟨rfl, rfl⟩
  · exact ⟨rfl, rfl⟩

theorem settle_calls (i : Nat) (e : Ending) :
    (v.settle i e).calls = v.calls ∧ (v.settle i e).closed = v.closed := by
  cases e with
  | clockOverrun => exact ⟨rfl, rfl⟩
  | outcome out => exact ⟨post_calls _, post_closed _⟩

end View

namespace Background

def view (b : Background α) (i : Nat) : View α where
  job := b.jobs[i]?
  works := (b.defaultLane ++ b.idleLane).filter (·.isFor i)
  letters := b.mailbox.waiting.filter (·.isFor i)
  calls := b.calls.filter (·.isFor i)
  labels := b.observers.map (·.label)
  tokens := b.tokens.length
  closed := b.mailbox.closed

def stopped (b : Background α) (i : Nat) : Bool := (b.jobs[i]?).any fun j => b.isCancelled j.token

variable (b : Background α) (i : Nat)

theorem calls_record_call (c : Call α) : (b.record (.call c)).calls = b.calls ++ [c] := by
  simp [calls, journal, record]

theorem calls_log (m : LogMessage) : (b.log m).calls = b.calls := by
  simp [calls, journal, log, record]

@[simp] theorem view_log (m : LogMessage) : (b.log m).view i = b.view i := by
  rw [view, calls_log]
  rfl

@[simp] theorem view_cancelToken (t : Nat) : (b.cancelToken t).view i = b.view i :=
  congrArg (fun tokens => { b.view i with tokens }) List.length_set

theorem view_newToken :
    b.newToken.view i = { b.view i with tokens := (b.view i).tokens + 1 } :=
  congrArg (fun tokens => { b.view i with tokens }) (List.length_append ..)

theorem view_call (c : Call α) : (b.record (.call c)).view i =
    { b.view i with calls := (b.view i).calls ++ [c].filter (·.isFor i) } := by
  have hcalls : (b.record (.call c)).calls.filter (·.isFor i) =
      (b.view i).calls ++ [c].filter (·.isFor i) := by
    rw [calls_record_call, List.filter_append]
    rfl
  rw [← hcalls]
  rfl

theorem view_post (l : Letter α) :
    (b.post l).view i = if l.isFor i then (b.view i).post l else b.view i := by
  have hclosed : (b.mailbox.post l).closed = b.mailbox.closed := by
    rw [Mailbox.post]
    split <;> simp [*]
  cases hc : b.mailbox.closed with
  | true =>
      have hsame : b.mailbox.post l = b.mailbox := by simp [Mailbox.post, hc]
      have hview : (b.post l).view i = b.view i := by rw [view, post, hsame]; rfl
      have hpost : (b.view i).post l = b.view i := by simp [View.post, view, hc]
      rw [hview, hpost, ite_self]
  | false =>
      have hpost : (b.view i).post l =
          { b.view i with letters := (b.view i).letters ++ [l] } := by simp [View.post, view, hc]
      have hfilter : (b.mailbox.post l).waiting.filter (·.isFor i) =
          (b.view i).letters ++ [l].filter (·.isFor i) := by
        rw [Mailbox.waiting_post l hc, List.filter_append]
        rfl
      have hview : (b.post l).view i =
          { b.view i with letters := (b.view i).letters ++ [l].filter (·.isFor i) } := by
        rw [← hfilter]
        ext1 <;> first | rfl | exact hclosed
      rw [hview, hpost]
      cases hl : l.isFor i <;> simp [hl]

theorem view_postResult (l : Letter α) :
    (b.postResult l).view i = if l.isFor i then (b.view i).post l else b.view i := by
  rw [postResult]
  split
  · exact view_post b i l
  · rename_i h
    have hclosed : (b.view i).closed = true := by simpa [Mailbox.accepts, view] using h
    simp [View.post, hclosed]

theorem view_modifyJob (job : Nat) (f : Job → Job) : (b.modifyJob job f).view i =
    { b.view i with job := if job = i then b.jobs[i]?.map f else b.jobs[i]? } := by
  have hjob : (b.modifyJob job f).jobs[i]? = if job = i then b.jobs[i]?.map f else b.jobs[i]? := by
    rw [modifyJob, List.getElem?_modify]
    split <;> simp
  rw [← hjob]
  rfl

def worksBefore : Lane → List Work
  | .default => []
  | .idle => b.defaultLane.filter (·.isFor i)

def worksAfter : Lane → List Work
  | .default => b.idleLane.filter (·.isFor i)
  | .idle => []

theorem works_eq (l : Lane) : (b.view i).works =
    b.worksBefore i l ++ (b.lane l).filter (·.isFor i) ++ b.worksAfter i l := by
  cases l <;> simp [view, worksBefore, worksAfter, lane]

theorem view_setLane (works : List Work) (l : Lane) : (b.setLane works l).view i =
    { b.view i with
      works := b.worksBefore i l ++ works.filter (·.isFor i) ++ b.worksAfter i l } := by
  have hworks : ((b.setLane works l).defaultLane ++ (b.setLane works l).idleLane).filter (·.isFor i) =
      b.worksBefore i l ++ works.filter (·.isFor i) ++ b.worksAfter i l := by
    cases l <;> simp [setLane, worksBefore, worksAfter]
  rw [← hworks]
  cases l <;> rfl

theorem lane_split {l : Lane} {k : Nat} {work : Work} (h : (b.lane l)[k]? = some work) :
    b.lane l = (b.lane l).take k ++ work :: (b.lane l).drop (k + 1) := by
  obtain ⟨hk, hwork⟩ := List.getElem?_eq_some_iff.1 h
  rw [← hwork, ← List.drop_eq_getElem_cons hk, List.take_append_drop]

theorem exists_works_split {l : Lane} {k : Nat} {work : Work} (h : (b.lane l)[k]? = some work) :
    ∃ x y, (b.view i).works = x ++ [work].filter (·.isFor i) ++ y ∧
      ∀ (c : Background α) (left : Option Work), c.defaultLane = b.defaultLane →
        c.idleLane = b.idleLane →
        (c.setLane ((b.lane l).take k ++ left.toList ++ (b.lane l).drop (k + 1)) l).view i =
          { c.view i with works := x ++ left.toList.filter (·.isFor i) ++ y } := by
  refine ⟨b.worksBefore i l ++ ((b.lane l).take k).filter (·.isFor i),
    ((b.lane l).drop (k + 1)).filter (·.isFor i) ++ b.worksAfter i l, ?_, ?_⟩
  · have hlane : (b.lane l).filter (·.isFor i) = ((b.lane l).take k).filter (·.isFor i) ++
        ([work].filter (·.isFor i) ++ ((b.lane l).drop (k + 1)).filter (·.isFor i)) :=
      calc (b.lane l).filter (·.isFor i)
          = ((b.lane l).take k ++ ([work] ++ (b.lane l).drop (k + 1))).filter (·.isFor i) :=
            congrArg _ (lane_split b h)
        _ = _ := by rw [List.filter_append, List.filter_append]
    rw [works_eq b i l, hlane]
    simp only [List.append_assoc]
  · intro c left hdefault hidle
    have hbefore : c.worksBefore i l = b.worksBefore i l := by cases l <;> simp [worksBefore, hdefault]
    have hafter : c.worksAfter i l = b.worksAfter i l := by cases l <;> simp [worksAfter, hidle]
    rw [view_setLane, hbefore, hafter]
    simp only [List.filter_append, List.append_assoc]

theorem view_hear {job : Nat} {j : Job} (h : b.jobs[job]? = some j) (o : Option Nat) (seen : Nat)
    (s : Signal) : (b.hear job j o seen s).1.view i =
      if job = i then ((b.view i).hear i j o seen s).1 else b.view i := by
  have hheard (e : Event) : (b.modifyJob job fun j => { j with heard := e :: j.heard }).view i =
      if job = i then { b.view i with job := some { j with heard := e :: j.heard } } else b.view i := by
    rw [view_modifyJob]
    split
    · rename_i hi
      rw [← hi, h]
      rfl
    · rfl
  cases s with
  | log m => simp [hear, View.hear]
  | event e =>
      cases e with
      | progress t =>
          cases o with
          | none => simp [hear, View.hear]
          | some o =>
              by_cases hi : job = i
              · subst hi
                simp [hear, View.hear, view_post, Letter.isFor]
              · simp [hear, view_post, Letter.isFor, hi]
      | _ =>
          have hcancel (c : Background α) (p : Prop) [Decidable p] :
              (if p then c.cancelToken j.token else c).view i = c.view i := by
            split <;> simp
          exact (hcancel _ _).trans (hheard _)

theorem hear_seen {job : Nat} {j : Job} (o : Option Nat) (seen : Nat) (s : Signal) :
    (b.hear job j o seen s).2 = ((b.view i).hear job j o seen s).2 := by
  rcases s with e | m
  · cases e <;> rfl
  · rfl

theorem lanes_hear (job : Nat) (j : Job) (o : Option Nat) (seen : Nat) (s : Signal) :
    (b.hear job j o seen s).1.defaultLane = b.defaultLane ∧
      (b.hear job j o seen s).1.idleLane = b.idleLane := by
  rcases s with e | m
  · cases e with
    | progress t => cases o <;> exact ⟨rfl, rfl⟩
    | _ =>
        have hcancel (c : Background α) (p : Prop) [Decidable p] :
            (if p then c.cancelToken j.token else c).defaultLane = c.defaultLane ∧
              (if p then c.cancelToken j.token else c).idleLane = c.idleLane := by
          split <;> exact ⟨rfl, rfl⟩
        exact hcancel _ _
  · exact ⟨rfl, rfl⟩

theorem lanes_postResult (l : Letter α) : (b.postResult l).defaultLane = b.defaultLane ∧
    (b.postResult l).idleLane = b.idleLane := by
  rw [postResult]
  split <;> exact ⟨rfl, rfl⟩

end Background

end TreeTally
