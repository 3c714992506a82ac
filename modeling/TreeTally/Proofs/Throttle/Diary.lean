import Mathlib.Data.List.Chain
import TreeTally.Proofs.Throttle

namespace TreeTally

theorem Instant.add?_eq_some {t next : Instant} {d : Duration} :
    t.add? d = some next ↔ t.nanos + d.nanos < limit ∧ next = ⟨t.nanos + d.nanos⟩ := by
  rw [add?]
  split
  · rename_i h
    simp [h, eq_comm]
  · rename_i h
    simp [h]

/-- From the first instant to the second the interval passes. -/
def Duration.Passes (d : Duration) (a b : Instant) : Prop := a.nanos + d.nanos ≤ b.nanos

namespace Throttle

/-- An instant at which a throttle was asked, and the answer. There is none where the next instant
would lie past the end of the clock. -/
structure Asked where
  now : Instant
  answer : Option Bool

inductive Question
  | ready (now : Instant)
  | reset

/-- A throttle with all it was asked since it was last reset. -/
structure Diary where
  throttle : Throttle
  asked : List Asked := []

namespace Diary

def answer (x : Diary) (now : Instant) : Option Bool := (x.throttle.ready? now).1

def hear (x : Diary) : Question → Diary
  | .ready now => ⟨(x.throttle.ready? now).2, x.asked ++ [⟨now, x.answer now⟩]⟩
  | .reset => ⟨x.throttle.reset, []⟩

def answered (x : Diary) : List (Instant × Bool) :=
  x.asked.filterMap fun a => a.answer.map (a.now, ·)

/-- The first answer, whatever it is, arms the throttle, and every consent after it does. -/
def armings : List (Instant × Bool) → List Instant
  | [] => []
  | e :: l => e.1 :: (l.filter Prod.snd).map Prod.fst

def armed? (x : Diary) : Option Instant := (armings x.answered).getLast?

/-- What a diary says, it says of the throttle as it is. -/
structure Sound (d : Duration) (x : Diary) : Prop where
  interval : x.throttle.interval = d
  armed : x.armed? = none ∧ x.throttle.next = none ∨ ∃ a next, x.armed? = some a ∧
    a.add? d = some next ∧ x.throttle.next = some next
  first : ∀ e ∈ x.answered.head?, e.2 = false
  spaced : (armings x.answered).IsChain d.Passes

inductive Hears (d : Duration) (x : Diary) (now : Instant) : Option Bool → Throttle → Prop
  | overruns (hdue : ∀ a, x.armed? = some a → d.Passes a now)
      (hnext : now.add? d = none) : Hears d x now none x.throttle
  | primes {next : Instant} (hnone : x.armed? = none) (hnext : now.add? d = some next) :
      Hears d x now (some false) { x.throttle with next := some next }
  | fires {a next : Instant} (ha : x.armed? = some a) (hdue : d.Passes a now)
      (hnext : now.add? d = some next) :
      Hears d x now (some true) { x.throttle with next := some next }
  | rejects {a : Instant} (ha : x.armed? = some a) (hearly : ¬d.Passes a now) :
      Hears d x now (some false) x.throttle

structure Obeys (d : Duration) (x : Diary) : Prop where
  fires : ∀ now, x.answer now = some true ↔
    (∃ a, x.armed? = some a ∧ d.Passes a now) ∧ now.add? d ≠ none
  overruns : ∀ now, x.answer now = none ↔
    (∀ a, x.armed? = some a → d.Passes a now) ∧ now.add? d = none
  /-- Neither a refusal nor an overrun moves the deadline. -/
  stays : ∀ now, x.answer now = none ∨ x.answer now = some false ∧ x.armed? ≠ none →
    (x.hear (.ready now)).throttle = x.throttle
  first : ∀ e ∈ x.answered.head?, e.2 = false
  spaced : (armings x.answered).IsChain d.Passes
  counted : (x.answered.map fun e => e.1.nanos).Pairwise (· ≤ ·) →
    ∀ e ∈ x.answered.head?, ∀ e' ∈ x.answered.getLast?,
      x.answered.countP Prod.snd * d.nanos ≤ e'.1.nanos - e.1.nanos

variable {d : Duration} {x : Diary} {now : Instant} {l : List (Instant × Bool)}

theorem armings_concat (l : List (Instant × Bool)) (e : Instant × Bool) :
    armings (l ++ [e]) = armings l ++ if l = [] ∨ e.2 = true then [e.1] else [] := by
  cases l with
  | nil => simp [armings]
  | cons e' l => cases h : e.2 <;> simp [armings, h]

theorem answered_concat (t : Throttle) (asked : List Asked) (now : Instant) (o : Option Bool) :
    answered ⟨t, asked ++ [⟨now, o⟩]⟩ =
      asked.filterMap (fun a => a.answer.map (a.now, ·)) ++ (o.map (now, ·)).toList := by
  rw [answered, List.filterMap_append]
  cases o <;> rfl

theorem armed?_eq_none : x.armed? = none ↔ x.answered = [] := by
  rw [armed?, List.getLast?_eq_none_iff]
  cases x.answered <;> simp [armings]

theorem Sound.hears (h : x.Sound d) (now : Instant) :
    Hears d x now (x.answer now) (x.hear (.ready now)).throttle := by
  have hroom {next : Instant} (hadd : now.add? d = some next) (report : Bool) :
      x.throttle.arm now report = (some report, { x.throttle with next := some next }) :=
    arm_room (by rw [h.interval, hadd]) report
  have hoverrun (hadd : now.add? d = none) (report : Bool) :
      x.throttle.arm now report = (none, x.throttle) := arm_overrun (by rw [h.interval, hadd]) report
  rw [hear, answer]
  rcases h.armed with ⟨hnone, hnext⟩ | ⟨a, due, ha, hadd, hnext⟩
  · rw [ready?_unarmed hnext]
    cases hnow : now.add? d with
    | none =>
        rw [hoverrun hnow]
        exact .overruns (by simp [hnone]) hnow
    | some next =>
        rw [hroom hnow]
        exact .primes hnone hnow
  · obtain ⟨-, rfl⟩ := Instant.add?_eq_some.1 hadd
    by_cases hdue : (⟨a.nanos + d.nanos⟩ : Instant) ≤ now
    · rw [ready?_due hnext hdue]
      cases hnow : now.add? d with
      | none =>
          rw [hoverrun hnow]
          exact .overruns (fun a' ha' => Option.some.inj (ha.symm.trans ha') ▸ hdue) hnow
      | some next =>
          rw [hroom hnow]
          exact .fires ha hdue hnow
    · rw [ready?_early hnext hdue]
      exact .rejects ha hdue

theorem Sound.arm (h : x.Sound d) {b : Bool} {next : Instant} (hnext : now.add? d = some next)
    (hb : x.answered = [] ∧ b = false ∨
      b = true ∧ ∃ a, x.armed? = some a ∧ d.Passes a now) :
    Sound d ⟨{ x.throttle with next := some next }, x.asked ++ [⟨now, some b⟩]⟩ := by
  have hanswered : answered ⟨{ x.throttle with next := some next }, x.asked ++ [⟨now, some b⟩]⟩ =
      x.answered ++ [(now, b)] := answered_concat _ _ _ _
  have harmings : armings (x.answered ++ [(now, b)]) = armings x.answered ++ [now] := by
    rw [armings_concat, if_pos (hb.imp And.left And.left)]
  refine ⟨h.interval, .inr ⟨now, next, ?_, hnext, rfl⟩, ?_, ?_⟩
  · rw [armed?, hanswered, harmings, List.getLast?_concat]
  · rw [hanswered]
    rcases hb with ⟨hnil, rfl⟩ | ⟨-, a, ha, -⟩
    · simp [hnil]
    · have hne : x.answered ≠ [] := fun hnil => by simp [armed?_eq_none.2 hnil] at ha
      rw [List.head?_append_of_ne_nil _ hne]
      exact h.first
  · rw [hanswered, harmings, List.isChain_append]
    refine ⟨h.spaced, .singleton now, fun a ha => ?_⟩
    rcases hb with ⟨hnil, -⟩ | ⟨-, a', ha', hdue⟩
    · simp [hnil, armings] at ha
    · obtain rfl : a' = a := Option.some.inj (ha'.symm.trans ha)
      simpa using hdue

theorem Sound.ready (h : x.Sound d) (now : Instant) : (x.hear (.ready now)).Sound d := by
  have hhears := h.hears now
  rw [hear] at hhears ⊢
  dsimp only at hhears
  generalize (x.throttle.ready? now).2 = t, x.answer now = o at hhears
  cases hhears with
  | primes hnone hnext => exact h.arm hnext (.inl ⟨armed?_eq_none.1 hnone, rfl⟩)
  | fires ha hdue hnext => exact h.arm hnext (.inr ⟨rfl, _, ha, hdue⟩)
  | overruns hdue hnext =>
      have hsame : answered ⟨x.throttle, x.asked ++ [⟨now, none⟩]⟩ = x.answered :=
        (answered_concat _ _ _ _).trans (List.append_nil _)
      refine ⟨h.interval, ?_, hsame ▸ h.first, hsame ▸ h.spaced⟩
      rw [armed?, hsame]
      exact h.armed
  | @rejects a ha hearly =>
      have hanswered : answered ⟨x.throttle, x.asked ++ [⟨now, some false⟩]⟩ =
          x.answered ++ [(now, false)] := answered_concat _ _ _ _
      have hne : x.answered ≠ [] := fun hnil => by simp [armed?_eq_none.2 hnil] at ha
      have harmings : armings (x.answered ++ [(now, false)]) = armings x.answered := by
        rw [armings_concat, if_neg (by simpa using hne), List.append_nil]
      refine ⟨h.interval, ?_, ?_, ?_⟩
      · rw [armed?, hanswered, harmings]
        exact h.armed
      · rw [hanswered, List.head?_append_of_ne_nil _ hne]
        exact h.first
      · rw [hanswered, harmings]
        exact h.spaced

theorem Sound.hear (h : x.Sound d) (q : Question) : (x.hear q).Sound d := by
  cases q with
  | ready now => exact h.ready now
  | reset => exact ⟨h.interval, .inl ⟨rfl, rfl⟩, nofun, .nil⟩

theorem sound_new (d : Duration) : Sound d ⟨⟨d, none⟩, []⟩ := ⟨rfl, .inl ⟨rfl, rfl⟩, nofun, .nil⟩

/-- So many intervals lie between the first of some instants and any that is not before the last. -/
theorem le_of_spaced {a : Instant} {l : List Instant} {last : Int}
    (h : (a :: l).IsChain d.Passes)
    (hlast : ∀ b ∈ a :: l, b.nanos ≤ last) : l.length * d.nanos ≤ last - a.nanos := by
  induction l generalizing a with
  | nil =>
      have := hlast a List.mem_cons_self
      simpa using this
  | cons b l ih =>
      obtain ⟨hab, hl⟩ := List.isChain_cons_cons.1 h
      have hrest := ih hl fun c hc => hlast c (List.mem_cons_of_mem _ hc)
      have hab : a.nanos + d.nanos ≤ b.nanos := hab
      rw [List.length_cons, Int.natCast_succ, Int.add_mul, Int.one_mul]
      omega

theorem Sound.counted (h : x.Sound d)
    (hmono : (x.answered.map fun e => e.1.nanos).Pairwise (· ≤ ·)) :
    ∀ e ∈ x.answered.head?, ∀ e' ∈ x.answered.getLast?,
      x.answered.countP Prod.snd * d.nanos ≤ e'.1.nanos - e.1.nanos := by
  intro e he e' he'
  have hfirst := h.first e he
  have hspaced := h.spaced
  obtain ⟨l, hl⟩ : ∃ l, x.answered = e :: l := List.head?_eq_some_iff.1 he
  -- No answer was given after the last.
  have hlast : ∀ b ∈ x.answered, b.1.nanos ≤ e'.1.nanos := by
    obtain ⟨l', hl'⟩ := List.getLast?_eq_some_iff.1 he'
    rw [hl', List.map_append, List.pairwise_append] at hmono
    rw [hl']
    intro b hb
    rcases List.mem_append.1 hb with hb | hb
    · exact hmono.2.2 _ (List.mem_map_of_mem hb) _ (by simp)
    · exact Int.le_of_eq (congrArg (·.1.nanos) (List.mem_singleton.1 hb))
  rw [hl] at hspaced hlast ⊢
  have hcount : (e :: l).countP Prod.snd = ((l.filter Prod.snd).map Prod.fst).length := by
    rw [List.countP_cons_of_neg (by simp [hfirst]), List.countP_eq_length_filter, List.length_map]
  rw [hcount]
  refine le_of_spaced hspaced fun b hb => ?_
  rcases List.mem_cons.1 hb with rfl | hb
  · exact hlast e List.mem_cons_self
  · obtain ⟨c, hc, rfl⟩ := List.mem_map.1 hb
    exact hlast c (List.mem_cons_of_mem _ (List.mem_filter.1 hc).1)

theorem Sound.obeys (h : x.Sound d) : x.Obeys d := by
  refine ⟨fun now => ?_, fun now => ?_, fun now => ?_, h.first, h.spaced, h.counted⟩
  all_goals
    have hhears := h.hears now
    generalize (x.hear (.ready now)).throttle = t, x.answer now = o at hhears
    cases hhears <;> simp_all

end Diary

/-- What is done with one of a throttle and its clones, which are numbered as they are made. -/
inductive Call
  | ask (i : Nat) (q : Question)
  | clone (i : Nat)

def Call.to? (i : Nat) : Call → Option Question
  | ask j q => if j = i then some q else none
  | clone _ => none

/-- A clone takes over what its original was asked. -/
def serve (f : List Diary) : Call → List Diary
  | .ask i q => f.modify i (·.hear q)
  | .clone i => f ++ f[i]?.toList

/-- A new throttle and all its clones, after some calls. -/
def family (d : Duration) (calls : List Call) : List Diary :=
  calls.foldl serve [{ throttle := ⟨d, none⟩ }]

variable {d : Duration} {f : List Diary} {i : Nat} {x : Diary}

theorem getElem?_serve (h : f[i]? = some x) (c : Call) :
    (serve f c)[i]? = some ((c.to? i).elim x x.hear) := by
  cases c with
  | ask j q =>
      rw [serve, List.getElem?_modify, h, Call.to?]
      by_cases hj : j = i
      · simp [hj]
      · simp [hj]
  | clone j => exact (List.getElem?_append_left (List.getElem?_eq_some_iff.1 h).1).trans h

theorem getElem?_foldl_serve (h : f[i]? = some x) (calls : List Call) :
    (calls.foldl serve f)[i]? = some ((calls.filterMap (Call.to? i)).foldl Diary.hear x) := by
  induction calls generalizing f x with
  | nil => exact h
  | cons c calls ih =>
      rw [List.foldl_cons, ih (getElem?_serve h c), List.filterMap_cons]
      cases c.to? i <;> rfl

theorem sound_serve (h : ∀ x ∈ f, x.Sound d) (c : Call) : ∀ x ∈ serve f c, x.Sound d := by
  intro x hx
  cases c with
  | ask j q =>
      obtain ⟨i, hi⟩ := List.getElem?_of_mem hx
      have hlt : i < f.length := by
        simpa [serve] using (List.getElem?_eq_some_iff.1 hi).1
      rw [getElem?_serve (List.getElem?_eq_getElem hlt), Option.some.injEq] at hi
      have hsound := h f[i] (List.getElem_mem hlt)
      rw [← hi]
      cases (Call.ask j q).to? i with
      | none => exact hsound
      | some q => exact hsound.hear q
  | clone j =>
      rcases List.mem_append.1 hx with hx | hx
      · exact h x hx
      · exact h x (List.mem_of_getElem? (Option.mem_toList.1 hx))

theorem sound_family (d : Duration) (calls : List Call) : ∀ x ∈ family d calls, x.Sound d := by
  have hgo (f : List Diary) (h : ∀ x ∈ f, x.Sound d) : ∀ x ∈ calls.foldl serve f, x.Sound d := by
    induction calls generalizing f with
    | nil => exact h
    | cons c calls ih => exact ih _ (sound_serve h c)
  exact hgo _ (List.forall_mem_singleton.2 (Diary.sound_new d))

/-- Whatever is asked of a throttle and its clones, at instants in any order, each of them answers by
its own past alone: it agrees exactly when its interval has passed since it was last armed, and only
what it is asked itself adds to that past. -/
theorem family_obeys (d : Duration) (calls : List Call) : (∀ x ∈ family d calls, x.Obeys d) ∧
    ∀ (i : Nat) (x : Diary) (more : List Call), (family d calls)[i]? = some x →
      (family d (calls ++ more))[i]? = some ((more.filterMap (Call.to? i)).foldl Diary.hear x) := by
  refine ⟨fun x hx => (sound_family d calls x hx).obeys, fun i x more h => ?_⟩
  rw [family, List.foldl_append]
  exact getElem?_foldl_serve h more

/-- A throttle is armed at 5 and agrees at 7, a clone of it at 9. The clock goes back, the throttle
refuses, and is reset. It finds no room at the end of the clock, and is armed again at 1. -/
theorem family_obeys_sample :
    let ask (i : Nat) (now : Int) : Call := .ask i (.ready ⟨now⟩)
    let calls := [ask 0 5, ask 0 7, .clone 0, ask 1 9, ask 0 3]
    let more := [.ask 0 .reset, ask 0 Instant.limit, ask 1 9, ask 0 1]
    ∃ x y z, family ⟨2⟩ calls = [x, y] ∧ x.Obeys ⟨2⟩ ∧ x.armed? = some ⟨7⟩ ∧ y.armed? = some ⟨9⟩ ∧
      (family ⟨2⟩ (calls ++ more))[0]? = some z ∧ z.asked.map Asked.answer = [none, some false] := by
  intro ask calls more
  refine ⟨_, _, _, rfl, (family_obeys ⟨2⟩ calls).1 _ List.mem_cons_self, by decide, by decide,
    (family_obeys ⟨2⟩ calls).2 0 _ more rfl, by decide⟩

end Throttle

end TreeTally
