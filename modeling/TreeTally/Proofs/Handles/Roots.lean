import TreeTally.Handles
import TreeTally.Proofs.Text.Utf8
import Mathlib.Data.List.Forall2

namespace TreeTally.Handles

open Utf8

/-- What there is to read of a text. -/
def readable (bytes : List UInt8) : List UInt8 := bytes.takeWhile (· != 0)

def Valid (text : Option (List UInt8)) : Prop :=
  ∃ bytes, text = some bytes ∧ readable bytes ≠ [] ∧ ∃ l, encoding l = readable bytes

def Spells (text : Option (List UInt8)) (p : Path) : Prop :=
  ∃ bytes, text = some bytes ∧ readable bytes ≠ [] ∧ encoding p.chars = readable bytes

/-- What is wrong with a text. -/
inductive Offends : Option (List UInt8) → HandleError → Prop
  | missing : Offends none .nullRoot
  | malformed {bytes} (h : ¬∃ l, encoding l = readable bytes) : Offends (some bytes) .notUtf8
  | empty {bytes} (h : readable bytes = []) : Offends (some bytes) .emptyRoot

/-- What is wrong with all the texts. Those before the first one at fault spell something. -/
inductive Refused : RootTexts → HandleError → Prop
  | noArray {n} : Refused (.null (n + 1)) .nullRoots
  | first {before text after e} (hb : ∀ t ∈ before, Valid t) (h : Offends text e) :
      Refused (.array (before ++ text :: after)) e
  | nullEmpty : Refused (.null 0) (.refused .emptyRoots)
  | empty : Refused (.array []) (.refused .emptyRoots)

def draftOf (defaults : JobDefaults) (follow : Bool) (roots : List Path) : Draft :=
  { roots, options := { follow }, fs := defaults.fs, clock := defaults.clock
    effort := defaults.effort roots.length }

variable {s : Handles} {defaults : JobDefaults} {follow : Bool} {text : Option (List UInt8)}
  {ts before after : List (Option (List UInt8))} {texts : RootTexts} {p : Path} {e : HandleError}
  {roots : List Path}

theorem valid_iff : Valid text ↔ ∃ p, Spells text p := by
  constructor
  · rintro ⟨bytes, rfl, hne, l, hl⟩
    exact ⟨⟨l⟩, bytes, rfl, hne, hl⟩
  · rintro ⟨p, bytes, rfl, hne, hl⟩
    exact ⟨bytes, rfl, hne, p.chars, hl⟩

theorem valid_or_offends (text : Option (List UInt8)) : Valid text ∨ ∃ e, Offends text e := by
  obtain _ | bytes := text
  · exact .inr ⟨_, .missing⟩
  by_cases h : ∃ l, encoding l = readable bytes
  · by_cases hne : readable bytes = []
    · exact .inr ⟨_, .empty hne⟩
    · exact .inl ⟨bytes, rfl, hne, h⟩
  · exact .inr ⟨_, .malformed h⟩

theorem readRoot_of_spells (h : Spells text p) : readRoot text = .ok p := by
  obtain ⟨bytes, rfl, hne, hp⟩ := h
  rw [readRoot, ← readable, decode?_eq_some_iff.2 hp]
  obtain ⟨_ | ⟨c, l⟩⟩ := p
  · exact absurd hp.symm hne
  · rfl

theorem readRoot_of_offends (h : Offends text e) : readRoot text = .error e := by
  cases h with
  | missing => rfl
  | malformed h =>
      rename_i bytes
      have hno : decode? (readable bytes) = none :=
        Option.eq_none_iff_forall_ne_some.2 fun l hl => h ⟨l, decode?_eq_some_iff.1 hl⟩
      rw [readRoot, ← readable, hno]
  | empty h =>
      rw [readRoot, ← readable, h]
      rfl

theorem withoutNul_eq_self {t : String} (h : '\x00' ∉ t.toList) : withoutNul t = t := by
  rw [← String.toList_inj, withoutNul, String.toList_map]
  refine (List.map_congr_left fun c hc => if_neg ?_).trans (List.map_id _)
  rintro rfl
  exact h hc

theorem forall_valid_iff : (∀ t ∈ ts, Valid t) ↔ ∃ roots, List.Forall₂ Spells ts roots := by
  induction ts with
  | nil => exact iff_of_true nofun ⟨[], .nil⟩
  | cons t ts ih =>
      rw [List.forall_mem_cons, ih, valid_iff]
      constructor
      · rintro ⟨⟨p, hp⟩, roots, h⟩
        exact ⟨p :: roots, .cons hp h⟩
      · rintro ⟨_, h⟩
        cases h with
        | cons hp h => exact ⟨⟨_, hp⟩, _, h⟩

theorem valid_or_first (ts : List (Option (List UInt8))) :
    (∀ t ∈ ts, Valid t) ∨ ∃ before text after e,
      ts = before ++ text :: after ∧ (∀ t ∈ before, Valid t) ∧ Offends text e := by
  induction ts with
  | nil => exact .inl nofun
  | cons t ts ih =>
      obtain ht | ⟨e, he⟩ := valid_or_offends t
      · obtain h | ⟨before, text, after, e, rfl, hb, he⟩ := ih
        · exact .inl (List.forall_mem_cons.2 ⟨ht, h⟩)
        · exact .inr ⟨t :: before, text, after, e, rfl, List.forall_mem_cons.2 ⟨ht, hb⟩, he⟩
      · exact .inr ⟨[], t, ts, e, rfl, nofun, he⟩

theorem mapM_readRoot_of_spells (h : List.Forall₂ Spells ts roots) :
    ts.mapM readRoot = .ok roots := by
  induction h with
  | nil => rfl
  | cons hp _ ih =>
      rw [List.mapM_cons, readRoot_of_spells hp, ih]
      rfl

theorem mapM_readRoot_of_first (hb : ∀ t ∈ before, Valid t) (h : Offends text e) :
    (before ++ text :: after).mapM readRoot = .error e := by
  induction before with
  | nil =>
      rw [List.nil_append, List.mapM_cons, readRoot_of_offends h]
      rfl
  | cons t before ih =>
      rw [List.forall_mem_cons, valid_iff] at hb
      obtain ⟨⟨p, hp⟩, hb⟩ := hb
      rw [List.cons_append, List.mapM_cons, readRoot_of_spells hp, ih hb]
      rfl

theorem newJob_of_spells (h : List.Forall₂ Spells ts roots) (hne : ts ≠ []) :
    s.newJob defaults (.array ts) follow =
      (some s.jobs.length,
        { s with jobs := s.jobs ++ [{ place := .draft (draftOf defaults follow roots) }]
                 lastError := none }) := by
  rw [newJob, readRoots, mapM_readRoot_of_spells h]
  cases h with
  | nil => exact absurd rfl hne
  | cons _ _ => rfl

theorem newJob_of_refused (h : Refused texts e) :
    s.newJob defaults texts follow = (none, s.fail e) := by
  rw [newJob]
  cases h with
  | noArray | nullEmpty | empty => rfl
  | first hb h => rw [readRoots, mapM_readRoot_of_first hb h]

theorem spelled_or_refused (texts : RootTexts) :
    (∃ ts roots, texts = .array ts ∧ ts ≠ [] ∧ List.Forall₂ Spells ts roots) ∨
      ∃ e, Refused texts e := by
  match texts with
  | .null 0 => exact .inr ⟨_, .nullEmpty⟩
  | .null (n + 1) => exact .inr ⟨_, .noArray⟩
  | .array [] => exact .inr ⟨_, .empty⟩
  | .array (t :: ts) =>
      obtain h | ⟨before, text, after, e, hts, hb, he⟩ := valid_or_first (t :: ts)
      · obtain ⟨roots, h⟩ := forall_valid_iff.1 h
        exact .inl ⟨_, roots, rfl, List.cons_ne_nil _ _, h⟩
      · exact .inr ⟨e, hts ▸ .first hb he⟩

theorem Refused.lastErrorText (h : Refused texts e) :
    (s.fail e).lastErrorText = some e.message := by
  have hno : '\x00' ∉ e.message.toList := by
    cases h with
    | noArray | nullEmpty | empty => decide
    | first hb h => cases h <;> decide
  exact congrArg some (withoutNul_eq_self hno)

/-- Exactly the lists of valid texts make a job, and it is one with these roots. Of any other list the
reason is told, which is the first text at fault if there is one. -/
theorem newJob_iff (s : Handles) (defaults : JobDefaults) (texts : RootTexts) (follow : Bool) :
    ((s.newJob defaults texts follow).1.isSome ↔
      ∃ ts, texts = .array ts ∧ 0 < ts.length ∧ ∀ t ∈ ts, Valid t) ∧
    (∀ pointer after, s.newJob defaults texts follow = (some pointer, after) ↔
      ∃ ts roots, texts = .array ts ∧ ts ≠ [] ∧ List.Forall₂ Spells ts roots ∧
        pointer = s.jobs.length ∧
        after = { s with jobs := s.jobs ++ [{ place := .draft (draftOf defaults follow roots) }]
                         lastError := none }) ∧
    ∀ after, s.newJob defaults texts follow = (none, after) ↔
      ∃ e, Refused texts e ∧ after = s.fail e ∧ after.lastErrorText = some e.message := by
  have hmade (pointer : Nat) (after : Handles) :
      s.newJob defaults texts follow = (some pointer, after) ↔
        ∃ ts roots, texts = .array ts ∧ ts ≠ [] ∧ List.Forall₂ Spells ts roots ∧
          pointer = s.jobs.length ∧
          after = { s with jobs := s.jobs ++ [{ place := .draft (draftOf defaults follow roots) }]
                           lastError := none } := by
    constructor
    · intro hr
      obtain ⟨ts, roots, rfl, hne, h⟩ | ⟨e, h⟩ := spelled_or_refused texts
      · rw [newJob_of_spells h hne] at hr
        cases hr
        exact ⟨ts, roots, rfl, hne, h, rfl, rfl⟩
      · rw [newJob_of_refused h] at hr
        cases hr
    · rintro ⟨ts, roots, rfl, hne, h, rfl, rfl⟩
      exact newJob_of_spells h hne
  refine ⟨?_, hmade, fun after => ?_⟩
  · constructor
    · intro hsome
      obtain ⟨pointer, hp⟩ := Option.isSome_iff_exists.1 hsome
      obtain ⟨ts, roots, rfl, hne, h, -⟩ := (hmade pointer _).1 (Prod.ext hp rfl)
      exact ⟨ts, rfl, List.length_pos_iff.2 hne, forall_valid_iff.2 ⟨roots, h⟩⟩
    · rintro ⟨ts, rfl, hpos, hvalid⟩
      obtain ⟨roots, h⟩ := forall_valid_iff.1 hvalid
      rw [newJob_of_spells h (List.length_pos_iff.1 hpos)]
      rfl
  · constructor
    · intro hr
      obtain ⟨ts, roots, rfl, hne, h⟩ | ⟨e, h⟩ := spelled_or_refused texts
      · rw [newJob_of_spells h hne] at hr
        cases hr
      · rw [newJob_of_refused h] at hr
        cases hr
        exact ⟨e, h, rfl, h.lastErrorText⟩
    · rintro ⟨e, h, rfl, -⟩
      exact newJob_of_refused h

end TreeTally.Handles
