import TreeTally.Command.Report
import TreeTally.Proofs.Path.Parts
import TreeTally.Proofs.Text.Json

namespace TreeTally

namespace Command

variable {a b a' b' : List Char} {x : Char} {m n : Nat} {t t' : Tally}

theorem not_mem_toDigits (hx : x.isDigit = false) : x ∉ Nat.toDigits 10 n := by
  intro h
  rw [Decimal.isDigit_of_mem_toDigits h] at hx
  cases hx

def sizeMarks : List Char := [' ', '.', 'B', 'K', 'M', 'G', 'T', 'P', 'E']

theorem mem_size (h : x ∈ (Size.text n).toList) : x.isDigit = true ∨ x ∈ sizeMarks := by
  have hdigits (k : Nat) (hx : x ∈ Nat.toDigits 10 k) : x.isDigit = true ∨ x ∈ sizeMarks :=
    .inl (Decimal.isDigit_of_mem_toDigits hx)
  have hname : ∀ u ∈ Size.units, ∀ c ∈ u.2.2.toList, c ∈ sizeMarks := by
    simp [Size.units, sizeMarks]
  rw [Size.text] at h
  split at h
  · obtain h | rfl | rfl : x ∈ Nat.toDigits 10 n ∨ x = ' ' ∨ x = 'B' := by simpa using h
    · exact hdigits n h
    · exact .inr (by simp [sizeMarks])
    · exact .inr (by simp [sizeMarks])
  · rename_i power name hunit
    obtain h | rfl | h | rfl | h : x ∈ Nat.toDigits 10 (Size.tenths n power / 10) ∨ x = '.' ∨
        x ∈ Nat.toDigits 10 (Size.tenths n power % 10) ∨ x = ' ' ∨ x ∈ name.toList := by
      simpa using h
    · exact hdigits _ h
    · exact .inr (by simp [sizeMarks])
    · exact hdigits _ h
    · exact .inr (by simp [sizeMarks])
    · exact .inr (hname _ (List.mem_of_find?_eq_some hunit) x h)

theorem not_mem_size (hx : x.isDigit = false) (hmark : x ∉ sizeMarks) :
    x ∉ (Size.text n).toList := by
  intro h
  obtain hdigit | hmem := mem_size h
  · exact Bool.false_ne_true (hx.symm.trans hdigit)
  · exact hmark hmem

theorem newline_not_mem_summary (t : Tally) : '\n' ∉ (summaryLine t).toList := by
  have hdigits (k : Nat) : '\n' ∉ Nat.toDigits 10 k := not_mem_toDigits rfl
  have hsize : '\n' ∉ (Size.text t.bytes).toList := not_mem_size rfl (by decide)
  simp [summaryLine, hdigits, hsize]

theorem newline_not_mem_note (t : Tally) : '\n' ∉ (lowerBoundNote t).toList := by
  have hdigits (k : Nat) : '\n' ∉ Nat.toDigits 10 k := not_mem_toDigits rfl
  simp [lowerBoundNote, hdigits]

theorem lines_plainReport (t : Tally) : piecesAt '\n' (plainReport t).toList =
    (summaryLine t).toList ::
      ((if t.isLowerBound then [(lowerBoundNote t).toList] else []) ++ [[]]) := by
  have hsummary := piecesAt_of_not_mem (newline_not_mem_summary t)
  have hnote := piecesAt_of_not_mem (newline_not_mem_note t)
  cases h : t.isLowerBound with
  | false =>
      have htext : (plainReport t).toList = (summaryLine t).toList ++ '\n' :: [] := by
        simp [plainReport, h]
      rw [htext, piecesAt_append, hsummary]
      rfl
  | true =>
      have htext : (plainReport t).toList =
          (summaryLine t).toList ++ '\n' :: ((lowerBoundNote t).toList ++ '\n' :: []) := by
        simp [plainReport, h]
      rw [htext, piecesAt_append, piecesAt_append, hsummary, hnote]
      rfl

theorem eq_of_split (ha : x ∉ a) (ha' : x ∉ a') (h : a ++ x :: b = a' ++ x :: b') :
    a = a' ∧ b = b' := by
  have hpieces := congrArg (piecesAt x) h
  rw [piecesAt_append, piecesAt_append, piecesAt_of_not_mem ha, piecesAt_of_not_mem ha'] at hpieces
  obtain rfl : a = a' := (List.cons.inj hpieces).1
  exact ⟨rfl, (List.cons.inj (List.append_cancel_left h)).2⟩

theorem eq_of_number (hx : x.isDigit = false)
    (h : Nat.toDigits 10 m ++ x :: b = Nat.toDigits 10 n ++ x :: b') : m = n ∧ b = b' := by
  obtain ⟨hnumber, hrest⟩ := eq_of_split (not_mem_toDigits hx) (not_mem_toDigits hx) h
  exact ⟨Decimal.toDigits_inj hnumber, hrest⟩

theorem toList_summaryLine (t : Tally) : (summaryLine t).toList =
    Nat.toDigits 10 t.files ++ ' ' :: ("files, ".toList ++
      (Nat.toDigits 10 t.folders ++ ' ' :: ("folders, ".toList ++
        (((Size.text t.bytes).toList ++ [' ']) ++ '(' ::
          (Nat.toDigits 10 t.bytes ++ ' ' :: "bytes)".toList))))) := by
  simp [summaryLine]

theorem summaryLine_inj (h : (summaryLine t).toList = (summaryLine t').toList) :
    t.files = t'.files ∧ t.folders = t'.folders ∧ t.bytes = t'.bytes := by
  have hbracket (k : Nat) : '(' ∉ (Size.text k).toList ++ [' '] := by
    have hsize : '(' ∉ (Size.text k).toList := not_mem_size rfl (by decide)
    simp [hsize]
  rw [toList_summaryLine, toList_summaryLine] at h
  obtain ⟨hfiles, h⟩ := eq_of_number rfl h
  obtain ⟨hfolders, h⟩ := eq_of_number rfl (List.append_cancel_left h)
  -- The rounded size is passed over, and the exact one behind the bracket is read.
  obtain ⟨-, h⟩ := eq_of_split (hbracket _) (hbracket _) (List.append_cancel_left h)
  exact ⟨hfiles, hfolders, (eq_of_number rfl h).1⟩

theorem lowerBoundNote_inj (h : (lowerBoundNote t).toList = (lowerBoundNote t').toList) :
    t.unreadable = t'.unreadable := by
  apply Decimal.toDigits_inj
  simpa [lowerBoundNote] using h

theorem isLowerBound_eq_false : t.isLowerBound = false ↔ t.unreadable = 0 := by
  simp [Tally.isLowerBound]

theorem plainReport_injective : Function.Injective plainReport := by
  intro t t' h
  have hlines := congrArg (fun s => piecesAt '\n' s.toList) h
  simp only [lines_plainReport, List.cons.injEq, List.append_cancel_right_eq] at hlines
  obtain ⟨hsummary, hnote⟩ := hlines
  obtain ⟨hfiles, hfolders, hbytes⟩ := summaryLine_inj hsummary
  have hunreadable : t.unreadable = t'.unreadable := by
    cases hlower : t.isLowerBound <;> cases hlower' : t'.isLowerBound <;>
      simp only [hlower, hlower', Bool.false_eq_true, if_true, if_false, List.cons.injEq, and_true,
        reduceCtorEq] at hnote
    · rw [isLowerBound_eq_false.1 hlower, isLowerBound_eq_false.1 hlower']
    · exact lowerBoundNote_inj hnote
  cases t
  cases t'
  simp_all

/-- Some line of the report is a note. -/
def CarriesNote (report : String) : Prop :=
  ∃ line ∈ piecesAt '\n' report.toList, ['n', 'o', 't', 'e', ':'] <+: line

theorem carriesNote_plainReport : CarriesNote (plainReport t) ↔ t.isLowerBound = true := by
  have hsummary : ¬['n', 'o', 't', 'e', ':'] <+: (summaryLine t).toList := by
    rintro ⟨r, hr⟩
    have hne : Nat.toDigits 10 t.files ≠ [] := Nat.toDigits_ne_nil
    obtain ⟨c, ds, hds⟩ := List.exists_cons_of_ne_nil hne
    rw [toList_summaryLine, hds] at hr
    have hmem : 'n' ∈ Nat.toDigits 10 t.files := by
      rw [hds, (List.cons.inj hr).1]
      exact List.mem_cons_self
    exact not_mem_toDigits rfl hmem
  have hnote : ['n', 'o', 't', 'e', ':'] <+: (lowerBoundNote t).toList := by
    simp [lowerBoundNote]
  rw [CarriesNote, lines_plainReport]
  cases t.isLowerBound with
  | false => simp [hsummary]
  | true => simp [hnote]

open Json

def JsonValue.meant : JsonValue → Json
  | .number n => .number n 0
  | .flag b => .flag b

def fieldText (f : String × JsonValue) : String := "  \"" ++ f.1 ++ "\": " ++ f.2.text

def symbolsBehind (f : String × JsonValue) : List (String × JsonValue) → List Symbol
  | [] => [.value f.2.meant, .closeObject]
  | g :: fs => .value f.2.meant :: .comma :: .value (.text g.1) :: .colon :: symbolsBehind g fs

variable {f : String × JsonValue} {fs : List (String × JsonValue)} {r : List Char}

theorem cut_value (v : JsonValue) (h : EndsNumber r) : Cut v.text.toList [.value v.meant] r := by
  cases v with
  | number n => simpa [JsonValue.text, JsonValue.meant] using cut_toDigits n h
  | flag b => exact cut_flag b r

theorem cut_field (hf : Plain f.1.toList) (h : EndsNumber r) :
    Cut (fieldText f).toList [.value (.text f.1), .colon, .value f.2.meant] r := by
  have hblank (l : List Char) : Cut [' '] [] l := cut_blank rfl l
  have hcolon (l : List Char) : Cut [':'] [.colon] l := cut_symbol (by simp) (by simp [Json.isBlank]) rfl
  have hvalue := (hblank _).append (cut_value f.2 h)
  have hname := (cut_text hf _).append ((hcolon _).append hvalue)
  have hall := (hblank _).append ((hblank _).append hname)
  simpa [fieldText] using hall

theorem cut_fields (h : ∀ g ∈ f :: fs, Plain g.1.toList) (r : List Char) :
    Cut ([',', '\n'].intercalate ((f :: fs).map fun g => (fieldText g).toList) ++ ['\n', '\x7d'])
      (.value (.text f.1) :: .colon :: symbolsBehind f fs) r := by
  have hline (l : List Char) : Cut ['\n'] [] l := cut_blank rfl l
  have hends (l : List Char) : EndsNumber ('\n' :: l) ∧ EndsNumber (',' :: l) := by
    simp [EndsNumber]
  induction fs generalizing f with
  | nil =>
      have hclose : Cut ['\x7d'] [.closeObject] r := cut_symbol (by simp) (by simp [Json.isBlank]) rfl
      have hfield (l : List Char) := cut_field (h f List.mem_cons_self) (hends l).1
      have hall := (hfield _).append ((hline _).append hclose)
      simpa [symbolsBehind] using hall
  | cons g fs ih =>
      have hcomma (l : List Char) : Cut [','] [.comma] l :=
        cut_symbol (by simp) (by simp [Json.isBlank]) rfl
      have hrest := ih fun x hx => h x (List.mem_cons_of_mem _ hx)
      have hbehind := (hcomma _).append ((hline _).append hrest)
      have hfield (l : List Char) := cut_field (h f List.mem_cons_self) (hends l).2
      have hall := (hfield _).append hbehind
      rw [List.map_cons, List.map_cons, List.intercalate_cons_cons]
      simpa [symbolsBehind] using hall

theorem valueIn_symbolsBehind (es : List (String × Json)) (f : String × JsonValue)
    (fs : List (String × JsonValue)) : valueIn [.object es f.1] (symbolsBehind f fs) =
      some (.object (es.reverse ++ (f :: fs).map fun g => (g.1, g.2.meant))) := by
  induction fs generalizing es f with
  | nil => simp [symbolsBehind, valueIn, valueBehind]
  | cons g fs ih =>
      have hrest := ih ((f.1, f.2.meant) :: es) g
      simp [symbolsBehind, valueIn, valueBehind, hrest]

theorem read?_jsonObject (h : ∀ f ∈ fs, Plain f.1.toList) :
    read? (jsonObject fs ++ "\n") = some (.object (fs.map fun f => (f.1, f.2.meant))) := by
  have htext : (jsonObject fs ++ "\n").toList = ['\x7b'] ++ (['\n'] ++ ([',', '\n'].intercalate
      (fs.map fun g => (fieldText g).toList) ++ ['\n', '\x7d'])) ++ ['\n'] := by
    simp [jsonObject, fieldText, Function.comp_def]
  have hopen (l : List Char) : Cut ['\x7b'] [.openObject] l :=
    cut_symbol (by simp) (by simp [Json.isBlank]) rfl
  have hline (l : List Char) : Cut ['\n'] [] l := cut_blank rfl l
  rw [read?, htext]
  cases fs with
  | nil => rfl
  | cons f fs =>
      have hall := (hopen _).append ((hline _).append (cut_fields h ['\n']))
      rw [hall]
      have hend : symbolsAfter 0 ['\n'] = some [] := rfl
      simp [hend, valueIn, valueIn_symbolsBehind]

/-- No two totals have the same report for people, whatever is rounded in it. The report in JSON
reads back as an object of six fields, which hold the exact totals; these are called a lower bound
just if the count was cancelled or the report for people has a note. -/
theorem reports_lossless : Function.Injective plainReport ∧
    ∀ (t : Tally) (cancelled : Bool), ∃ lower : Bool,
      read? (jsonReport t cancelled ++ "\n") = some (.object
        [("total_size", .number t.bytes 0), ("file_count", .number t.files 0),
         ("directory_count", .number t.folders 0),
         ("unreadable_directory_count", .number t.unreadable 0),
         ("lower_bound", .flag lower), ("cancelled", .flag cancelled)]) ∧
      (lower = true ↔ cancelled = true ∨ CarriesNote (plainReport t)) := by
  refine ⟨plainReport_injective, fun t cancelled => ⟨t.isLowerBound || cancelled, ?_, ?_⟩⟩
  · have hnames : ∀ f ∈ jsonFields t cancelled, Plain f.1.toList := by
      simp [jsonFields, Plain]
    rw [jsonReport, read?_jsonObject hnames]
    rfl
  · rw [carriesNote_plainReport, Bool.or_eq_true, or_comm]

end Command

end TreeTally
