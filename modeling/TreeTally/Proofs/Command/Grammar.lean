import TreeTally.Command.Run
import TreeTally.Proofs.Text.Decimal

namespace TreeTally.Command

inductive Flag
  | follow
  | json
  | quiet
  | verbose
  deriving DecidableEq

namespace Flag

def spellings : Flag → List String
  | follow => ["--follow-symlinks", "-L"]
  | json => ["--json"]
  | quiet => ["--quiet", "-q"]
  | verbose => ["-v", "--verbose"]

def word : Flag → Word
  | follow => .follow
  | json => .json
  | quiet => .quiet
  | verbose => .verbose

theorem word_inj {f g : Flag} : f.word = g.word ↔ f = g := by
  cases f <;> cases g <;> simp [word]

end Flag

/-- A root does not begin with a dash, unless it is nothing else. -/
def IsRoot (a : String) : Prop := a = "-" ∨ a.toList.head? ≠ some '-'

instance (a : String) : Decidable (IsRoot a) := inferInstanceAs (Decidable (_ ∨ _))

def IsForeign (a : String) : Prop :=
  a.toList.head? = some '-' ∧ a ≠ "-" ∧ a ≠ "--" ∧ (∀ f : Flag, a ∉ f.spellings) ∧
    ∀ f : NumberFlag, a ≠ f.text

inductive Item
  | flag (f : Flag) (spelling : String)
  | number (f : NumberFlag) (text : String) (value : Nat)
  | root (text : String)

namespace Item

def words : Item → List String
  | flag _ s => [s]
  | number f s _ => [f.text, s]
  | root a => [a]

def Proper : Item → Prop
  | flag f s => s ∈ f.spellings
  | number _ s n => Decimal.Writes s n
  | root a => IsRoot a

def raises (f : Flag) : Item → Bool
  | flag g _ => decide (g = f)
  | _ => false

def value? (f : NumberFlag) : Item → Option Nat
  | number g _ n => if g = f then some n else none
  | _ => none

def root? : Item → Option String
  | root a => some a
  | _ => none

end Item

/-- Arguments taken apart: the items, and what stands behind the double dash, if there is one. -/
structure Split where
  items : List Item
  behind : Option (List String)

namespace Split

def words (p : Split) : List String :=
  p.items.flatMap Item.words ++ p.behind.elim [] ("--" :: ·)

def Proper (p : Split) : Prop := ∀ i ∈ p.items, i.Proper

def raises (p : Split) (f : Flag) : Bool := p.items.any (Item.raises f)

/-- A number that is given twice counts as it was given last. -/
def last? (p : Split) (f : NumberFlag) : Option Nat := (p.items.filterMap (Item.value? f)).getLast?

def roots (p : Split) : List String := p.items.filterMap Item.root? ++ p.behind.getD []

def settings (p : Split) (followDefault : Bool) : Settings where
  roots := (if p.roots = [] then ["."] else p.roots).map Path.ofString
  follow := followDefault || p.raises .follow
  json := p.raises .json
  quiet := p.raises .quiet
  verbose := p.raises .verbose
  interval := ((p.last? .interval).map Duration.ofMillis).getD (.ofMillis 250)
  timeout := (p.last? .timeout).map Duration.ofSeconds

end Split

/-- The first of these arguments does not fit, whatever came before, and this is said of it. -/
inductive Offends : List String → String → Prop
  | missing (f : NumberFlag) : Offends [f.text] ("missing value for " ++ f.text)
  | invalid (f : NumberFlag) (s : String) (rest : List String) (h : ∀ n, ¬ Decimal.Writes s n) :
      Offends (f.text :: s :: rest) ("invalid value for " ++ f.text ++ ": " ++ s)
  | unknown (a : String) (rest : List String) (h : IsForeign a) :
      Offends (a :: rest) ("unknown arg: " ++ a)

theorem isRoot_of_not_long {a : String}
    (h : ¬ (a.toList.head? = some '-' ∧ 1 < a.utf8ByteSize)) : IsRoot a := by
  by_cases hdash : a.toList.head? = some '-'
  · obtain ⟨l, hl⟩ : ∃ l, a.toList = '-' :: l := List.head?_eq_some_iff.1 hdash
    have ha : a = String.ofList ['-'] ++ String.ofList l := by
      rw [← String.ofList_append, List.singleton_append, ← hl, String.ofList_toList]
    cases l with
    | nil => exact .inl ha
    | cons c l =>
        refine absurd ⟨hdash, ?_⟩ h
        have hsize : (String.ofList (c :: l)).utf8ByteSize ≠ 0 := by
          rw [Ne, String.utf8ByteSize_eq_zero_iff, ← String.toList_inj, String.toList_ofList]
          exact List.cons_ne_nil c l
        rw [ha, String.utf8ByteSize_append]
        show 1 < 1 + _
        omega
  · exact .inr hdash

theorem not_long_of_isRoot {a : String} (h : IsRoot a) :
    ¬ (a.toList.head? = some '-' ∧ 1 < a.utf8ByteSize) := by
  rcases h with rfl | h
  · decide
  · exact fun hlong => h hlong.1

namespace Word

theorem of_flag {f : Flag} {a : String} (h : a ∈ f.spellings) : of a = f.word := by
  cases f <;> simp only [Flag.spellings, List.mem_cons, List.not_mem_nil, or_false] at h
  · rcases h with rfl | rfl <;> rfl
  · rcases h with rfl
    rfl
  · rcases h with rfl | rfl <;> rfl
  · rcases h with rfl | rfl <;> rfl

theorem of_number (f : NumberFlag) : of f.text = .number f := by
  cases f <;> rfl

theorem of_dashes : of "--" = .onlyRoots := rfl

theorem of_other {a : String} (hflag : ∀ f : Flag, a ∉ f.spellings)
    (hnumber : ∀ f : NumberFlag, a ≠ f.text) (hdashes : a ≠ "--") :
    of a = if a.toList.head? = some '-' ∧ 1 < a.utf8ByteSize then .unknown else .root := by
  rw [of, if_neg (by simpa [Flag.spellings] using hflag .follow),
    if_neg (by simpa [Flag.spellings] using hflag .json),
    if_neg (by simpa [Flag.spellings] using hflag .quiet),
    if_neg (by simpa [Flag.spellings] using hflag .verbose),
    if_neg (hnumber .interval), if_neg (hnumber .timeout), if_neg hdashes]

theorem of_root {a : String} (h : IsRoot a) : of a = .root := by
  have hne (t : String) (ht : ¬ IsRoot t) : a ≠ t := fun he => ht (he ▸ h)
  have hflag (f : Flag) : a ∉ f.spellings := fun ha => by
    have hno : ∀ t ∈ f.spellings, ¬ IsRoot t := by cases f <;> decide
    exact hno a ha h
  have hnumber (f : NumberFlag) : a ≠ f.text := hne _ (by cases f <;> decide)
  rw [of_other hflag hnumber (hne _ (by decide)), if_neg (not_long_of_isRoot h)]

theorem of_foreign {a : String} (h : IsForeign a) : of a = .unknown := by
  obtain ⟨hdash, hlone, hdashes, hflag, hnumber⟩ := h
  have hroot : ¬ IsRoot a := fun hr => hr.elim hlone fun hno => hno hdash
  rw [of_other hflag hnumber hdashes, if_pos (Classical.not_not.1 (mt isRoot_of_not_long hroot))]

theorem of_cases (a : String) :
    (∃ f : Flag, a ∈ f.spellings) ∨ (∃ f : NumberFlag, a = f.text) ∨ a = "--" ∨ IsRoot a ∨
      IsForeign a := by
  by_cases hflag : ∃ f : Flag, a ∈ f.spellings
  · exact .inl hflag
  by_cases hnumber : ∃ f : NumberFlag, a = f.text
  · exact .inr (.inl hnumber)
  by_cases hdashes : a = "--"
  · exact .inr (.inr (.inl hdashes))
  by_cases hroot : IsRoot a
  · exact .inr (.inr (.inr (.inl hroot)))
  obtain ⟨hlone, hdash⟩ := not_or.1 hroot
  exact .inr (.inr (.inr (.inr ⟨Classical.not_not.1 hdash, hlone, hdashes, not_exists.1 hflag,
    not_exists.1 hnumber⟩)))

end Word

namespace Settings

variable {s : Settings} {items : List Item} {rest : List String}

def withItems (s : Settings) (items : List Item) : Settings where
  roots := s.roots ++ (items.filterMap Item.root?).map Path.ofString
  follow := s.follow || items.any (Item.raises .follow)
  json := s.json || items.any (Item.raises .json)
  quiet := s.quiet || items.any (Item.raises .quiet)
  verbose := s.verbose || items.any (Item.raises .verbose)
  interval := ((items.filterMap (Item.value? .interval)).getLast?.map Duration.ofMillis).getD s.interval
  timeout := ((items.filterMap (Item.value? .timeout)).getLast?.map Duration.ofSeconds).or s.timeout

theorem withItems_nil : s.withItems [] = s := by
  simp [withItems]

theorem withItems_append (more : List Item) :
    s.withItems (items ++ more) = (s.withItems items).withItems more := by
  simp only [withItems, List.filterMap_append, List.map_append, List.any_append,
    List.append_assoc, Bool.or_assoc, List.getLast?_append, Settings.mk.injEq, true_and]
  constructor
  · cases (more.filterMap (Item.value? .interval)).getLast? <;> rfl
  · cases (more.filterMap (Item.value? .timeout)).getLast? <;> rfl

theorem read_item {i : Item} (h : i.Proper) : s.read (i.words ++ rest) = (s.withItems [i]).read rest := by
  cases i with
  | flag f a =>
      rw [Item.words, List.singleton_append, read, Word.of_flag h]
      cases f <;> simp [Flag.word, withItems, List.filterMap_cons, Item.raises, Item.root?, Item.value?]
  | number f a n =>
      rw [Item.words, List.cons_append, List.singleton_append, read, Word.of_number]
      simp only [Decimal.parse?_eq_some_iff.2 h]
      cases f <;> simp [setNumber, withItems, List.filterMap_cons, Item.raises, Item.root?, Item.value?]
  | root a =>
      rw [Item.words, List.singleton_append, read, Word.of_root h]
      simp [addRoots, withItems, List.filterMap_cons, Item.raises, Item.root?, Item.value?]

theorem read_items (h : ∀ i ∈ items, i.Proper) :
    s.read (items.flatMap Item.words ++ rest) = (s.withItems items).read rest := by
  induction items generalizing s with
  | nil => rw [withItems_nil, List.flatMap_nil, List.nil_append]
  | cons i items ih =>
      rw [List.flatMap_cons, List.append_assoc, read_item (h i List.mem_cons_self),
        ih fun x hx => h x (List.mem_cons_of_mem _ hx), ← withItems_append, List.singleton_append]

theorem read_split {p : Split} (h : p.Proper) :
    s.read p.words = .ok ((s.withItems p.items).addRoots (p.behind.getD [])) := by
  rw [Split.words, read_items h]
  cases p.behind with
  | none => simp [read, addRoots]
  | some l =>
      rw [Option.elim_some, read, Word.of_dashes]
      rfl

theorem read_offends {m : String} (h : Offends rest m) :
    ∃ e, s.read rest = .error e ∧ e.message = m := by
  cases h with
  | missing f =>
      refine ⟨.missingValue f, ?_, rfl⟩
      rw [read, Word.of_number]
  | invalid f a rest h =>
      refine ⟨.invalidValue f a, ?_, rfl⟩
      rw [read, Word.of_number]
      simp only [Decimal.parse?_eq_none_iff.2 h]
  | unknown a rest h =>
      refine ⟨.unknownArgument a, ?_, rfl⟩
      rw [read, Word.of_foreign h]

theorem orHere_split (p : Split) (followDefault : Bool) :
    (({ follow := followDefault : Settings }.withItems p.items).addRoots (p.behind.getD [])).orHere =
      p.settings followDefault := by
  have hroots : [] ++ (p.items.filterMap Item.root?).map Path.ofString ++
      (p.behind.getD []).map Path.ofString = p.roots.map Path.ofString := by
    rw [List.nil_append, Split.roots, List.map_append]
  have htimeout : (p.last? .timeout).map Duration.ofSeconds =
      ((p.last? .timeout).map Duration.ofSeconds).or none := Option.or_none.symm
  rw [orHere, Split.settings, htimeout]
  by_cases hnone : p.roots = []
  · rw [hnone] at hroots
    rw [if_pos hnone, if_pos (by rw [addRoots, withItems, hroots]; rfl)]
    rfl
  · have hsome : (p.roots.map Path.ofString).isEmpty = false := by simpa using hnone
    rw [if_neg hnone, if_neg (by rw [addRoots, withItems, hroots, hsome]; exact Bool.false_ne_true),
      ← hroots]
    rfl

end Settings

/-- The arguments begin with proper items, and behind these is the first argument that does not fit. -/
def Misfits (args : List String) (m : String) : Prop :=
  ∃ (items : List Item) (bad : List String), (∀ i ∈ items, i.Proper) ∧ args = items.flatMap Item.words ++ bad ∧ Offends bad m

def Split.Fits (p : Split) (args : List String) : Prop := p.Proper ∧ p.words = args

section

variable {i j : Item} {l l' rest : List String} {m : String}

namespace Item

def word : Item → Word
  | flag f _ => f.word
  | number f _ _ => .number f
  | root _ => .root

theorem Proper.head (h : i.Proper) : ∃ a l, i.words = a :: l ∧ Word.of a = i.word := by
  cases i with
  | flag f a => exact ⟨a, [], rfl, Word.of_flag h⟩
  | number f a n => exact ⟨f.text, [a], rfl, Word.of_number f⟩
  | root a => exact ⟨a, [], rfl, Word.of_root h⟩

theorem word_ne_onlyRoots (i : Item) : i.word ≠ .onlyRoots := by
  rcases i with ⟨_ | _, _⟩ | _ | _ <;> exact nofun

theorem eq_of_words (hi : i.Proper) (hj : j.Proper) (h : i.words ++ l = j.words ++ l') :
    i = j ∧ l = l' := by
  obtain ⟨a, x, ha, hword⟩ := hi.head
  obtain ⟨b, y, hb, hword'⟩ := hj.head
  -- The first word tells what sort of item it is.
  have hsame : i.word = j.word := by
    rw [ha, hb] at h
    rw [← hword, ← hword', (List.cons.inj h).1]
  cases i with
  | flag f a =>
      cases j with
      | flag g b =>
          obtain ⟨rfl, rfl⟩ := List.cons.inj h
          obtain rfl := Flag.word_inj.1 hsame
          exact ⟨rfl, rfl⟩
      | number g b n => cases f <;> cases hsame
      | root b => cases f <;> cases hsame
  | number f a n =>
      cases j with
      | flag g b => cases g <;> cases hsame
      | number g b m =>
          cases hsame
          obtain ⟨-, h⟩ := List.cons.inj h
          obtain ⟨rfl, rfl⟩ := List.cons.inj h
          obtain rfl := Decimal.Writes.unique hi hj
          exact ⟨rfl, rfl⟩
      | root b => cases hsame
  | root a =>
      cases j with
      | flag g b => cases g <;> cases hsame
      | number g b n => cases hsame
      | root b =>
          obtain ⟨rfl, rfl⟩ := List.cons.inj h
          exact ⟨rfl, rfl⟩

end Item

theorem Item.not_behind (hi : i.Proper) (behind : Option (List String)) :
    i.words ++ l ≠ behind.elim [] ("--" :: ·) := by
  obtain ⟨a, x, ha, hword⟩ := hi.head
  intro h
  rw [ha] at h
  cases behind with
  | none => cases h
  | some r =>
      obtain ⟨rfl, -⟩ := List.cons.inj h
      exact i.word_ne_onlyRoots hword.symm

theorem Item.eq_of_flatMap {items items' : List Item} {behind behind' : Option (List String)}
    (hi : ∀ i ∈ items, i.Proper) (hj : ∀ j ∈ items', j.Proper)
    (h : items.flatMap words ++ behind.elim [] ("--" :: ·) =
      items'.flatMap words ++ behind'.elim [] ("--" :: ·)) : items = items' ∧ behind = behind' := by
  induction items generalizing items' with
  | nil =>
      cases items' with
      | nil =>
          refine ⟨rfl, ?_⟩
          cases behind <;> cases behind' <;> simp_all
      | cons j items' =>
          rw [List.flatMap_cons, List.append_assoc] at h
          exact absurd h.symm (not_behind (hj j List.mem_cons_self) behind)
  | cons i items ih =>
      rw [List.flatMap_cons, List.append_assoc] at h
      cases items' with
      | nil => exact absurd h (not_behind (hi i List.mem_cons_self) behind')
      | cons j items' =>
          rw [List.flatMap_cons, List.append_assoc] at h
          obtain ⟨rfl, hrest⟩ := eq_of_words (hi i List.mem_cons_self) (hj j List.mem_cons_self) h
          obtain ⟨rfl, rfl⟩ := ih (fun x hx => hi x (List.mem_cons_of_mem _ hx))
            (fun x hx => hj x (List.mem_cons_of_mem _ hx)) hrest
          exact ⟨rfl, rfl⟩

theorem Split.unique {p q : Split} {args : List String} (hp : p.Fits args) (hq : q.Fits args) :
    p = q := by
  obtain ⟨items, behind⟩ := p
  obtain ⟨items', behind'⟩ := q
  obtain ⟨rfl, rfl⟩ := Item.eq_of_flatMap hp.1 hq.1 (hp.2.trans hq.2.symm)
  rfl

theorem Item.fits_or_misfits (hi : i.Proper)
    (h : (∃ p : Split, p.Fits rest) ∨ ∃ m, Misfits rest m) :
    (∃ p : Split, p.Fits (i.words ++ rest)) ∨ ∃ m, Misfits (i.words ++ rest) m := by
  have hcons {items : List Item} (hitems : ∀ x ∈ items, x.Proper) : ∀ x ∈ i :: items, x.Proper := by
    intro x hx
    rcases List.mem_cons.1 hx with rfl | hx
    · exact hi
    · exact hitems x hx
  rcases h with ⟨p, hp, rfl⟩ | ⟨m, items, bad, hitems, rfl, hbad⟩
  · refine .inl ⟨⟨i :: p.items, p.behind⟩, hcons hp, ?_⟩
    rw [Split.words, Split.words, List.flatMap_cons, List.append_assoc]
  · refine .inr ⟨m, i :: items, bad, hcons hitems, ?_, hbad⟩
    rw [List.flatMap_cons, List.append_assoc]

theorem fits_or_misfits (args : List String) :
    (∃ p : Split, p.Fits args) ∨ ∃ m, Misfits args m := by
  have hbad {bad : List String} {m : String} (h : Offends bad m) : ∃ m, Misfits bad m :=
    ⟨m, [], bad, nofun, rfl, h⟩
  -- An item takes one argument or two, and what is left is shorter.
  induction hn : args.length using Nat.strongRecOn generalizing args with
  | ind n ih =>
      subst hn
      cases args with
      | nil => exact .inl ⟨⟨[], none⟩, nofun, rfl⟩
      | cons a args =>
          have hrest := ih args.length (Nat.lt_succ_self _) args rfl
          rcases Word.of_cases a with ⟨f, hf⟩ | ⟨f, rfl⟩ | rfl | ha | ha
          · exact Item.fits_or_misfits (i := .flag f a) hf hrest
          · cases args with
            | nil => exact .inr (hbad (.missing f))
            | cons v args =>
                cases hv : Decimal.parse? v with
                | none => exact .inr (hbad (.invalid f v args (Decimal.parse?_eq_none_iff.1 hv)))
                | some n =>
                    have hlt : args.length < (f.text :: v :: args).length := by
                      simp only [List.length_cons]
                      omega
                    exact Item.fits_or_misfits (i := .number f v n)
                      (Decimal.parse?_eq_some_iff.1 hv) (ih args.length hlt args rfl)
          · exact .inl ⟨⟨[], some args⟩, nofun, rfl⟩
          · exact Item.fits_or_misfits (i := .root a) ha hrest
          · exact .inr (hbad (.unknown a args ha))

end

namespace Settings

variable {followDefault : Bool} {args : List String}

theorem parse_fits {p : Split} (h : p.Fits args) :
    parse followDefault args = .ok (p.settings followDefault) := by
  rw [parse, ← h.2, read_split h.1, ← orHere_split]
  rfl

theorem parse_misfits {m : String} (h : Misfits args m) :
    (parse followDefault args).mapError UsageError.toRefusal = .error (.invalidArgument m) := by
  obtain ⟨items, bad, hitems, rfl, hbad⟩ := h
  obtain ⟨e, he, rfl⟩ := read_offends (s := { follow := followDefault : Settings }.withItems items) hbad
  rw [parse, read_items hitems, he]
  rfl

theorem fits_of_parse {s : Settings} (h : parse followDefault args = .ok s) :
    ∃ p : Split, p.Fits args ∧ s = p.settings followDefault := by
  rcases fits_or_misfits args with ⟨p, hp⟩ | ⟨m, hm⟩
  · exact ⟨p, hp, Except.ok.inj (h.symm.trans (parse_fits hp))⟩
  · have herror : (parse followDefault args).mapError UsageError.toRefusal =
        .error (.invalidArgument m) := parse_misfits hm
    rw [h] at herror
    cases herror

/-- Arguments are accepted just if they can be taken apart into items and what stands behind a double
dash, which can be done in one way only, and they mean what their items say; otherwise some argument
is the first that does not fit, and that is what is said. -/
theorem parse_grammar (followDefault : Bool) (args : List String) :
    ((∃ s, parse followDefault args = .ok s) ↔ ∃! p : Split, p.Fits args) ∧
    (∀ s, parse followDefault args = .ok s ↔
      ∃ p : Split, p.Fits args ∧ s = p.settings followDefault) ∧
    ∀ r, (parse followDefault args).mapError UsageError.toRefusal = .error r ↔
      ∃ m, Misfits args m ∧ r = .invalidArgument m := by
  have hok (s : Settings) : parse followDefault args = .ok s ↔
      ∃ p : Split, p.Fits args ∧ s = p.settings followDefault := by
    refine ⟨fits_of_parse, ?_⟩
    rintro ⟨p, hp, rfl⟩
    exact parse_fits hp
  refine ⟨⟨?_, ?_⟩, hok, fun r => ⟨?_, ?_⟩⟩
  · rintro ⟨s, hs⟩
    obtain ⟨p, hp, -⟩ := (hok s).1 hs
    exact ⟨p, hp, fun q hq => Split.unique hq hp⟩
  · rintro ⟨p, hp, -⟩
    exact ⟨_, parse_fits hp⟩
  · intro h
    rcases fits_or_misfits args with ⟨p, hp⟩ | ⟨m, hm⟩
    · rw [parse_fits hp] at h
      cases h
    · exact ⟨m, hm, Except.error.inj (h.symm.trans (parse_misfits hm))⟩
  · rintro ⟨m, hm, rfl⟩
    exact parse_misfits hm

end Settings

end TreeTally.Command
