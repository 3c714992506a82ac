import TreeTally.Proofs.Disk.Listing
import TreeTally.Proofs.Text.Order

namespace TreeTally

namespace Disk

variable {d : Disk} {p : Path} {l : Location} {n : List Char} {names : List (List Char)}
variable {token : Nat → Bool} {k : Nat} {entries : List FolderEntry}

theorem nameBefore_iff {a b : List Char} :
    nameBefore a b = true ↔ ¬b.map Char.toNat < a.map Char.toNat := by
  simp [nameBefore]

theorem nameBefore_trans {a b c : List Char} (hab : nameBefore a b = true)
    (hbc : nameBefore b c = true) : nameBefore a c = true := by
  rw [nameBefore_iff] at hab hbc ⊢
  exact List.not_lt.2 (List.le_trans (List.not_lt.1 hab) (List.not_lt.1 hbc))

theorem nameBefore_total (a b : List Char) : nameBefore a b = true ∨ nameBefore b a = true := by
  rw [nameBefore_iff, nameBefore_iff]
  exact not_and_or.1 fun h => List.lt_asymm h.1 h.2

theorem pairwise_names (h : names.Nodup) : (names.mergeSort nameBefore).Pairwise fun a b =>
    Utf8.encoding a < Utf8.encoding b := by
  have hsorted : (names.mergeSort nameBefore).Pairwise fun a b => nameBefore a b = true := by
    apply List.pairwise_mergeSort
    · intro a b c
      exact nameBefore_trans
    · intro a b
      rw [Bool.or_eq_true]
      exact nameBefore_total a b
  have hnodup : (names.mergeSort nameBefore).Nodup := (List.mergeSort_perm _ _).nodup_iff.2 h
  apply (hsorted.and hnodup).imp
  intro a b ⟨hle, hne⟩
  rw [nameBefore_iff] at hle
  rw [Utf8.encoding_lt_iff]
  -- Texts that stand neither before nor behind each other are the same.
  by_contra hlt
  apply hne
  have hmap := List.le_antisymm (List.not_lt.1 hle) (List.not_lt.1 hlt)
  exact (List.map_inj_right fun _ _ h => Char.toNat_inj.1 h).1 hmap

def nodeAt (d : Disk) (l : Location) (n : List Char) : DiskNode :=
  (d.node? (l ++ [n])).getD (.special 0)

def entryAt (d : Disk) (p : Path) (l : Location) (n : List Char) : FolderEntry :=
  ⟨p.join n, n, (d.nodeAt l n).kind, (d.nodeAt l n).size⟩

def childAt (d : Disk) (l : Location) (n : List Char) : Child :=
  ⟨n, d.info (l ++ [n]) (d.nodeAt l n)⟩

theorem listed_childAt (hn : n ∈ d.childNames l) : d.listed p l false n = .ok (d.childAt l n) := by
  obtain ⟨x, hx⟩ := mem_childNames.1 hn
  obtain ⟨y, hy⟩ := exists_node_of_mem hx
  rw [listed_alone hy, childAt, nodeAt, hy]
  rfl

theorem list_childAt (h : d.openFolder p = .ok l) :
    d.list p false = .ok (((d.childNames l).map (d.childAt l)).map .ok) := by
  rw [list_eq_ok]
  refine ⟨l, h, ?_⟩
  rw [List.map_map]
  apply List.map_congr_left
  intro n hn
  exact (listed_childAt hn).symm

theorem folderEntry_entryAt (hd : d.Sound) (hopen : d.openFolder p = .ok l)
    (hn : n ∈ d.childNames l) {i : EntryInfo} (h : d.queryAs (p.join n) false = .ok i) :
    d.folderEntry p l n = .ok (d.entryAt p l n) := by
  obtain ⟨x, hx⟩ := mem_childNames.1 hn
  have hp : p.chars ≠ [] := (takes_of_find (openFolder_eq_ok.1 hopen).1).ne_nil
  obtain ⟨l', y, hopen', hy, rfl⟩ := opens_of_alone hp (hd.named hx).1 h
  obtain rfl : l = l' := Except.ok.inj (hopen.symm.trans hopen')
  simp [folderEntry, h, entryAt, notedKind, nodeAt, hy, info]

theorem folderEntry_error {f : Fault} (h : d.queryAs (p.join n) false = .error f) :
    d.folderEntry p l n = .error (.visiting (p.join n) f) := by
  rw [folderEntry, h]

theorem described_iff (hd : d.Sound) (hopen : d.openFolder p = .ok l) (hn : n ∈ d.childNames l) :
    (∃ i, d.queryAs (p.join n) false = .ok i) ↔ (p.join n).display.utf8ByteSize < pathLimit := by
  constructor
  · rintro ⟨i, h⟩
    obtain ⟨l', x, hfind, -, -⟩ := queryAs_eq_ok.1 h
    exact (takes_of_find hfind).short
  · intro hshort
    obtain ⟨x, hx⟩ := mem_childNames.1 hn
    obtain ⟨hproper, hnamed, hnul⟩ := hd.named hx
    have htakes := (takes_of_find (openFolder_eq_ok.1 hopen).1).join hproper hnul hshort
    exact ⟨_, queryAs_join hopen hproper hnamed (hd.node?_of_mem hx) htakes⟩

/-- An entry of the folder can be described by its path. -/
def Described (d : Disk) (p : Path) (n : List Char) : Prop := ∃ i, d.queryAs (p.join n) false = .ok i

section

variable (hd : d.Sound) (hopen : d.openFolder p = .ok l)
include hd hopen

theorem folderEntry_described (hn : n ∈ d.childNames l) (h : d.Described p n) :
    d.folderEntry p l n = .ok (d.entryAt p l n) := by
  obtain ⟨i, hi⟩ := h
  exact folderEntry_entryAt hd hopen hn hi

theorem describeAll_ok (token : Nat → Bool)
    (hnames : ∀ n ∈ names, n ∈ d.childNames l ∧ d.Described p n)
    (ht : ∀ k < names.length, token k = false) :
    d.describeAll p l token names = .ok (names.map (d.entryAt p l)) := by
  induction names generalizing token with
  | nil => rfl
  | cons n names ih =>
      obtain ⟨⟨hn, hdescribed⟩, hrest⟩ := List.forall_mem_cons.1 hnames
      have htail := ih (fun k => token (k + 1)) hrest fun k hk => ht _ (Nat.succ_lt_succ hk)
      rw [describeAll, ht 0 (Nat.succ_pos _), folderEntry_described hd hopen hn hdescribed, htail]
      rfl

theorem describeAll_cancelled (token : Nat → Bool) {before after : List (List Char)}
    (hbefore : ∀ m ∈ before, m ∈ d.childNames l ∧ d.Described p m)
    (ht : token before.length = true) :
    d.describeAll p l token (before ++ n :: after) = .error .cancelled := by
  induction before generalizing token with
  | nil =>
      rw [List.nil_append, describeAll, show token 0 = true from ht]
      rfl
  | cons m before ih =>
      obtain ⟨⟨hm, hdescribed⟩, hrest⟩ := List.forall_mem_cons.1 hbefore
      rw [List.cons_append, describeAll]
      cases hnow : token 0 with
      | true => rfl
      | false =>
          rw [folderEntry_described hd hopen hm hdescribed, ih (fun k => token (k + 1)) hrest ht]
          rfl

theorem describeAll_stops (token : Nat → Bool) (hnames : ∀ n ∈ names, n ∈ d.childNames l) :
    (∀ n ∈ names, d.Described p n) ∧ (∀ k < names.length, token k = false) ∨
    ∃ before n after, names = before ++ n :: after ∧ (∀ m ∈ before, d.Described p m) ∧
      (token before.length = true ∧ d.describeAll p l token names = .error .cancelled ∨
        ∃ f, d.queryAs (p.join n) false = .error f ∧
          d.describeAll p l token names = .error (.fault (.visiting (p.join n) f))) := by
  induction names generalizing token with
  | nil => exact .inl ⟨nofun, nofun⟩
  | cons n names ih =>
      obtain ⟨hn, hrest⟩ := List.forall_mem_cons.1 hnames
      rw [describeAll]
      cases hnow : token 0 with
      | true => exact .inr ⟨[], n, names, rfl, nofun, .inl ⟨hnow, rfl⟩⟩
      | false =>
          cases hq : d.queryAs (p.join n) false with
          | error f =>
              refine .inr ⟨[], n, names, rfl, nofun, .inr ⟨f, hq, ?_⟩⟩
              rw [folderEntry_error hq]
              rfl
          | ok i =>
              rw [folderEntry_entryAt hd hopen hn hq]
              rcases ih (fun k => token (k + 1)) hrest with
                ⟨hall, ht⟩ | ⟨before, m, after, rfl, hbefore, hends⟩
              · refine .inl ⟨List.forall_mem_cons.2 ⟨⟨i, hq⟩, hall⟩, fun k hk => ?_⟩
                cases k with
                | zero => exact hnow
                | succ k => exact ht k (Nat.lt_of_succ_lt_succ hk)
              · refine .inr ⟨n :: before, m, after, rfl, List.forall_mem_cons.2 ⟨⟨i, hq⟩, hbefore⟩, ?_⟩
                rcases hends with ⟨ht, hend⟩ | ⟨f, hf, hend⟩
                · exact .inl ⟨ht, by rw [hend]; rfl⟩
                · exact .inr ⟨f, hf, by rw [hend]; rfl⟩

end

theorem listFolder_cancelled (h : token 0 = true) : d.listFolder p token = .error .cancelled := by
  rw [listFolder, h]
  rfl

theorem listFolder_of_open (hopen : d.openFolder p = .ok l) (h : token 0 = false) : d.listFolder p token =
    d.describeAll p l (fun k => token (k + 1)) ((d.childNames l).mergeSort nameBefore) := by
  obtain ⟨size, hq⟩ := queryAs_of_open hopen
  rw [listFolder, h, hq, hopen]
  rfl

theorem listFolder_unopened (h : ∀ l, d.openFolder p ≠ .ok l) (ht : token 0 = false) :
    (∃ f, d.queryAs p true = .error f ∧ d.listFolder p token = .error (.fault f)) ∨
      ∃ i, d.queryAs p true = .ok i ∧ i.kind ≠ .folder ∧
        d.listFolder p token = .error (.invalidArgument ("not a directory: " ++ p.display)) := by
  cases hq : d.queryAs p true with
  | error f =>
      refine .inl ⟨f, rfl, ?_⟩
      rw [listFolder, ht, hq]
      rfl
  | ok i =>
      have hk : i.kind ≠ .folder := by
        intro hk
        obtain ⟨l, hopen⟩ := exists_open hq hk
        exact h l hopen
      refine .inr ⟨i, rfl, hk, ?_⟩
      rw [listFolder, ht, hq]
      simp [Except.mapError, bind, Except.bind, hk, throw, throwThe, MonadExceptOf.throw]

theorem mem_sorted : n ∈ (d.childNames l).mergeSort nameBefore ↔ n ∈ d.childNames l := List.mem_mergeSort

theorem length_sorted (d : Disk) (l : Location) :
    ((d.childNames l).mergeSort nameBefore).length = (d.childNames l).length :=
  (List.mergeSort_perm _ _).length_eq

section

variable (hd : d.Sound) (hopen : d.openFolder p = .ok l)
include hd hopen

theorem listFolder_ok (h : ∀ n ∈ d.childNames l, d.Described p n)
    (ht : ∀ k ≤ (d.childNames l).length, token k = false) :
    d.listFolder p token = .ok (((d.childNames l).mergeSort nameBefore).map (d.entryAt p l)) := by
  rw [listFolder_of_open hopen (ht 0 (Nat.zero_le _))]
  refine describeAll_ok hd hopen _ (fun n hn => ⟨mem_sorted.1 hn, h n (mem_sorted.1 hn)⟩) fun k hk => ?_
  rw [length_sorted] at hk
  exact ht _ hk

theorem listFolder_stops (ht : token 0 = false) :
    (∀ n ∈ d.childNames l, d.Described p n) ∧ (∀ k ≤ (d.childNames l).length, token k = false) ∨
    (∃ before n after, (d.childNames l).mergeSort nameBefore = before ++ n :: after ∧
      (∀ m ∈ before, d.Described p m) ∧ token (before.length + 1) = true) ∧
        d.listFolder p token = .error .cancelled ∨
    ∃ n ∈ d.childNames l, ∃ f, d.queryAs (p.join n) false = .error f ∧
      d.listFolder p token = .error (.fault (.visiting (p.join n) f)) := by
  rw [listFolder_of_open hopen ht]
  rcases describeAll_stops hd hopen (fun k => token (k + 1)) fun n hn => mem_sorted.1 hn with
    ⟨hall, hquiet⟩ | ⟨before, n, after, hsplit, hbefore, ⟨hset, hend⟩ | ⟨f, hf, hend⟩⟩
  · refine .inl ⟨fun n hn => hall n (mem_sorted.2 hn), fun k hk => ?_⟩
    cases k with
    | zero => exact ht
    | succ k => exact hquiet k (by rwa [length_sorted])
  · exact .inr (.inl ⟨⟨before, n, after, hsplit, hbefore, hset⟩, hend⟩)
  · have hn : n ∈ (d.childNames l).mergeSort nameBefore := by simp [hsplit]
    exact .inr (.inr ⟨n, mem_sorted.1 hn, f, hf, hend⟩)

end

theorem opened_of_ok (h : d.listFolder p token = .ok entries) :
    token 0 = false ∧ ∃ l, d.openFolder p = .ok l := by
  cases ht : token 0 with
  | true => cases (listFolder_cancelled ht).symm.trans h
  | false =>
      refine ⟨rfl, ?_⟩
      by_contra hno
      rcases listFolder_unopened (fun l hl => hno ⟨l, hl⟩) ht with ⟨f, -, hf⟩ | ⟨i, -, -, hi⟩
      · cases hf.symm.trans h
      · cases hi.symm.trans h

theorem of_listFolder_ok (hd : d.Sound) (h : d.listFolder p token = .ok entries) :
    ∃ l, d.openFolder p = .ok l ∧ (∀ n ∈ d.childNames l, d.Described p n) ∧
      (∀ k ≤ (d.childNames l).length, token k = false) ∧
      entries = ((d.childNames l).mergeSort nameBefore).map (d.entryAt p l) := by
  obtain ⟨ht, l, hopen⟩ := opened_of_ok h
  rcases listFolder_stops hd hopen ht with ⟨hall, hquiet⟩ | ⟨-, hend⟩ | ⟨n, -, f, -, hend⟩
  · exact ⟨l, hopen, hall, hquiet, Except.ok.inj (h.symm.trans (listFolder_ok hd hopen hall hquiet))⟩
  · cases hend.symm.trans h
  · cases hend.symm.trans h

theorem listFolder_cancelled_iff (hd : d.Sound) : d.listFolder p token = .error .cancelled ↔
    token 0 = true ∨ ∃ l before n after, d.openFolder p = .ok l ∧
      (d.childNames l).mergeSort nameBefore = before ++ n :: after ∧
      (∀ m ∈ before, d.Described p m) ∧ token (before.length + 1) = true := by
  constructor
  · intro h
    cases ht : token 0 with
    | true => exact .inl rfl
    | false =>
        refine .inr ?_
        by_cases hopen : ∃ l, d.openFolder p = .ok l
        · obtain ⟨l, hopen⟩ := hopen
          rcases listFolder_stops hd hopen ht with ⟨hall, hquiet⟩ |
              ⟨⟨before, n, after, hsplit, hbefore, hset⟩, -⟩ | ⟨n, -, f, -, hend⟩
          · cases (listFolder_ok hd hopen hall hquiet).symm.trans h
          · exact ⟨l, before, n, after, hopen, hsplit, hbefore, hset⟩
          · cases hend.symm.trans h
        · rcases listFolder_unopened (fun l hl => hopen ⟨l, hl⟩) ht with ⟨f, -, hf⟩ | ⟨i, -, -, hi⟩
          · cases hf.symm.trans h
          · cases hi.symm.trans h
  · rintro (ht | ⟨l, before, n, after, hopen, hsplit, hbefore, hset⟩)
    · exact listFolder_cancelled ht
    cases ht : token 0 with
    | true => exact listFolder_cancelled ht
    | false =>
        rw [listFolder_of_open hopen ht, hsplit]
        refine describeAll_cancelled hd hopen _ (fun m hm => ⟨mem_sorted.1 ?_, hbefore m hm⟩) hset
        rw [hsplit]
        exact List.mem_append_left _ hm

/-- What is told of an entry in either listing, its device left out. -/
def FolderEntry.told (e : FolderEntry) : List Char × EntryKind × Nat := (e.name, e.kind, e.size)

def toldOf (c : Child) : List Char × EntryKind × Nat := (c.name, c.info.kind, c.info.size)

/-- The entries of an open folder by name, against the children that a count is told of. -/
structure Agrees (d : Disk) (p : Path) (l : Location) (entries : List FolderEntry)
    (children : List Child) : Prop where
  all : (children.map (·.name)).Perm (d.childNames l)
  once : (children.map (·.name)).Nodup
  told : (entries.map (·.told)).Perm (children.map toldOf)
  ordered : entries.Pairwise fun a b => Utf8.encoding a.name < Utf8.encoding b.name
  path : ∀ e ∈ entries, e.path = p.join e.name

theorem agrees (hd : d.Sound) (p : Path) (l : Location) :
    d.Agrees p l (((d.childNames l).mergeSort nameBefore).map (d.entryAt p l))
      ((d.childNames l).map (d.childAt l)) := by
  have hnames : ((d.childNames l).map (d.childAt l)).map (·.name) = d.childNames l := by
    rw [List.map_map]
    exact List.map_id _
  refine ⟨by rw [hnames], by rw [hnames]; exact hd.nodup_childNames l, ?_, ?_, ?_⟩
  · rw [List.map_map, List.map_map]
    exact (List.mergeSort_perm _ _).map _
  · exact List.pairwise_map.2 (pairwise_names (hd.nodup_childNames l))
  · intro e he
    obtain ⟨n, -, rfl⟩ := List.mem_map.1 he
    rfl

/-- Where the listing of a folder by name succeeds, the one for a count holds no fault and tells the
same of the same entries. It succeeds just where the path opens a folder, no path of an entry is too
long and the token is never found set. A token that is found set ends it without a list, unless an entry
has ended it before: one that cannot be described makes it fail as a whole. What does not open is
refused. -/
theorem listFolder_agrees (hd : d.Sound) (p : Path) (token : Nat → Bool) :
    (∀ entries, d.listFolder p token = .ok entries → ∃ l children, d.openFolder p = .ok l ∧
      d.list p false = .ok (children.map .ok) ∧ d.Agrees p l entries children) ∧
    ((∃ entries, d.listFolder p token = .ok entries) ↔ ∃ l, d.openFolder p = .ok l ∧
      (∀ k ≤ (d.childNames l).length, token k = false) ∧
      ∀ n ∈ d.childNames l, (p.join n).display.utf8ByteSize < pathLimit) ∧
    (d.listFolder p token = .error .cancelled ↔ token 0 = true ∨
      ∃ l before n after, d.openFolder p = .ok l ∧
        (d.childNames l).mergeSort nameBefore = before ++ n :: after ∧
        (∀ m ∈ before, ∃ i, d.queryAs (p.join m) false = .ok i) ∧ token (before.length + 1) = true) ∧
    (∀ l, d.openFolder p = .ok l → d.listFolder p token ≠ .error .cancelled →
      (∃ n ∈ d.childNames l, ∃ f, d.queryAs (p.join n) false = .error f) →
      ∃ n ∈ d.childNames l, ∃ f, d.queryAs (p.join n) false = .error f ∧
        d.listFolder p token = .error (.fault (.visiting (p.join n) f))) ∧
    ((∀ l, d.openFolder p ≠ .ok l) → token 0 = false →
      (∃ f, d.queryAs p true = .error f ∧ d.listFolder p token = .error (.fault f)) ∨
      ∃ i, d.queryAs p true = .ok i ∧ i.kind ≠ .folder ∧
        d.listFolder p token = .error (.invalidArgument ("not a directory: " ++ p.display))) := by
  refine ⟨fun entries h => ?_, ⟨?_, ?_⟩, listFolder_cancelled_iff hd, fun l hopen hgo hbad => ?_,
    listFolder_unopened⟩
  · obtain ⟨l, hopen, -, -, rfl⟩ := of_listFolder_ok hd h
    exact ⟨l, _, hopen, list_childAt hopen, agrees hd p l⟩
  · rintro ⟨entries, h⟩
    obtain ⟨l, hopen, hall, hquiet, -⟩ := of_listFolder_ok hd h
    exact ⟨l, hopen, hquiet, fun n hn => (described_iff hd hopen hn).1 (hall n hn)⟩
  · rintro ⟨l, hopen, hquiet, hshort⟩
    exact ⟨_, listFolder_ok hd hopen (fun n hn => (described_iff hd hopen hn).2 (hshort n hn)) hquiet⟩
  · have ht : token 0 = false := by
      cases ht : token 0 with
      | true => exact absurd (listFolder_cancelled ht) hgo
      | false => rfl
    rcases listFolder_stops hd hopen ht with ⟨hall, -⟩ | ⟨-, hend⟩ | hend
    · obtain ⟨n, hn, f, hf⟩ := hbad
      obtain ⟨i, hi⟩ := hall n hn
      cases hf.symm.trans hi
    · exact absurd hend hgo
    · exact hend

def workbench : Disk where
  nodes := [([['w']], .link ['a', '/', '.']), ([['a']], .folder 4096),
    ([['a'], ['z']], .link ['n', 'o']), ([['a'], ['f']], .file 7), ([['a'], ['b']], .folder 60),
    ([['a'], ['g']], .file 7), ([['a'], ['s']], .special 0), ([['a'], ['l']], .link ['f']),
    ([['a'], ['b'], ['x']], .file 1)]

/-- The token is read seven times for six entries. It is too late to set it behind the last reading, but
not behind the first. -/
theorem listFolder_agrees_workbench :
    let p : Path := ⟨['/', 'w', '/']⟩
    workbench.Sound ∧ (∃ entries children,
      workbench.listFolder p (fun k => decide (6 < k)) = .ok entries ∧
      workbench.list p false = .ok (children.map .ok) ∧
      workbench.Agrees p [['a']] entries children ∧
      (entries.map (·.name)).Perm [['z'], ['f'], ['b'], ['g'], ['s'], ['l']]) ∧
    workbench.listFolder p (fun k => decide (0 < k)) = .error .cancelled := by
  intro p
  have hsound : workbench.Sound := by decide +kernel
  have hopen : workbench.openFolder p = .ok [['a']] := by rfl
  obtain ⟨hsame, hshort, -⟩ := listFolder_agrees hsound p fun k => decide (6 < k)
  obtain ⟨entries, h⟩ := hshort.2 ⟨_, hopen, by decide +kernel, by decide +kernel⟩
  obtain ⟨l, children, hopen', hlist, hagrees⟩ := hsame entries h
  obtain rfl : [['a']] = l := Except.ok.inj (hopen.symm.trans hopen')
  have hnames : (entries.map (·.name)).Perm (children.map (·.name)) := by
    have htold := hagrees.told.map Prod.fst
    rw [List.map_map, List.map_map] at htold
    exact htold
  refine ⟨hsound, ⟨entries, children, h, hlist, hagrees, hnames.trans hagrees.all⟩, ?_⟩
  obtain ⟨-, -, hcancelled, -⟩ := listFolder_agrees hsound p fun k => decide (0 < k)
  have hne : (workbench.childNames [['a']]).mergeSort nameBefore ≠ [] := by
    intro hnil
    have hlen := workbench.length_sorted [['a']]
    rw [hnil] at hlen
    cases hlen
  obtain ⟨n, after, hsplit⟩ := List.exists_cons_of_ne_nil hne
  exact hcancelled.2 (.inr ⟨_, [], n, after, hopen, hsplit, nofun, rfl⟩)

end Disk

end TreeTally
