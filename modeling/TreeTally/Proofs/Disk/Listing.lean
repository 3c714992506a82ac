import Mathlib.Data.List.Nodup
import TreeTally.Proofs.Disk.Route

namespace TreeTally

instance (n : List Char) : Decidable (Proper n) := inferInstanceAs (Decidable (_ ∧ _))

namespace Path

theorem exists_join (p : Path) {t : List Char} (ht : t.head? ≠ some '/') :
    ∃ r, (r = t ∨ r = '/' :: t) ∧ (p.join t).chars = p.chars ++ r := by
  rw [join_relative p ht]
  split
  · exact ⟨t, .inl rfl, rfl⟩
  · exact ⟨'/' :: t, .inr rfl, rfl⟩

theorem join_ne_nil {p : Path} {t : List Char} (hp : p.chars ≠ []) (ht : t.head? ≠ some '/') :
    (p.join t).chars ≠ [] := by
  obtain ⟨r, -, hr⟩ := p.exists_join ht
  rw [hr]
  exact fun he => hp (List.append_eq_nil_iff.1 he).1

theorem mem_join {p : Path} {t : List Char} {c : Char} (ht : t.head? ≠ some '/')
    (h : c ∈ (p.join t).chars) : c ∈ p.chars ∨ c = '/' ∨ c ∈ t := by
  obtain ⟨r, hr, hjoin⟩ := p.exists_join ht
  rw [hjoin] at h
  rcases List.mem_append.1 h with h | h
  · exact .inl h
  · rcases hr with rfl | rfl
    · exact .inr (.inr h)
    · exact .inr (List.mem_cons.1 h)

theorem utf8ByteSize_display_append (a r : List Char) :
    (⟨a ++ r⟩ : Path).display.utf8ByteSize =
      (⟨a⟩ : Path).display.utf8ByteSize + (String.ofList r).utf8ByteSize := by
  rw [display, String.ofList_append, String.utf8ByteSize_append]
  rfl

end Path

theorem Proper.relative {n : List Char} (h : Proper n) : n.head? ≠ some '/' :=
  fun hs => h.2.2.2 (List.mem_of_mem_head? hs)

theorem Proper.pieces {n : List Char} (h : Proper n) : piecesAt '/' n = [n] :=
  piecesAt_of_not_mem h.2.2.2

namespace Disk

/-- Every entry has a name that can stand in a path and lies in a folder, no two lie at one
location, and volumes start at folders. -/
structure Sound (d : Disk) : Prop where
  name : ∀ e ∈ d.nodes, ∀ n ∈ e.1,
    Proper n ∧ (String.ofList n).utf8ByteSize ≤ nameLimit ∧ '\x00' ∉ n
  apart : (d.nodes.map Prod.fst).Nodup
  parent : ∀ e ∈ d.nodes, e.1 ≠ [] ∧ d.isFolder e.1.dropLast = true
  mount : ∀ v ∈ d.volumes, d.isFolder v.1 = true

instance (d : Disk) : Decidable d.Sound :=
  decidable_of_iff ((∀ e ∈ d.nodes, ∀ n ∈ e.1,
      Proper n ∧ (String.ofList n).utf8ByteSize ≤ nameLimit ∧ '\x00' ∉ n) ∧
      (d.nodes.map Prod.fst).Nodup ∧ (∀ e ∈ d.nodes, e.1 ≠ [] ∧ d.isFolder e.1.dropLast = true) ∧
      ∀ v ∈ d.volumes, d.isFolder v.1 = true)
    ⟨fun ⟨h₁, h₂, h₃, h₄⟩ => ⟨h₁, h₂, h₃, h₄⟩, fun ⟨h₁, h₂, h₃, h₄⟩ => ⟨h₁, h₂, h₃, h₄⟩⟩

variable {d : Disk} {p q : Path} {follow : Bool} {k k' : Nat} {l l' : Location} {n t : List Char}
variable {x : DiskNode} {i : EntryInfo} {ps : List (List Char)}

theorem isFolder_iff : d.isFolder l = true ↔ ∃ size, d.node? l = some (.folder size) := by
  rw [isFolder]
  split
  · simp [*]
  · rename_i h
    simpa using h

theorem mem_of_node? (hl : l ≠ []) (h : d.node? l = some x) : (l, x) ∈ d.nodes := by
  rw [node?, if_neg (by simpa using hl)] at h
  obtain ⟨⟨l', y⟩, he, rfl⟩ := Option.map_eq_some_iff.1 h
  obtain rfl : l' = l := by simpa using List.find?_some he
  exact List.mem_of_find?_eq_some he

theorem exists_node_of_mem (h : (l, x) ∈ d.nodes) : ∃ y, d.node? l = some y := by
  rw [node?]
  split
  · exact ⟨_, rfl⟩
  · refine Option.isSome_iff_exists.1 ?_
    rw [Option.isSome_map, List.find?_isSome]
    exact ⟨_, h, beq_self_eq_true l⟩

theorem childNames_eq (d : Disk) (l : Location) : d.childNames l =
    d.nodes.filterMap fun e => e.1.getLast?.filter fun n => decide (e.1 = l ++ [n]) := by
  rw [childNames]
  refine congrArg (List.filterMap · d.nodes) (funext fun e => ?_)
  cases e.1.getLast? <;> simp [Option.filter]

theorem mem_childNames : n ∈ d.childNames l ↔ ∃ x, (l ++ [n], x) ∈ d.nodes := by
  rw [childNames_eq, List.mem_filterMap]
  constructor
  · rintro ⟨⟨l', x⟩, he, h⟩
    obtain ⟨-, hl⟩ := Option.filter_eq_some_iff.1 h
    exact ⟨x, of_decide_eq_true hl ▸ he⟩
  · rintro ⟨x, h⟩
    exact ⟨_, h, by simp⟩

theorem length_childNames (d : Disk) (l : Location) : (d.childNames l).length ≤ d.nodes.length :=
  List.length_filterMap_le _ _

namespace Sound

theorem nodup_childNames (h : d.Sound) (l : Location) : (d.childNames l).Nodup := by
  have hfst : d.childNames l = (d.nodes.map Prod.fst).filterMap fun l' =>
      l'.getLast?.filter fun n => decide (l' = l ++ [n]) := by
    rw [childNames_eq, List.filterMap_map]
    rfl
  rw [hfst]
  refine h.apart.filterMap fun a b n ha hb => ?_
  have hal := of_decide_eq_true (Option.filter_eq_some_iff.1 ha).2
  exact hal.trans (of_decide_eq_true (Option.filter_eq_some_iff.1 hb).2).symm

theorem named (h : d.Sound) (hn : (l ++ [n], x) ∈ d.nodes) :
    Proper n ∧ Named n ∧ '\x00' ∉ n := by
  obtain ⟨hproper, hshort, hnul⟩ := h.name _ hn n (by simp)
  exact ⟨hproper, ⟨hproper.1, hproper.2.1, hproper.2.2.1, hshort⟩, hnul⟩

theorem node?_of_mem (h : d.Sound) (hx : (l, x) ∈ d.nodes) : d.node? l = some x := by
  obtain ⟨y, hy⟩ := exists_node_of_mem hx
  have hmem := mem_of_node? (h.parent _ hx).1 hy
  have hpair : (l, y) = (l, x) := List.inj_on_of_nodup_map h.apart hmem hx rfl
  rw [hy, (Prod.mk.inj hpair).2]

end Sound

theorem Sound.deviceOf_link (h : d.Sound) (hn : d.node? (l ++ [n]) = some (.link t)) :
    d.deviceOf (l ++ [n]) = d.deviceOf l := by
  have hnone : d.volumes.find? (fun v => v.1 == l ++ [n]) = none := by
    refine List.find?_eq_none.2 fun v hv he => ?_
    obtain ⟨size, hfolder⟩ := isFolder_iff.1 (h.mount v hv)
    rw [beq_iff_eq.1 he, hn] at hfolder
    cases hfolder
  have hall : (l ++ [n]).take (l.length + 1) = l ++ [n] := List.take_of_length_le (by simp)
  have hrest : (List.range (l.length + 1)).reverse.findSome? (fun m =>
        (d.volumes.find? fun v => v.1 == (l ++ [n]).take m).map Prod.snd) =
      (List.range (l.length + 1)).reverse.findSome? fun m =>
        (d.volumes.find? fun v => v.1 == l.take m).map Prod.snd := by
    have hcongr : ∀ m ∈ (List.range (l.length + 1)).reverse, (l ++ [n]).take m = l.take m := by
      intro m hm
      have hlt : m < l.length + 1 := List.mem_range.1 (List.mem_reverse.1 hm)
      exact List.take_append_of_le_length (Nat.le_of_lt_succ hlt)
    generalize (List.range (l.length + 1)).reverse = ms at hcongr
    induction ms with
    | nil => rfl
    | cons m ms ih =>
        obtain ⟨hm, hms⟩ := List.forall_mem_cons.1 hcongr
        rw [List.findSome?_cons, List.findSome?_cons, hm, ih hms]
  rw [deviceOf, deviceOf, ← hrest, List.length_append, List.length_singleton, List.range_succ,
    List.reverse_append, List.reverse_singleton, List.singleton_append, List.findSome?_cons, hall,
    hnone]
  rfl

theorem kind_eq_folder : x.kind = .folder ↔ ∃ size, x = .folder size := by
  cases x <;> simp [DiskNode.kind]

theorem queryAs_of_open (h : d.openFolder p = .ok l) :
    ∃ size, d.queryAs p true = .ok (d.info l (.folder size)) := by
  obtain ⟨hfind, hl⟩ := openFolder_eq_ok.1 h
  obtain ⟨size, hnode⟩ := isFolder_iff.1 hl
  exact ⟨size, queryAs_eq_ok.2 ⟨l, _, hfind, hnode, rfl⟩⟩

theorem exists_open (h : d.queryAs p true = .ok i) (hk : i.kind = .folder) :
    ∃ l, d.openFolder p = .ok l := by
  obtain ⟨l, x, hfind, hx, rfl⟩ := queryAs_eq_ok.1 h
  obtain ⟨size, rfl⟩ := kind_eq_folder.1 hk
  exact ⟨l, openFolder_eq_ok.2 ⟨hfind, isFolder_iff.2 ⟨size, hx⟩⟩⟩

theorem Takes.of_join (h : Takes (p.join t)) (hp : p.chars ≠ []) (ht : t.head? ≠ some '/') :
    Takes p := by
  obtain ⟨r, -, hr⟩ := p.exists_join ht
  have hjoin : p.join t = ⟨p.chars ++ r⟩ := congrArg Path.mk hr
  rw [hjoin] at h
  refine ⟨fun hn => h.no_nul (List.mem_append_left _ hn), hp, Nat.lt_of_le_of_lt ?_ h.short⟩
  rw [Path.utf8ByteSize_display_append]
  exact Nat.le_add_right _ _

theorem Takes.join (h : Takes p) (hn : Proper n) (hnul : '\x00' ∉ n)
    (hshort : (p.join n).display.utf8ByteSize < pathLimit) : Takes (p.join n) := by
  refine ⟨fun hm => ?_, Path.join_ne_nil h.ne_nil hn.relative, hshort⟩
  rcases Path.mem_join hn.relative hm with hm | he | hm
  · exact h.no_nul hm
  · cases he
  · exact hnul hm

theorem opens_of_alone (hp : p.chars ≠ []) (hn : Proper n) (h : d.queryAs (p.join n) false = .ok i) :
    ∃ l x, d.openFolder p = .ok l ∧ d.node? (l ++ [n]) = some x ∧ i = d.info (l ++ [n]) x := by
  obtain ⟨l', x, hfind, hx, rfl⟩ := queryAs_eq_ok.1 h
  obtain ⟨htakes, k, hleads⟩ := find_eq_ok.1 hfind
  rw [outset_join hp hn.relative, leads_join hp hn.relative, hn.pieces] at hleads
  obtain ⟨k', l, hfolder, hname⟩ := hleads
  obtain ⟨hl, -, y, hy, ⟨-, rfl⟩ | ⟨t, m, -, hf, -⟩⟩ := hname.name hn
  · refine ⟨l, x, openFolder_eq_ok.2 ⟨find_eq_ok.2 ⟨?_, k', hfolder⟩, hl⟩, hx, rfl⟩
    exact htakes.of_join hp hn.relative
  · cases hf

theorem queryAs_join (hopen : d.openFolder p = .ok l) (hn : Proper n) (hname : Named n)
    (hx : d.node? (l ++ [n]) = some x) (htakes : Takes (p.join n)) :
    d.queryAs (p.join n) false = .ok (d.info (l ++ [n]) x) := by
  obtain ⟨hfind, hl⟩ := openFolder_eq_ok.1 hopen
  obtain ⟨hp, k, hleads⟩ := find_eq_ok.1 hfind
  refine queryAs_eq_ok.2 ⟨_, x, find_eq_ok.2 ⟨htakes, k, ?_⟩, hx, rfl⟩
  rw [outset_join hp.ne_nil hn.relative, leads_join hp.ne_nil hn.relative, hn.pieces]
  exact ⟨k, l, hleads, leads_name hl hname hx nofun⟩

/-- What is told of an entry whose links are followed: where that cannot be done, what is known of
the entry itself. -/
def through (d : Disk) (p : Path) (itself : EntryInfo) : EntryInfo :=
  match d.queryAs p true with
  | .ok i => i
  | .error _ => itself

theorem stat_through (h : d.queryAs p false = .ok i) : d.stat p true = .ok (d.through p i) := by
  rw [stat, if_pos rfl, through]
  cases d.queryAs p true with
  | ok j => rfl
  | error f => exact h

theorem listed_alone (hx : d.node? (l ++ [n]) = some x) :
    d.listed p l false n = .ok ⟨n, d.info (l ++ [n]) x⟩ := by
  simp [listed, hx]

theorem listed_through (hx : d.node? (l ++ [n]) = some x) :
    d.listed p l true n = .ok ⟨n, d.through (p.join n) (d.info (l ++ [n]) x)⟩ := by
  rw [listed, through, if_pos rfl, hx]
  cases d.queryAs (p.join n) true <;> rfl

theorem list_eq_ok {entries : List Listed} : d.list p follow = .ok entries ↔
    ∃ l, d.openFolder p = .ok l ∧ entries = (d.childNames l).map (d.listed p l follow) := by
  rw [list, bind_eq_ok]
  refine exists_congr fun l => and_congr_right fun _ => ?_
  exact ⟨fun h => (Except.ok.inj h).symm, fun h => congrArg Except.ok h.symm⟩

theorem exists_of_mem_listing {entries : List Listed} (h : d.list p follow = .ok entries)
    {e : Listed} (he : e ∈ entries) : ∃ l n x i, d.openFolder p = .ok l ∧
      (l ++ [n], x) ∈ d.nodes ∧ e = .ok ⟨n, i⟩ := by
  obtain ⟨l, hopen, rfl⟩ := list_eq_ok.1 h
  obtain ⟨n, hn, rfl⟩ := List.mem_map.1 he
  obtain ⟨x, hx⟩ := mem_childNames.1 hn
  obtain ⟨y, hy⟩ := exists_node_of_mem hx
  cases follow with
  | true => exact ⟨l, n, x, _, hopen, hx, listed_through hy⟩
  | false => exact ⟨l, n, x, _, hopen, hx, listed_alone hy⟩

theorem link_of_refused {f : Fault} (h : d.queryAs p false = .ok i)
    (hf : d.queryAs p true = .error f) : ∃ l t, i = d.info l (.link t) ∧ d.node? l = some (.link t) := by
  obtain ⟨l, x, hfind, hx, rfl⟩ := queryAs_eq_ok.1 h
  obtain ⟨htakes, k, hleads⟩ := find_eq_ok.1 hfind
  rcases hleads.followed with hall | ⟨t, ht⟩
  · have hok := queryAs_eq_ok.2 ⟨l, x, find_eq_ok.2 ⟨htakes, k, hall⟩, hx, rfl⟩
    cases hok.symm.trans hf
  · obtain rfl : x = .link t := Option.some.inj (hx.symm.trans ht)
    exact ⟨l, t, rfl, ht⟩

end Disk

end TreeTally
