import TreeTally.Proofs.Disk.Listing
import TreeTally.Proofs.Walk.Outline

namespace TreeTally

theorem mem_piecesAt {s c : Char} {t : List Char} (h : c ∈ t) :
    c = s ∨ ∃ p ∈ piecesAt s t, c ∈ p := by
  induction t with
  | nil => cases h
  | cons a t ih =>
      rw [piecesAt]
      by_cases ha : a = s
      · rw [if_pos ha]
        rcases List.mem_cons.1 h with rfl | h
        · exact .inl ha
        · rcases ih h with hc | ⟨p, hp, hc⟩
          · exact .inl hc
          · exact .inr ⟨p, List.mem_cons_of_mem _ hp, hc⟩
      · obtain ⟨q, qs, hq⟩ := List.exists_cons_of_ne_nil (piecesAt_ne_nil s t)
        rw [if_neg ha, hq]
        rw [hq] at ih
        rcases List.mem_cons.1 h with rfl | h
        · exact .inr ⟨c :: q, List.mem_cons_self, List.mem_cons_self⟩
        · rcases ih h with hc | ⟨p, hp, hc⟩
          · exact .inl hc
          · rcases List.mem_cons.1 hp with rfl | hp
            · exact .inr ⟨a :: p, List.mem_cons_self, List.mem_cons_of_mem _ hc⟩
            · exact .inr ⟨p, List.mem_cons_of_mem _ hp, hc⟩

theorem getLast?_of_piecesAt {s : Char} {t : List Char} (h : (piecesAt s t).getLast? = some [])
    (ht : t ≠ []) : t.getLast? = some s := by
  induction t with
  | nil => exact absurd rfl ht
  | cons a t ih =>
      obtain ⟨q, qs, hq⟩ := List.exists_cons_of_ne_nil (piecesAt_ne_nil s t)
      have hrest : t ≠ [] → (piecesAt s t).getLast? = some [] → (a :: t).getLast? = some s := by
        intro hne hlast
        rw [← List.singleton_append, List.getLast?_append_of_ne_nil _ hne]
        exact ih hlast hne
      rw [piecesAt, hq] at h
      by_cases ha : a = s
      · rw [if_pos ha, List.getLast?_cons_cons, ← hq] at h
        by_cases hne : t = []
        · rw [hne, ha]
          rfl
        · exact hrest hne h
      · rw [if_neg ha] at h
        cases qs with
        | nil => simp at h
        | cons r qs =>
            refine hrest (fun he => ?_) ?_
            · rw [he] at hq
              simp [piecesAt] at hq
            · rwa [hq, List.getLast?_cons_cons]

def DiskNode.content? : DiskNode → Option Content
  | folder _ => some .folder
  | file n => some (.file n)
  | link target => some (.link ⟨target⟩)
  | special _ => none

namespace Disk

def below (d : Disk) (B : Location) : List (Location × DiskNode) :=
  d.nodes.filterMap fun e =>
    if B <+: e.1 ∧ e.1 ≠ B then some (e.1.drop B.length, e.2) else none

/-- What lies below a location is the tree, made in whatever order, its folders of whatever size. -/
def Holds (d : Disk) (B : Location) (T : Outline) : Prop :=
  ((d.below B).map fun e => (e.1, e.2.content?)).Perm (T.entries.map fun e => (e.1, some e.2))

def sizes (d : Disk) (B l : Location) : Nat := ((d.node? (B ++ l)).map DiskNode.size).getD 0

/-- Paths that are joined to this one are followed from the location. -/
def Grounds (d : Disk) (b : Path) (B : Location) : Prop :=
  b.chars = [] ∧ d.current = B ∨ d.find b true = .ok B

/-- The path stands for an entry of the tree, and no path to what lies below is too long. -/
structure At (d : Disk) (B : Location) (T : Outline) (p : Path) (l : Location) : Prop where
  no_nul : '\x00' ∉ p.chars
  ne_nil : p.chars ≠ []
  leads : ∃ k, d.Leads false linkLimit (d.outset p) (piecesAt '/' p.chars) k (B ++ l)
  short : ∀ ns c, (l ++ ns, c) ∈ T.entries →
    (ns.foldl Path.join p).display.utf8ByteSize < pathLimit

variable {d : Disk} {B l v : Location} {T : Outline} {x : DiskNode} {c : Content} {p b : Path}
variable {n t : List Char} {k : Nat} {home : DeviceId}

theorem mem_below : (l, x) ∈ d.below B ↔ l ≠ [] ∧ (B ++ l, x) ∈ d.nodes := by
  rw [below, List.mem_filterMap]
  constructor
  · rintro ⟨⟨l', y⟩, he, h⟩
    split at h
    · rename_i hl
      obtain ⟨⟨w, rfl⟩, hne⟩ := hl
      obtain ⟨rfl, rfl⟩ := Prod.mk.inj (Option.some.inj h)
      rw [List.drop_left]
      exact ⟨fun hw => hne (by rw [hw, List.append_nil]), he⟩
    · cases h
  · rintro ⟨hl, he⟩
    exact ⟨_, he, by simp [hl]⟩

theorem content?_eq_folder : x.content? = some .folder ↔ ∃ size, x = .folder size := by
  cases x <;> simp [DiskNode.content?]

theorem getLast?_of_unnamed {ps : List (List Char)} (h : ps.filter (· ≠ []) = []) (hps : ps ≠ []) :
    ps.getLast? = some [] := by
  rw [List.getLast?_eq_some_getLast hps]
  simpa using List.filter_eq_nil_iff.1 h _ (List.getLast_mem hps)

namespace Holds

variable (hholds : d.Holds B T)
include hholds

theorem mem_nodes (h : (l, c) ∈ T.entries) : ∃ x, (B ++ l, x) ∈ d.nodes ∧ x.content? = some c := by
  obtain ⟨⟨l', x⟩, he, hx⟩ := List.mem_map.1 (hholds.mem_iff.2 (List.mem_map.2 ⟨_, h, rfl⟩))
  obtain ⟨rfl, hc⟩ := Prod.mk.inj hx
  exact ⟨x, (mem_below.1 he).2, hc⟩

theorem exists_content (hl : l ≠ []) (h : (B ++ l, x) ∈ d.nodes) : ∃ c, (l, c) ∈ T.entries := by
  have hmem := hholds.mem_iff.1 (List.mem_map.2 ⟨_, mem_below.2 ⟨hl, h⟩, rfl⟩)
  obtain ⟨⟨l', c⟩, he, hx⟩ := List.mem_map.1 hmem
  obtain ⟨rfl, -⟩ := Prod.mk.inj hx
  exact ⟨c, he⟩

theorem node? (hd : d.Sound) (h : (l, c) ∈ T.entries) :
    ∃ x, d.node? (B ++ l) = some x ∧ x.content? = some c := by
  obtain ⟨x, hx, hc⟩ := hholds.mem_nodes h
  exact ⟨x, hd.node?_of_mem hx, hc⟩

theorem isFolder (hd : d.Sound) (h : (l, .folder) ∈ T.entries) : d.isFolder (B ++ l) = true := by
  obtain ⟨x, hx, hc⟩ := hholds.node? hd h
  obtain ⟨size, rfl⟩ := content?_eq_folder.1 hc
  exact isFolder_iff.2 ⟨size, hx⟩

theorem isFolder_above (hd : d.Sound) (h : (v ++ n :: l, c) ∈ T.entries) :
    d.isFolder (B ++ v) = true := by
  by_cases hv : v = []
  · subst hv
    obtain ⟨c', hc'⟩ := T.exists_child h
    obtain ⟨x, hx, -⟩ := hholds.mem_nodes hc'
    have hparent : d.isFolder (B ++ [n]).dropLast = true := (hd.parent _ hx).2
    rwa [List.dropLast_concat, ← List.append_nil B] at hparent
  · exact hholds.isFolder hd (T.folder_above h hv (List.cons_ne_nil _ _))

theorem leads (hd : d.Sound) (k : Nat) (ps : List (List Char)) (v : Location)
    (hentry : (v ++ ps.filter (· ≠ []), c) ∈ T.entries)
    (hslash : ps.getLast? = some [] → c = .folder) :
    d.Leads false k (B ++ v) ps k (B ++ (v ++ ps.filter (· ≠ []))) := by
  induction ps generalizing v with
  | nil =>
      rw [List.filter_nil, List.append_nil]
      exact .here k _
  | cons p ps ih =>
      have hrest (h : ps.getLast? = some []) : c = .folder := hslash (by
        rw [List.getLast?_cons, h]
        rfl)
      by_cases hp : p = []
      · subst hp
        rw [List.filter_cons_of_neg (by simp)] at hentry ⊢
        refine .stay ?_ (.inl rfl) (ih v hentry hrest)
        cases hnames : ps.filter (· ≠ []) with
        | nil =>
            have hall : ([] :: ps).filter (· ≠ []) = [] := by
              rwa [List.filter_cons_of_neg (by simp)]
            rw [hnames, List.append_nil, hslash (getLast?_of_unnamed hall (List.cons_ne_nil _ _))] at hentry
            exact hholds.isFolder hd hentry
        | cons m names => exact hholds.isFolder_above hd (hnames ▸ hentry)
      · rw [List.filter_cons_of_pos (by simpa using hp)] at hentry ⊢
        have hfolder := hholds.isFolder_above hd hentry
        obtain ⟨c', hc'⟩ := T.exists_child hentry
        obtain ⟨x, hmem, hx⟩ := hholds.mem_nodes hc'
        have hnode := hd.node?_of_mem hmem
        rw [← List.append_assoc] at hnode hmem
        have hnamed := (hd.named hmem).2.1
        cases ps with
        | nil =>
            rw [List.filter_nil, ← List.append_assoc]
            exact leads_name hfolder hnamed hnode nofun
        | cons q ps =>
            have happend : v ++ p :: (q :: ps).filter (· ≠ []) =
                (v ++ [p]) ++ (q :: ps).filter (· ≠ []) := by simp
            rw [happend] at hentry ⊢
            -- More pieces follow, so that what lies here is a folder.
            have hc : c' = .folder := by
              by_cases hnames : (q :: ps).filter (· ≠ []) = []
              · rw [hnames, List.append_nil] at hentry
                exact (T.eq_of_mem hc' hentry).trans
                  (hrest (getLast?_of_unnamed hnames (List.cons_ne_nil _ _)))
              · exact T.eq_of_mem hc' (T.folder_above hentry (by simp) hnames)
            have hih := ih (v ++ [p]) hentry hrest
            rw [← List.append_assoc B v [p]] at hih
            obtain ⟨size, rfl⟩ := content?_eq_folder.1 (hc ▸ hx)
            exact .down hfolder hnamed hnode nofun hih

end Holds

variable {c : Content}

theorem Holds.no_nul (hd : d.Sound) (hholds : d.Holds B T) (ht : T.Spells t l c) : '\x00' ∉ t := by
  intro hm
  rcases mem_piecesAt (s := '/') hm with he | ⟨n, hn, hm⟩
  · cases he
  · have hname : n ∈ l := ht.names ▸ List.mem_filter.2 ⟨hn, by simpa using List.ne_nil_of_mem hm⟩
    obtain ⟨x, hx, -⟩ := hholds.mem_nodes ht.entry
    exact (hd.name _ hx n (List.mem_append_right B hname)).2.2 hm

theorem at_spelled (hd : d.Sound) (hholds : d.Holds B T) (hb : d.Grounds b B) (ht : T.Spells t l c)
    (hshort : ∀ ns c, (l ++ ns, c) ∈ T.entries →
      (ns.foldl Path.join (b.join t)).display.utf8ByteSize < pathLimit) :
    d.At B T (b.join t) l := by
  have hnil : t ≠ [] := fun he => (T.proper _ ht.entry).1 (by simp [← ht.names, he, piecesAt])
  have hnul := hholds.no_nul hd ht
  have hentry := ht.entry
  rw [← ht.names] at hentry
  have hleads (k : Nat) : d.Leads false k B (piecesAt '/' t) k (B ++ l) := by
    have h := hholds.leads hd k (piecesAt '/' t) [] hentry
      fun hlast => ht.slash (getLast?_of_piecesAt hlast hnil)
    rwa [List.append_nil, List.nil_append, ht.names] at h
  -- The pieces are followed either from the current folder, or from where the base has led.
  rcases hb with ⟨hempty, hcurrent⟩ | hfind
  · have hjoin : b.join t = ⟨t⟩ := by
      rw [Path.join_relative b ht.relative, if_pos (.inl hempty), hempty, List.nil_append]
    have houtset : d.outset ⟨t⟩ = B := (if_neg ht.relative).trans hcurrent
    rw [hjoin] at hshort ⊢
    exact ⟨hnul, hnil, ⟨linkLimit, houtset ▸ hleads linkLimit⟩, hshort⟩
  · obtain ⟨htakes, k, hground⟩ := find_eq_ok.1 hfind
    refine ⟨fun hm => ?_, Path.join_ne_nil htakes.ne_nil ht.relative, ⟨k, ?_⟩, hshort⟩
    · rcases Path.mem_join ht.relative hm with hm | he | hm
      · exact htakes.no_nul hm
      · cases he
      · exact hnul hm
    · rw [outset_join htakes.ne_nil ht.relative, leads_join htakes.ne_nil ht.relative]
      exact ⟨k, B, hground, hleads k⟩

theorem At.takes (h : d.At B T p l) (hl : (l, c) ∈ T.entries) : Takes p :=
  ⟨h.no_nul, h.ne_nil, h.short [] c (by rwa [List.append_nil])⟩

theorem info_content (hhome : d.deviceOf l = home) (hx : x.content? = some c) :
    d.info l x = c.told home x.size := by
  rw [info, hhome]
  cases x <;> cases hx <;> rfl

theorem sizes_eq (h : d.node? (B ++ l) = some x) : d.sizes B l = x.size := by
  rw [sizes, h]
  rfl

theorem At.openFolder (h : d.At B T p l) (hd : d.Sound) (hholds : d.Holds B T)
    (hl : (l, .folder) ∈ T.entries) : d.openFolder p = .ok (B ++ l) := by
  obtain ⟨k, hleads⟩ := h.leads
  have hfolder := hholds.isFolder hd hl
  refine openFolder_eq_ok.2 ⟨find_eq_ok.2 ⟨h.takes hl, k, ?_⟩, hfolder⟩
  refine hleads.followed.resolve_right ?_
  rintro ⟨t, ht⟩
  obtain ⟨size, hnode⟩ := isFolder_iff.1 hfolder
  cases hnode.symm.trans ht

theorem At.join (h : d.At B T p l) (hd : d.Sound) (hholds : d.Holds B T)
    (hl : (l, .folder) ∈ T.entries) (hn : (l ++ [n], c) ∈ T.entries) :
    d.At B T (p.join n) (l ++ [n]) := by
  obtain ⟨x, hmem, -⟩ := hholds.mem_nodes hn
  have hnode := hd.node?_of_mem hmem
  rw [← List.append_assoc] at hmem hnode
  obtain ⟨hproper, hnamed, hnul⟩ := hd.named hmem
  have htakes := (h.takes hl).join hproper hnul (h.short [n] c hn)
  obtain ⟨hfind, hfolder⟩ := openFolder_eq_ok.1 (h.openFolder hd hholds hl)
  obtain ⟨-, k, hleads⟩ := find_eq_ok.1 hfind
  refine ⟨htakes.no_nul, htakes.ne_nil, ⟨k, ?_⟩, fun ns c hns => ?_⟩
  · rw [outset_join h.ne_nil hproper.relative, leads_join h.ne_nil hproper.relative, hproper.pieces,
      ← List.append_assoc]
    exact ⟨k, B ++ l, hleads, leads_name hfolder hnamed hnode nofun⟩
  · rw [List.append_assoc] at hns
    exact h.short (n :: ns) c hns

theorem shownBy (hd : d.Sound) (hholds : d.Holds B T)
    (hhome : ∀ e ∈ T.entries, d.deviceOf (B ++ e.1) = home) :
    T.ShownBy d.fileSystem home (d.sizes B) (d.At B T) := by
  refine ⟨fun p l c hp hl => ?_, fun p l hp hl => ?_, fun p l n c hp hl hn => hp.join hd hholds hl hn⟩
  · obtain ⟨k, hleads⟩ := hp.leads
    have hfind := find_eq_ok.2 ⟨hp.takes hl, k, hleads⟩
    obtain ⟨x, hnode, hx⟩ := hholds.node? hd hl
    rw [sizes_eq hnode, ← info_content (hhome _ hl) hx]
    exact queryAs_eq_ok.2 ⟨_, _, hfind, hnode, rfl⟩
  · have hlisted (n : List Char) (c : Content) (hn : (l ++ [n], c) ∈ T.entries) :
        d.listed p (B ++ l) false n = .ok ⟨n, c.told home (d.sizes B (l ++ [n]))⟩ := by
      obtain ⟨x, hnode, hx⟩ := hholds.node? hd hn
      have hdevice := hhome _ hn
      rw [sizes_eq hnode]
      rw [← List.append_assoc] at hnode hdevice
      rw [listed_alone hnode, info_content hdevice hx]
    have hname (n : List Char) : n ∈ d.childNames (B ++ l) ↔ ∃ c, (l ++ [n], c) ∈ T.entries := by
      rw [mem_childNames, List.append_assoc]
      constructor
      · rintro ⟨x, hx⟩
        exact hholds.exists_content (by simp) hx
      · rintro ⟨c, hc⟩
        obtain ⟨x, hx, -⟩ := hholds.mem_nodes hc
        exact ⟨x, hx⟩
    refine ⟨_, list_eq_ok.2 ⟨_, hp.openFolder hd hholds hl, rfl⟩, T.perm_listing ?_ fun e => ?_⟩
    · refine (hd.nodup_childNames _).map_on fun n hn m hm he => ?_
      obtain ⟨c, hc⟩ := (hname n).1 hn
      obtain ⟨c', hc'⟩ := (hname m).1 hm
      rw [hlisted n c hc, hlisted m c' hc'] at he
      exact (Child.mk.inj (Except.ok.inj he)).1
    · rw [List.mem_map]
      constructor
      · rintro ⟨n, hn, rfl⟩
        obtain ⟨c, hc⟩ := (hname n).1 hn
        exact ⟨n, c, hc, hlisted n c hc⟩
      · rintro ⟨n, c, hc, rfl⟩
        exact ⟨n, (hname n).2 ⟨c, hc⟩, hlisted n c hc⟩

theorem Holds.length_le (hholds : d.Holds B T) : T.entries.length ≤ d.nodes.length := by
  have hlen := hholds.length_eq
  rw [List.length_map, List.length_map] at hlen
  exact hlen ▸ List.length_filterMap_le _ _

theorem Holds.effort (hholds : d.Holds B T) (roots : Nat) :
    roots * (7 * T.entries.length) + 2 < d.effort roots 0 := by
  have hpow : d.nodes.length + 2 ≤ Nat.pow (d.nodes.length + 2) (pathLimit / 2 + 2) :=
    Nat.le_self_pow (Nat.succ_ne_zero _) _
  have hone : 7 * T.entries.length ≤ 8 * Nat.pow (d.nodes.length + 2) (pathLimit / 2 + 2) := by
    have hlen := hholds.length_le
    omega
  have hroots := Nat.mul_le_mul_left roots hone
  rw [Nat.mul_left_comm roots 8 (Nat.pow _ _)] at hroots
  rw [Disk.effort]
  omega

end Disk

end TreeTally
