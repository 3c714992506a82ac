import TreeTally.Proofs.Walk.Rounds

namespace TreeTally

def namesOf (entries : List Listed) : List (List Char) := entries.filterMap fun
  | .ok c => some c.name
  | .error _ => none

/-- What is listed are the keys at most, and every listing is as short as the keys are many. -/
structure FileSystem.Keyed (fs : FileSystem) (follow : Bool) (keys : List Path) : Prop where
  key : ∀ p entries, fs.list p follow = .ok entries → ∃ k ∈ keys, p.Same k
  proper : ∀ p entries, fs.list p follow = .ok entries → ∀ n ∈ namesOf entries, Proper n
  nodup : ∀ p entries, fs.list p follow = .ok entries → (namesOf entries).Nodup
  length : ∀ p entries, fs.list p follow = .ok entries → entries.length ≤ keys.length

variable {fs : FileSystem} {follow : Bool} {keys : List Path} {home : DeviceId}

theorem exists_inside {p : Path} {size : Nat} (entries : List Listed)
    (hproper : ∀ n ∈ namesOf entries, Proper n)
    (h : ∀ c, .ok c ∈ entries → ∃ s : Sight,
      s.Shown fs follow home (p.join c.name) c.info ∧ s.Neat size) :
    ∃ s : Sights, s.Shown fs follow home p entries ∧ s.Neat size ∧ s.names = namesOf entries ∧
      s.length = entries.length := by
  induction entries with
  | nil => exact ⟨.nil, trivial, trivial, rfl, rfl⟩
  | cons entry entries ih =>
      have hrest (c : Child) (hc : .ok c ∈ entries) := h c (List.mem_cons_of_mem _ hc)
      cases entry with
      | error f =>
          obtain ⟨rest, hshown, hneat, hnames, hlen⟩ := ih hproper hrest
          exact ⟨.bad f rest, ⟨rfl, hshown⟩, hneat, hnames, congrArg (· + 1) hlen⟩
      | ok c =>
          obtain ⟨hc, hproper⟩ := List.forall_mem_cons.1
            (show ∀ n ∈ c.name :: namesOf entries, Proper n from hproper)
          obtain ⟨rest, hshown, hneat, hnames, hlen⟩ := ih hproper hrest
          obtain ⟨sight, hsight, hsneat⟩ := h c List.mem_cons_self
          exact ⟨.entry c.name sight rest, ⟨rfl, hsight, hshown⟩, ⟨hc, hsneat, hneat⟩,
            congrArg (c.name :: ·) hnames, congrArg (· + 1) hlen⟩

def keysBelow (keys : List Path) (p : Path) : List Path :=
  keys.filter fun k => decide (p.parts <+: k.parts)

theorem keysBelow_join {p k : Path} {n : List Char} (hn : Proper n) (hk : k ∈ keys)
    (hp : p.Same k) : (keysBelow keys (p.join n)).length < (keysBelow keys p).length := by
  have hdeeper (q : Path) (hq : (p.join n).parts <+: q.parts) : p.parts <+: q.parts := by
    rw [Path.parts_join p hn] at hq
    exact (List.prefix_append _ _).trans hq
  have hsub : keysBelow keys (p.join n) =
      (keysBelow keys p).filter fun q => decide ((p.join n).parts <+: q.parts) := by
    rw [keysBelow, keysBelow, List.filter_filter]
    exact List.filter_congr fun q _ => by simpa using hdeeper q
  rw [hsub, List.length_filter_lt_length_iff_exists]
  refine ⟨k, List.mem_filter.2 ⟨hk, ?_⟩, ?_⟩
  · exact decide_eq_true (hp ▸ List.prefix_rfl)
  · rw [decide_eq_true_iff, ← show p.parts = k.parts from hp, Path.parts_join p hn]
    intro hle
    have hlen := hle.length_le
    rw [List.length_append] at hlen
    exact Nat.not_succ_le_self _ hlen

theorem FileSystem.Keyed.exists_sight (h : fs.Keyed follow keys) (p : Path) (i : EntryInfo) :
    ∃ s : Sight, s.Shown fs follow home p i ∧ s.Neat keys.length := by
  induction hsize : (keysBelow keys p).length using Nat.strongRecOn generalizing p i with
  | ind size ih =>
      by_cases hd : home = i.device
      · by_cases hk : i.kind = .folder
        · cases hlist : fs.list p follow with
          | error f => exact ⟨.barred f, ⟨hd, hk, hlist⟩, trivial⟩
          | ok entries =>
              have hproper := h.proper p entries hlist
              obtain ⟨k, hkey, hp⟩ := h.key p entries hlist
              obtain ⟨inside, hin, hneat, hnames, hlen⟩ := exists_inside entries hproper
                fun c hc => by
                  have hn : c.name ∈ namesOf entries := List.mem_filterMap.2 ⟨.ok c, hc, rfl⟩
                  have hless := keysBelow_join (hproper _ hn) hkey hp
                  exact ih _ (hsize ▸ hless) (p.join c.name) c.info rfl
              exact ⟨.folder inside, ⟨hd, hk, entries, hlist, hin⟩,
                hnames ▸ h.nodup p entries hlist, hlen ▸ h.length p entries hlist, hneat⟩
        · exact ⟨.leaf i.size, ⟨hd, hk, rfl⟩, trivial⟩
      · exact ⟨.foreign, hd, trivial⟩

/-- What a walk meets from a path on: neat, with nothing but keys that open. -/
structure Sight.Within (keys : List Path) (p : Path) (s : Sight) : Prop where
  neat : s.Neat keys.length
  key : ∀ q ∈ s.opens p, ∃ k ∈ keys, q.Same k

namespace Sight.Within

variable {p : Path} {s : Sight}

theorem length_opens (h : s.Within keys p) : (s.opens p).length ≤ keys.length := by
  have hnodup : ((s.opens p).map Path.parts).Nodup := by
    refine List.pairwise_map.2 (((s.lists_pairwise p h.neat).sublist (s.opens_sublist p)).imp ?_)
    exact fun hne heq => hne heq
  have hsub : (s.opens p).map Path.parts ⊆ keys.map Path.parts := by
    intro v hv
    obtain ⟨q, hq, rfl⟩ := List.mem_map.1 hv
    obtain ⟨k, hk, hsame⟩ := h.key q hq
    exact List.mem_map.2 ⟨k, hk, hsame.symm⟩
  simpa using (List.subperm_of_subset hnodup hsub).length_le

theorem cost_le (h : s.Within keys p) :
    s.cost + 1 ≤ keys.length * (6 * keys.length + 4) + 4 := by
  have hcost := s.cost_le p h.neat
  have hopens := Nat.mul_le_mul_right (6 * keys.length + 4) h.length_opens
  omega

theorem folders_le (h : s.Within keys p) : s.total.folders ≤ keys.length := by
  rw [s.folders_total p]
  exact h.length_opens

end Sight.Within

theorem FileSystem.Keyed.completes {options : Options} (h : fs.Keyed options.follow keys)
    (clock : Nat → Instant) (roots : List Path) : ∃ r,
      (∀ fuel, roots.length * (keys.length * (6 * keys.length + 4) + 4) + 5 < fuel →
        (Plan.ofOptions fs options clock roots).count fuel {} roots = some r) ∧
      (Plan.ofOptions fs options clock roots).Completes (fun p s => s.Within keys p) roots r := by
  have hsights : ∀ r ∈ roots, ∀ i, fs.stat r options.follow = .ok i →
      ∃ s : Sight, s.Shown fs options.follow i.device r i ∧ s.Within keys r := by
    intro r _ i _
    obtain ⟨s, hshown, hneat⟩ := h.exists_sight r i
    refine ⟨s, hshown, hneat, fun q hq => ?_⟩
    obtain ⟨entries, hlist⟩ := s.listed_of_opens hshown hq
    exact h.key q entries hlist
  obtain ⟨l, calls, o, hfinds⟩ := finds_of_sights fs options clock roots hsights
  exact hfinds.completes fun p s hs => hs.cost_le

end TreeTally
