import TreeTally.Proofs.Disk.Outline
import TreeTally.Proofs.Memory.Outline

namespace TreeTally

open Disk (pathLimit)

variable {T : Outline} {d : Disk} {B : Location} {b c : Path} {home : DeviceId}
variable {made : List (List Char × Content)} {roots : List (List Char × Location)}
variable {fs : FileSystem} {options : Options}

/-- A tree that lies on one volume of a disk, below where paths joined to `b` are followed from, and
that was made in memory at paths joined to `c`, comes to the same from the same roots, in whatever
order the disk lists its folders. -/
theorem counts_agree (hd : d.Sound) (hb : d.Grounds b B) (hholds : d.Holds B T)
    (hhome : ∀ e ∈ T.entries, d.deviceOf (B ++ e.1) = home) (hmade : T.MadeBy made)
    (hroots : ∀ r ∈ roots, ∃ x, T.Spells r.1 r.2 x)
    (hshort : ∀ r ∈ roots, ∀ ns x, (r.2 ++ ns, x) ∈ T.entries →
      (ns.foldl Path.join (b.join r.1)).display.utf8ByteSize < pathLimit)
    (hfs : d.fileSystem.Shuffles fs) (hfollow : options.follow = false)
    (clock clock' : Nat → Instant) (device : DeviceId) :
    let onDisk := roots.map fun r => b.join r.1
    let inMemory := roots.map fun r => c.join r.1
    let t := ((roots.map fun r => T.total r.2).sum).capped
    (∃ r, (Plan.ofOptions fs options clock onDisk).count (d.effort roots.length 0) {} onDisk = some r ∧
      (r.ending = .outcome (.ok t) ∨
        r.ending = .clockOverrun ∧ ∃ k, (clock k).add? options.interval = none)) ∧
    ∃ r, (Memory.grown device c made).count [] options clock' {} inMemory = some r ∧
      (r.ending = .outcome (.ok t) ∨
        r.ending = .clockOverrun ∧ ∃ k, (clock' k).add? options.interval = none) := by
  intro onDisk inMemory t
  constructor
  · have hshown := (Disk.shownBy hd hholds hhome).shuffled hfs
    have hat : ∀ r ∈ roots.map fun r => (b.join r.1, r.2),
        d.At B T r.1 r.2 ∧ ∃ x, (r.2, x) ∈ T.entries := by
      intro y hy
      obtain ⟨r, hr, rfl⟩ := List.mem_map.1 hy
      obtain ⟨x, hx⟩ := hroots r hr
      exact ⟨Disk.at_spelled hd hholds hb hx (hshort r hr), x, hx.entry⟩
    have heffort := hholds.effort (roots.map fun r => (b.join r.1, r.2)).length
    have hcomes := hshown.comesTo hfollow clock hat heffort
    rwa [List.map_map, List.map_map, List.length_map] at hcomes
  · have hkeeps := Memory.keeps_grown device c hmade
    have hat : ∀ r ∈ roots.map fun r => (c.join r.1, r.2),
        r.1.parts = c.parts ++ r.2.map .name ∧ ∃ x, (r.2, x) ∈ T.entries := by
      intro y hy
      obtain ⟨r, hr, rfl⟩ := List.mem_map.1 hy
      obtain ⟨x, hx⟩ := hroots r hr
      exact ⟨Memory.parts_spelled hx c, x, hx.entry⟩
    have heffort := (Memory.grown device c made).effort_suffices roots.length 0
    have hlen := Nat.mul_le_mul_left roots.length (Nat.mul_le_mul_left 7 hkeeps.length_le)
    have hcomes := hkeeps.shownBy.comesTo hfollow clock' hat
      (show _ < (Memory.grown device c made).effort roots.length 0 by rw [List.length_map]; omega)
    rw [List.map_map, List.map_map] at hcomes
    rw [Memory.count, FileSystem.amend_nil, List.length_map]
    exact hcomes

deriving instance DecidableEq for Path, Content

instance (T : Outline) (t : List Char) (l : Location) (c : Content) : Decidable (T.Spells t l c) :=
  decidable_of_iff (t.head? ≠ some '/' ∧ (piecesAt '/' t).filter (· ≠ []) = l ∧ (l, c) ∈ T.entries ∧
      (t.getLast? = some '/' → c = .folder))
    ⟨fun ⟨h₁, h₂, h₃, h₄⟩ => ⟨h₁, h₂, h₃, h₄⟩, fun ⟨h₁, h₂, h₃, h₄⟩ => ⟨h₁, h₂, h₃, h₄⟩⟩

def Outline.sample : Outline where
  entries := [([['a']], .folder), ([['a'], ['x']], .file 3), ([['a'], ['l']], .link ⟨['.', '.', '/', 'q']⟩),
    ([['a'], ['d']], .folder), ([['a'], ['d'], ['y']], .file 4)]
  apart := by decide
  proper := by decide
  parent := by decide

def Disk.sample : Disk where
  nodes := [([['w']], .folder 60), ([['w'], ['a']], .folder 100), ([['w'], ['a'], ['d']], .folder 4096),
    ([['w'], ['a'], ['l']], .link ['.', '.', '/', 'q']), ([['w'], ['a'], ['x']], .file 3),
    ([['w'], ['a'], ['d'], ['y']], .file 4), ([['z']], .file 9)]
  current := [['w']]

theorem counts_agree_sample :
    let made : List (List Char × Content) := [(['a', '/', 'd', '/', 'y'], .file 4),
      (['a', '/', 'l'], .link ⟨['.', '.', '/', 'q']⟩), (['a', '/', '/', 'x'], .file 3)]
    let fs := Disk.sample.fileSystem.reversed
    let roots : List (List Char × Location) := [(['a', '/'], [['a']]), (['a', '/', 'l'], [['a'], ['l']])]
    let onDisk : List Path := [⟨['a', '/']⟩, ⟨['a', '/', 'l']⟩]
    let inMemory : List Path := [⟨['/', 'm', '/', 'a', '/']⟩, ⟨['/', 'm', '/', 'a', '/', 'l']⟩]
    Disk.sample.Sound ∧ Disk.sample.Grounds ⟨[]⟩ [['w']] ∧ Disk.sample.Holds [['w']] .sample ∧
      Outline.sample.MadeBy made ∧ (∀ r ∈ roots, ∃ x, Outline.sample.Spells r.1 r.2 x) ∧
      Disk.sample.fileSystem.Shuffles fs ∧
      (∃ r, (Plan.ofOptions fs {} (fun _ => ⟨0⟩) onDisk).count (Disk.sample.effort 2 0) {} onDisk =
        some r ∧ r.ending = .outcome (.ok ⟨15, 4, 2, 0⟩)) ∧
      ∃ r, (Memory.grown ⟨""⟩ ⟨['/', 'm']⟩ made).count [] {} (fun _ => ⟨0⟩) {} inMemory = some r ∧
        r.ending = .outcome (.ok ⟨15, 4, 2, 0⟩) := by
  intro made fs roots onDisk inMemory
  have hsound : Disk.sample.Sound := by decide +kernel
  have hground : Disk.sample.Grounds ⟨[]⟩ [['w']] := .inl ⟨rfl, rfl⟩
  have hholds : Disk.sample.Holds [['w']] .sample := by
    unfold Disk.Holds
    decide +kernel
  have hspells : ∀ x ∈ made,
      Outline.sample.Spells x.1 ((piecesAt '/' x.1).filter (· ≠ [])) x.2 := by decide +kernel
  have hmade : Outline.sample.MadeBy made := by
    refine ⟨fun x hx => ⟨_, hspells x hx⟩, fun e he => ?_⟩
    have hall : ∀ e ∈ Outline.sample.entries,
        ∃ x ∈ made, e.1 <+: (piecesAt '/' x.1).filter (· ≠ []) := by decide +kernel
    obtain ⟨x, hx, hle⟩ := hall e he
    exact ⟨x, hx, _, hspells x hx, hle⟩
  have hroots : ∀ r ∈ roots, ∃ x, Outline.sample.Spells r.1 r.2 x := by
    have hall : ∀ r ∈ roots, ∃ e ∈ Outline.sample.entries, Outline.sample.Spells r.1 r.2 e.2 := by
      decide +kernel
    intro r hr
    obtain ⟨e, -, he⟩ := hall r hr
    exact ⟨e.2, he⟩
  have hshort : ∀ r ∈ roots, ∀ ns x, (r.2 ++ ns, x) ∈ Outline.sample.entries →
      (ns.foldl Path.join (Path.join ⟨[]⟩ r.1)).display.utf8ByteSize < pathLimit := by
    have hall : ∀ r ∈ roots, ∀ e ∈ Outline.sample.entries,
        ((e.1.drop r.2.length).foldl Path.join (Path.join ⟨[]⟩ r.1)).display.utf8ByteSize <
          pathLimit := by decide +kernel
    intro r hr ns x hx
    have hbytes := hall r hr _ hx
    rwa [List.drop_left] at hbytes
  have hhome : ∀ e ∈ Outline.sample.entries, Disk.sample.deviceOf ([['w']] ++ e.1) = ⟨""⟩ := by
    decide +kernel
  have hfs := shuffles_reversed Disk.sample.fileSystem
  have hfollow : ({} : Options).follow = false := rfl
  have hclock : Instant.add? ⟨0⟩ ({} : Options).interval ≠ none := by decide
  obtain ⟨⟨r, hr, hend⟩, r', hr', hend'⟩ := counts_agree hsound hground hholds hhome hmade hroots
    hshort hfs hfollow (fun _ => ⟨0⟩) (fun _ => ⟨0⟩) ⟨""⟩
  refine ⟨hsound, hground, hholds, hmade, hroots, hfs, ⟨r, hr, ?_⟩, r', hr', ?_⟩
  · exact hend.resolve_right fun ⟨_, _, hk⟩ => hclock hk
  · exact hend'.resolve_right fun ⟨_, _, hk⟩ => hclock hk

end TreeTally
