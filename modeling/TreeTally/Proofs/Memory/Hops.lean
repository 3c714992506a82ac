import TreeTally.Proofs.Memory.Marks

namespace TreeTally.Memory

open TreeTally.Path

/-- The first path is a link to the second, which is present. -/
structure Hop (m : Memory) (p q : Path) : Prop where
  link : ∃ n, m.nodes.find? p = some n ∧ n.content = .link q
  present : m.nodes.contains q = true

/-- So many hops lead from the first path to the second. -/
inductive Hops (m : Memory) : Nat → Path → Path → Prop
  | here (p : Path) : Hops m 0 p p
  | hop {k : Nat} {p q r : Path} (h : m.Hop p q) (hr : Hops m k q r) : Hops m (k + 1) p r

/-- The chain of links comes to its end after so many hops. The end may be a link that dangles. -/
structure Ends (m : Memory) (k : Nat) (p q : Path) : Prop where
  hops : m.Hops k p q
  stops : ∀ r, ¬m.Hop q r

variable {m : Memory} {p q r origin : Path} {k steps : Nat}

theorem Hop.unique (h : m.Hop p q) (h' : m.Hop p r) : q = r := by
  obtain ⟨n, hn, hq⟩ := h.link
  obtain ⟨n', hn', hr⟩ := h'.link
  obtain rfl : n = n' := Option.some.inj (hn.symm.trans hn')
  exact Content.link.inj (hq.symm.trans hr)

theorem Hop.congr (h : p.Same q) : m.Hop p r ↔ m.Hop q r := by
  constructor <;> rintro ⟨⟨n, hn, hr⟩, hpresent⟩
  · exact ⟨⟨n, m.nodes.find?_congr h ▸ hn, hr⟩, hpresent⟩
  · exact ⟨⟨n, (m.nodes.find?_congr h).trans hn, hr⟩, hpresent⟩

theorem Hop.chase (h : m.Hop p q) : m.chase origin (steps + 1) p = m.chase origin steps q := by
  obtain ⟨⟨⟨content, readable, queryable⟩, hn, hq⟩, hpresent⟩ := h
  obtain rfl : content = .link q := hq
  rw [Memory.chase, look, hn]
  simp [bind, Except.bind, hpresent]

theorem chase_stops (hp : m.nodes.contains p = true) (h : ∀ r, ¬m.Hop p r) :
    m.chase origin (steps + 1) p = .ok p := by
  obtain ⟨⟨content, readable, queryable⟩, hn⟩ := Option.isSome_iff_exists.1 hp
  rw [chase, look, hn]
  cases content with
  | link target =>
      have habsent : ¬m.nodes.contains target = true := fun ht => h target ⟨⟨_, hn, rfl⟩, ht⟩
      simp [bind, Except.bind, habsent, pure, Except.pure]
  | _ => rfl

theorem Hops.present (h : m.Hops k p q) (hp : m.nodes.contains p = true) :
    m.nodes.contains q = true := by
  induction h with
  | here => exact hp
  | hop h _ ih => exact ih h.present

theorem Ends.rest {i : Nat} (h : m.Ends k p q) (hr : m.Hops i p r) :
    ∃ k', k = i + k' ∧ m.Ends k' r q := by
  induction hr generalizing k with
  | here => exact ⟨k, (Nat.zero_add k).symm, h⟩
  | hop hop _ ih =>
      obtain ⟨hops, hstops⟩ := h
      cases hops with
      | here => exact absurd hop (hstops _)
      | hop hop' hrest =>
          obtain rfl := hop.unique hop'
          obtain ⟨k', hk, hends⟩ := ih ⟨hrest, hstops⟩
          exact ⟨k', by omega, hends⟩

theorem Ends.unique {k' : Nat} {q' : Path} (h : m.Ends k p q) (h' : m.Ends k' p q') :
    k = k' ∧ q = q' := by
  obtain ⟨i, hi, hends⟩ := h.rest h'.hops
  obtain ⟨i', hi', -⟩ := h'.rest h.hops
  obtain rfl : i = 0 := by omega
  cases hends.hops
  exact ⟨hi, rfl⟩

theorem Ends.respelled (h : m.Ends k p q) (hs : p.Same r) : ∃ q', m.Ends k r q' := by
  obtain ⟨hops, hstops⟩ := h
  cases hops with
  | here => exact ⟨r, .here r, fun x hx => hstops x ((Hop.congr hs).2 hx)⟩
  | hop h hrest => exact ⟨q, .hop ((Hop.congr hs).1 h) hrest, hstops⟩

theorem not_ends_of_cycle {i j : Nat} {r' : Path} (hr : m.Hops i p r) (hr' : m.Hops (j + 1) r r')
    (hs : r'.Same r) : ¬m.Ends k p q := by
  intro h
  obtain ⟨k', -, hends⟩ := h.rest hr
  obtain ⟨k'', hk'', hends''⟩ := hends.rest hr'
  obtain ⟨q', hagain⟩ := hends''.respelled hs
  have := (hends.unique hagain).1
  omega

theorem chase_cases (origin : Path) (steps : Nat) (hp : m.nodes.contains p = true) :
    (∃ k < steps, ∃ q, m.Ends k p q ∧ m.chase origin steps p = .ok q) ∨
      (∀ k q, m.Ends k p q → steps ≤ k) ∧ m.chase origin steps p = .error (.linkLoop origin) := by
  induction steps generalizing p with
  | zero => exact .inr ⟨fun k _ _ => Nat.zero_le k, rfl⟩
  | succ steps ih =>
      by_cases hstops : ∀ r, ¬m.Hop p r
      · exact .inl ⟨0, Nat.succ_pos steps, p, ⟨.here p, hstops⟩, chase_stops hp hstops⟩
      · obtain ⟨q, hop⟩ := not_forall_not.1 hstops
        rw [hop.chase]
        rcases ih hop.present with ⟨k, hk, r, hends, hchase⟩ | ⟨hlong, hchase⟩
        · exact .inl ⟨k + 1, Nat.succ_lt_succ hk, r, ⟨.hop hop hends.hops, hends.stops⟩, hchase⟩
        · refine .inr ⟨fun k r hends => ?_, hchase⟩
          obtain ⟨k', rfl, hrest⟩ := hends.rest (.hop hop (.here q))
          have := hlong k' r hrest
          omega

/-- The device of the deepest mount at or above a path, or the device of the whole tree. -/
inductive LiesOn (m : Memory) (p : Path) : DeviceId → Prop
  | mounted {a : Path} {d : DeviceId} (ha : a ∈ m.mounts.keys) (habove : a.AtOrAbove p)
      (hdeepest : ∀ b ∈ m.mounts.keys, b.AtOrAbove p → b.AtOrAbove a)
      (hd : m.mounts.find? a = some d) : LiesOn m p d
  | bare (h : ∀ a ∈ m.mounts.keys, ¬a.AtOrAbove p) : LiesOn m p m.device

theorem liesOn_deviceOf (m : Memory) (p : Path) : m.LiesOn p (m.deviceOf p) := by
  rw [deviceOf]
  cases hfound : p.ancestors.findSome? m.mounts.find? with
  | none =>
      refine .bare ?_
      rintro a ha ⟨b, hb, hs⟩
      have hnone := List.findSome?_eq_none_iff.1 hfound b hb
      have hcontains := m.mounts.contains_iff.2 ⟨a, ha, hs⟩
      rw [Map.contains, hnone] at hcontains
      cases hcontains
  | some d =>
      obtain ⟨before, b, after, hsplit, hd, hbefore⟩ := List.findSome?_eq_some_iff.1 hfound
      have hcontains : m.mounts.contains b = true := by rw [Map.contains, hd]; rfl
      obtain ⟨a, ha, hs⟩ := m.mounts.contains_iff.1 hcontains
      have hb : b ∈ p.ancestors := by rw [hsplit]; simp
      refine .mounted ha ⟨b, hb, hs⟩ (fun c hc habove => ?_) (m.mounts.find?_congr hs ▸ hd)
      obtain ⟨b', hb', hs'⟩ := habove
      rw [AtOrAbove.congr hs'.symm]
      -- The search goes upwards, so a mount that it has not met before lies no deeper.
      have hafter : b' ∉ before := fun hmem => by
        have hmount := m.mounts.contains_iff.2 ⟨c, hc, hs'⟩
        rw [Map.contains, hbefore b' hmem] at hmount
        cases hmount
      have hbelow : b'.AtOrAbove b := by
        have hpair := pairwise_ancestors p
        rw [hsplit] at hb' hpair
        rcases List.mem_cons.1 ((List.mem_append.1 hb').resolve_left hafter) with rfl | hmem
        · exact .refl b'
        · have hless := (List.pairwise_cons.1 (List.pairwise_append.1 hpair).2.1).1 b' hmem
          refine (AtOrAbove.total (p := p) ⟨b', hsplit ▸ hb', rfl⟩ ⟨b, hb, rfl⟩).resolve_right fun h => ?_
          obtain ⟨w, -, he⟩ := atOrAbove_iff.1 h
          rw [he, List.length_append] at hless
          omega
      exact hbelow.trans (.of_same hs)

def listingAt (m : Memory) (p q : Path) (n : Node) : Except Fault (List Listed) :=
  if n.content.kind ≠ .folder then .error (.notDirectory p)
  else if n.readable then .ok ((m.childKeys q).map (m.listed true)) else .error (.denied p)

theorem resolve_ends (hp : m.nodes.contains p = true) (hk : k < linkLimit) (h : m.Ends k p q) :
    m.resolve p true = .ok q := by
  rcases chase_cases p linkLimit hp with ⟨k', -, r, hends, hchase⟩ | ⟨hlong, -⟩
  · obtain ⟨-, rfl⟩ := h.unique hends
    exact hchase
  · exact absurd (hlong k q h) (Nat.not_le.2 hk)

theorem resolve_endless (hp : m.nodes.contains p = true) (h : ∀ k q, m.Ends k p q → linkLimit ≤ k) :
    m.resolve p true = .error (.linkLoop p) := by
  rcases chase_cases p linkLimit hp with ⟨k, hk, q, hends, -⟩ | ⟨-, hchase⟩
  · exact absurd (h k q hends) (Nat.not_le.2 hk)
  · exact hchase

theorem stat_eq (m : Memory) (p : Path) (follow : Bool) : m.stat p follow = (m.look p).bind fun n =>
    if n.queryable then (m.resolve p follow).bind fun q => (m.look q).map (m.infoOf q)
    else .error (.unqueryable p) := by
  rw [stat]
  cases m.look p with
  | error f => rfl
  | ok n =>
      cases hquery : n.queryable with
      | false => simp [bind, Except.bind, hquery, throw, throwThe, MonadExceptOf.throw]
      | true =>
          cases m.resolve p follow with
          | error f => simp [bind, Except.bind, hquery]
          | ok q => cases hq : m.look q <;>
              simp [bind, Except.bind, hquery, pure, Except.pure, hq, Except.map, infoOf]

theorem stat_of_found {n : Node} (hn : m.nodes.find? p = some n) (follow : Bool) :
    m.stat p follow = if n.queryable then
      (m.resolve p follow).bind fun q => (m.look q).map (m.infoOf q)
    else .error (.unqueryable p) := by
  rw [stat_eq, look_ok.2 hn]
  rfl

theorem stat_error {follow : Bool} {f : Fault} (hp : m.nodes.contains p = true) (h : m.stat p follow = .error f) :
    f = .unqueryable p ∨ f = .linkLoop p := by
  obtain ⟨n, hn⟩ := Option.isSome_iff_exists.1 hp
  rw [stat_of_found hn] at h
  split at h
  · -- What a path leads to is there, so only getting there can fail.
    have hlook (q : Path) (hq : m.nodes.contains q = true) : ∃ n', m.look q = .ok n' := by
      obtain ⟨n', hn'⟩ := Option.isSome_iff_exists.1 hq
      exact ⟨n', look_ok.2 hn'⟩
    cases follow with
    | false =>
        obtain ⟨n', hn'⟩ := hlook p hp
        rw [resolve, if_neg Bool.false_ne_true, Except.bind, hn'] at h
        cases h
    | true =>
        rw [resolve, if_pos rfl] at h
        rcases chase_cases p linkLimit hp with ⟨k, -, q, hends, hchase⟩ | ⟨-, hchase⟩
        · obtain ⟨n', hn'⟩ := hlook q (hends.hops.present hp)
          rw [hchase, Except.bind, hn'] at h
          cases h
        · rw [hchase] at h
          exact .inr (Except.error.inj h).symm
  · exact .inl (Except.error.inj h).symm

theorem stat_markBroken (hq : m.nodes.contains q = true) (hne : ¬p.Same q) (follow : Bool) :
    (m.markBroken q).stat p follow = m.stat p follow := by
  have hmarked : Marked m (m.markBroken q) := marked_build (c := .broken q) hq
  have hlook : (m.markBroken q).look p = m.look p := by
    rw [look, look, markBroken, if_pos hq, Map.find?_modify, if_neg hne]
  have hinfo (r : Path) : ((m.markBroken q).look r).map ((m.markBroken q).infoOf r) =
      (m.look r).map (m.infoOf r) := by
    cases hn' : (m.markBroken q).nodes.find? r with
    | none =>
        have hn : m.nodes.find? r = none := by
          rw [← Option.not_isSome_iff_eq_none]
          exact fun hsome => by simpa [Map.contains, hn'] using (hmarked.contains r).trans hsome
        rw [look, look, hn, hn']
        rfl
    | some n' =>
        obtain ⟨n, hn, hd⟩ := hmarked.node r n' hn'
        rw [look_ok.2 hn, look_ok.2 hn']
        simp [Except.map, infoOf, hd.content, hmarked.deviceOf]
  rw [stat_eq, stat_eq, hlook, hmarked.resolve]
  simp only [hinfo]

/-- The answers about a path that is followed come from the end of its chain of links, if that has at
most 39 hops, whatever marks are on the way. A longer chain, and one that comes back to where it has
been, is refused, and so are the metadata of a path that is broken itself. -/
theorem answers_followed (m : Memory) {p : Path} (hp : m.nodes.contains p = true) :
    (∀ k q, k ≤ 39 → m.Ends k p q → ∃ n d, m.nodes.find? q = some n ∧ m.LiesOn q d ∧
      (m.isBroken p = false → m.stat p true = .ok ⟨n.content.kind, n.content.size, d⟩) ∧
      m.list p true = m.listingAt p q n) ∧
    ((∀ k q, m.Ends k p q → 39 < k) →
      (m.isBroken p = false → m.stat p true = .error (.linkLoop p)) ∧
      m.list p true = .error (.linkLoop p)) ∧
    (∀ i j r r', m.Hops i p r → m.Hops (j + 1) r r' → r'.Same r → ∀ k q, ¬m.Ends k p q) ∧
    (m.isBroken p = true → m.stat p true = .error (.unqueryable p)) ∧
    ∀ q, m.nodes.contains q = true → ¬p.Same q → (m.markBroken q).stat p true = m.stat p true := by
  obtain ⟨n, hn⟩ := Option.isSome_iff_exists.1 hp
  have hbroken : m.isBroken p = !n.queryable := by simp [isBroken, hn]
  rw [stat_of_found hn, hbroken]
  refine ⟨fun k q hk hends => ?_, fun hlong => ?_, ?_, fun hq => ?_, ?_⟩
  · have hresolve := resolve_ends hp (Nat.lt_succ_of_le hk) hends
    obtain ⟨n', hn'⟩ := Option.isSome_iff_exists.1 (hends.hops.present hp)
    refine ⟨n', m.deviceOf q, hn', liesOn_deviceOf m q, fun hq => ?_, ?_⟩
    · rw [if_pos (by simpa using hq), hresolve, Except.bind, look_ok.2 hn']
      rfl
    · rw [listingAt]
      split
      · exact list_leaf hresolve hn' ‹_›
      · exact list_of_resolve hresolve hn' (not_not.1 ‹_›)
  · have hresolve := resolve_endless hp hlong
    refine ⟨fun hq => ?_, ?_⟩
    · rw [if_pos (by simpa using hq), hresolve]
      rfl
    · rw [list, hresolve]
      rfl
  · exact fun i j r r' hr hr' hs k q => not_ends_of_cycle hr hr' hs
  · exact if_neg (by simpa using hq)
  · intro q hq hne
    rw [stat_markBroken hq hne, stat_of_found hn]

def looped : Memory :=
  built ⟨"disk"⟩ [.mount ⟨['/', 'm']⟩ ⟨"nfs"⟩, .file ⟨['/', 'm', '/', 'f']⟩ 5,
    .broken ⟨['/', 'm', '/', 'f']⟩, .link ⟨['/', 'b']⟩ ⟨['/', 'm', '/', 'f']⟩,
    .link ⟨['/', 'a']⟩ ⟨['/', 'b', '/']⟩, .link ⟨['/', 'c']⟩ ⟨['/', '.', '/', 'c']⟩]

theorem answers_followed_looped :
    let p : Path := ⟨['/', 'a']⟩
    let q : Path := ⟨['/', 'm', '/', 'f']⟩
    let c : Path := ⟨['/', 'c']⟩
    (looped.nodes.contains p = true ∧ looped.Ends 2 p q ∧ looped.isBroken q = true ∧
      ∃ d, looped.LiesOn q d ∧ looped.stat p true = .ok ⟨.file, 5, d⟩ ∧
        looped.list p true = .error (.notDirectory p)) ∧
    looped.nodes.contains c = true ∧ looped.stat c true = .error (.linkLoop c) := by
  intro p q c
  have hp : looped.nodes.contains p = true := rfl
  have hc : looped.nodes.contains c = true := rfl
  have hends : looped.Ends 2 p q := by
    refine ⟨.hop ⟨⟨_, rfl, rfl⟩, rfl⟩ (.hop ⟨⟨_, rfl, rfl⟩, rfl⟩ (.here q)), fun r h => ?_⟩
    obtain ⟨⟨n, hn, hlink⟩, -⟩ := h
    cases hn
    cases hlink
  have hloop (k : Nat) (r : Path) : ¬looped.Ends k c r :=
    (answers_followed looped hc).2.2.1 0 0 c ⟨['/', '.', '/', 'c']⟩ (.here c)
      (.hop ⟨⟨_, rfl, rfl⟩, rfl⟩ (.here _)) (by decide) k r
  obtain ⟨n, d, hn, hd, hstat, hlist⟩ := (answers_followed looped hp).1 2 q (by decide) hends
  cases hn
  refine ⟨⟨hp, hends, rfl, d, hd, hstat rfl, hlist⟩, hc, ?_⟩
  exact ((answers_followed looped hc).2.1 fun k r h => absurd h (hloop k r)).1 rfl

end TreeTally.Memory
