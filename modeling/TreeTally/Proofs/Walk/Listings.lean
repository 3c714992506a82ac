import TreeTally.Proofs.Path.Parts
import TreeTally.Proofs.Walk.Roots

namespace TreeTally

def Event.list? : Event → Option Path
  | list p => some p
  | _ => none

def listsIn (l : List Signal) : List Path := (eventsOf l).filterMap Event.list?

theorem listsIn_append (l l' : List Signal) : listsIn (l ++ l') = listsIn l ++ listsIn l' := by
  rw [listsIn, eventsOf_append, List.filterMap_append]
  rfl

mutual

def Sight.lists : Sight → Path → List Path
  | .foreign, _ | .leaf _, _ => []
  | .barred _, p => [p]
  | .folder inside, p => p :: inside.lists p

def Sights.lists : Sights → Path → List Path
  | .nil, _ => []
  | .bad _ rest, p => rest.lists p
  | .entry n sight rest, p => sight.lists (p.join n) ++ rest.lists p

end

mutual

/-- Those of them that are listed. -/
def Sight.opens : Sight → Path → List Path
  | .foreign, _ | .leaf _, _ | .barred _, _ => []
  | .folder inside, p => p :: inside.opens p

def Sights.opens : Sights → Path → List Path
  | .nil, _ => []
  | .bad _ rest, p => rest.opens p
  | .entry n sight rest, p => sight.opens (p.join n) ++ rest.opens p

end

namespace Sights

def names : Sights → List (List Char)
  | .nil => []
  | .bad _ rest => rest.names
  | .entry n _ rest => n :: rest.names

def length : Sights → Nat
  | .nil => 0
  | .bad _ rest | .entry _ _ rest => rest.length + 1

end Sights

mutual

/-- The names in every listing are proper and differ, and there are at most so many. -/
def Sight.Neat (size : Nat) : Sight → Prop
  | .foreign | .leaf _ | .barred _ => True
  | .folder inside => inside.names.Nodup ∧ inside.length ≤ size ∧ inside.Neat size

def Sights.Neat (size : Nat) : Sights → Prop
  | .nil => True
  | .bad _ rest => rest.Neat size
  | .entry n sight rest => Proper n ∧ sight.Neat size ∧ rest.Neat size

end

variable {size : Nat}

mutual

theorem Sight.lists_below : ∀ (s : Sight) {p q : Path}, s.Neat size → q ∈ s.lists p →
    ∃ ns : List (List Char), q.parts = p.parts ++ ns.map .name
  | .foreign, p, q, _, hq | .leaf _, p, q, _, hq => by cases hq
  | .barred _, p, q, _, hq => ⟨[], by rw [List.mem_singleton.1 hq]; exact (List.append_nil _).symm⟩
  | .folder inside, p, q, hs, hq => by
      rcases List.mem_cons.1 hq with rfl | hq
      · exact ⟨[], (List.append_nil _).symm⟩
      · obtain ⟨n, -, ns, h⟩ := inside.lists_below hs.2.2 hq
        exact ⟨n :: ns, h⟩

theorem Sights.lists_below : ∀ (s : Sights) {p q : Path}, s.Neat size → q ∈ s.lists p →
    ∃ n ∈ s.names, ∃ ns : List (List Char), q.parts = p.parts ++ .name n :: ns.map .name
  | .nil, p, q, _, hq => by cases hq
  | .bad _ rest, p, q, hs, hq => rest.lists_below hs hq
  | .entry n sight rest, p, q, hs, hq => by
      obtain ⟨hn, hsight, hrest⟩ := hs
      rcases List.mem_append.1 hq with hq | hq
      · obtain ⟨ns, h⟩ := sight.lists_below hsight hq
        rw [Path.parts_join p hn, List.append_assoc] at h
        exact ⟨n, List.mem_cons_self, ns, h⟩
      · obtain ⟨n', hn', ns, h⟩ := rest.lists_below hrest hq
        exact ⟨n', List.mem_cons_of_mem _ hn', ns, h⟩

end

mutual

theorem Sight.lists_pairwise : ∀ (s : Sight) (p : Path), s.Neat size →
    (s.lists p).Pairwise fun a b => ¬a.Same b
  | .foreign, _, _ | .leaf _, _, _ => .nil
  | .barred _, p, _ => List.pairwise_singleton _ p
  | .folder inside, p, hs => by
      refine List.pairwise_cons.2 ⟨fun q hq hsame => ?_, inside.lists_pairwise p hs.1 hs.2.2⟩
      obtain ⟨n, -, ns, h⟩ := inside.lists_below hs.2.2 hq
      have hlen := congrArg List.length (hsame.trans h)
      simp at hlen

theorem Sights.lists_pairwise : ∀ (s : Sights) (p : Path), s.names.Nodup → s.Neat size →
    (s.lists p).Pairwise fun a b => ¬a.Same b
  | .nil, _, _, _ => .nil
  | .bad _ rest, p, hnames, hs => rest.lists_pairwise p hnames hs
  | .entry n sight rest, p, hnames, hs => by
      obtain ⟨hn, hsight, hrest⟩ := hs
      obtain ⟨hnot, hnames⟩ := List.nodup_cons.1 hnames
      refine List.pairwise_append.2 ⟨sight.lists_pairwise _ hsight,
        rest.lists_pairwise p hnames hrest, fun a ha b hb hsame => hnot ?_⟩
      -- What is asked below two entries differs in the names of the entries.
      obtain ⟨ns, h⟩ := sight.lists_below hsight ha
      obtain ⟨n', hn', ns', h'⟩ := rest.lists_below hrest hb
      rw [Path.parts_join p hn, List.append_assoc] at h
      have htail := List.append_cancel_left (h.symm.trans (hsame.trans h'))
      obtain rfl : n = n' := Part.name.inj (List.cons.inj htail).1
      exact hn'

end

mutual

theorem Sight.opens_sublist : ∀ (s : Sight) (p : Path), (s.opens p).Sublist (s.lists p)
  | .foreign, _ | .leaf _, _ => .slnil
  | .barred _, _ => List.nil_sublist _
  | .folder inside, p => (inside.opens_sublist p).cons_cons p

theorem Sights.opens_sublist : ∀ (s : Sights) (p : Path), (s.opens p).Sublist (s.lists p)
  | .nil, _ => .slnil
  | .bad _ rest, p => rest.opens_sublist p
  | .entry _ sight rest, p => (sight.opens_sublist _).append (rest.opens_sublist p)

end

mutual

theorem Sight.folders_total : ∀ (s : Sight) (p : Path), s.total.folders = (s.opens p).length
  | .foreign, _ | .leaf _, _ | .barred _, _ => rfl
  | .folder inside, p => by
      rw [Sight.total, Tally.folders_add, inside.folders_total p, Sight.opens, List.length_cons,
        Nat.add_comm]

theorem Sights.folders_total : ∀ (s : Sights) (p : Path), s.total.folders = (s.opens p).length
  | .nil, _ => rfl
  | .bad _ rest, p => rest.folders_total p
  | .entry n sight rest, p => by
      rw [Sights.total, Tally.folders_add, sight.folders_total (p.join n), rest.folders_total p,
        Sights.opens, List.length_append]

end

mutual

theorem Sight.listed_of_opens {fs : FileSystem} {follow : Bool} {home : DeviceId} :
    ∀ (s : Sight) {p q : Path} {i : EntryInfo}, s.Shown fs follow home p i → q ∈ s.opens p →
      ∃ entries, fs.list q follow = .ok entries
  | .foreign, p, q, i, _, hq | .leaf _, p, q, i, _, hq | .barred _, p, q, i, _, hq => by cases hq
  | .folder inside, p, q, i, hs, hq => by
      obtain ⟨-, -, entries, hlist, hin⟩ := hs
      rcases List.mem_cons.1 hq with rfl | hq
      · exact ⟨entries, hlist⟩
      · exact inside.listed_of_opens hin hq

theorem Sights.listed_of_opens {fs : FileSystem} {follow : Bool} {home : DeviceId} :
    ∀ (s : Sights) {p q : Path} {entries : List Listed}, s.Shown fs follow home p entries →
      q ∈ s.opens p → ∃ entries, fs.list q follow = .ok entries
  | .nil, p, q, _, _, hq => by cases hq
  | .bad _ rest, p, q, .error f :: entries, hs, hq => rest.listed_of_opens hs.2 hq
  | .entry n sight rest, p, q, .ok c :: entries, hs, hq => by
      obtain ⟨rfl, hsight, hrest⟩ := hs
      rcases List.mem_append.1 hq with hq | hq
      · exact sight.listed_of_opens hsight hq
      · exact rest.listed_of_opens hrest hq

end

mutual

theorem Sight.cost_le : ∀ (s : Sight) (p : Path), s.Neat size →
    s.cost ≤ 3 + (s.opens p).length * (6 * size + 4)
  | .foreign, _, _ | .leaf _, _, _ => by simp [Sight.cost, Sight.opens]
  | .barred _, _, _ => by simp [Sight.cost, Sight.opens]
  | .folder inside, p, hs => by
      obtain ⟨-, hlen, hs⟩ := hs
      have hinside := inside.cost_le p hs
      rw [Sight.cost, Sight.opens, List.length_cons, Nat.succ_mul]
      omega

theorem Sights.cost_le : ∀ (s : Sights) (p : Path), s.Neat size →
    s.cost ≤ 1 + 6 * s.length + (s.opens p).length * (6 * size + 4)
  | .nil, _, _ => by simp [Sights.cost, Sights.opens, Sights.length]
  | .bad _ rest, p, hs => by
      have hrest := rest.cost_le p hs
      rw [Sights.cost, Sights.opens, Sights.length]
      omega
  | .entry n sight rest, p, hs => by
      have hsight := sight.cost_le (p.join n) hs.2.1
      have hrest := rest.cost_le p hs.2.2
      rw [Sights.cost, Sights.opens, Sights.length, List.length_append, Nat.add_mul]
      omega

end

/-- The course looks at no root and asks for these listings, or for the first of them if the clock
overruns on the way. -/
structure Course.Asks (c : Course) (l : List Path) : Prop where
  no_stat : ∀ p, .stat p ∉ eventsOf c.signals
  lists : listsIn c.signals <+: l
  all : c.pace ≠ none → listsIn c.signals = l

namespace Course

variable {c : Course} {l l' : List Path}

theorem Asks.after {signals : List Signal} (h : c.Asks l)
    (hs : ∀ p, .stat p ∉ eventsOf signals) : (c.after signals).Asks (listsIn signals ++ l) := by
  refine ⟨fun p hp => ?_, ?_, fun hpace => ?_⟩
  · rw [Course.after, eventsOf_append] at hp
    rcases List.mem_append.1 hp with hp | hp
    · exact hs p hp
    · exact h.no_stat p hp
  · rw [Course.after, listsIn_append]
    exact (List.prefix_append_right_inj _).2 h.lists
  · rw [Course.after, listsIn_append, h.all hpace]

theorem Asks.andThen {f : Pace → Course} (h : c.Asks l) (h' : ∀ s, (f s).Asks l') :
    (c.andThen f).Asks (l ++ l') := by
  rw [Course.andThen]
  cases hp : c.pace with
  | none => exact ⟨h.no_stat, h.lists.trans (List.prefix_append _ _), fun hn => absurd hp hn⟩
  | some s =>
      have hall := h.all (by rw [hp]; exact Option.some_ne_none s)
      have hafter := (h' s).after h.no_stat
      rwa [hall] at hafter

end Course

theorem Course.asks_nothing {c : Course}
    (h : ∀ e ∈ eventsOf c.signals, e.list? = none ∧ ∀ p, e ≠ .stat p) : c.Asks [] := by
  have hnone : listsIn c.signals = [] := List.filterMap_eq_nil_iff.2 fun e he => (h e he).1
  exact ⟨fun p hp => (h _ hp).2 p rfl, hnone ▸ List.prefix_rfl, fun _ => hnone⟩

theorem asks_leave (P : Plan) (s : Pace) : (P.leave s).Asks [] := by
  apply Course.asks_nothing
  intro e he
  rw [Plan.leave] at he
  split at he
  · cases he
  · rename_i report throttle _
    cases report with
    | true =>
        obtain rfl := List.mem_singleton.1 he
        exact ⟨rfl, by simp⟩
    | false => cases he

mutual

theorem asks_sight (P : Plan) : ∀ (s : Sight) (p : Path) (pace : Pace),
    (s.course P p pace).Asks (s.lists p)
  | .foreign, _, _ | .leaf _, _, _ => Course.asks_nothing nofun
  | .barred f, p, pace => (asks_leave P _).after fun q hq => by simp [eventsOf] at hq
  | .folder inside, p, pace => by
      have hinside := (asks_sights P inside p { pace with tally := pace.tally.addFolder }).andThen
        (asks_leave P)
      rw [List.append_nil] at hinside
      exact hinside.after fun q hq => by simp at hq

theorem asks_sights (P : Plan) : ∀ (s : Sights) (p : Path) (pace : Pace),
    (s.course P p pace).Asks (s.lists p)
  | .nil, p, pace => by
      refine Course.asks_nothing fun e he => ?_
      obtain rfl := List.mem_singleton.1 he
      exact ⟨rfl, nofun⟩
  | .bad f rest, p, pace =>
      (asks_sights P rest p pace).after fun q hq => by simp [eventsOf] at hq
  | .entry n sight rest, p, pace =>
      ((asks_sight P sight (p.join n) pace).andThen (asks_sights P rest p)).after
        fun q hq => by simp at hq

end

end TreeTally
