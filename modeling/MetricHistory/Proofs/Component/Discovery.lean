import MetricHistory.Proofs.Component.Distance
import MetricHistory.Proofs.Component.Partition
import Mathlib.Data.List.FinRange

/-!
# The order in which components are found

Components are found one after the other, each from the first listed revision that belongs to none
of those before.  This revision, the seed, is the first member, all other members have later first
points, and the components come in the order of their seeds.

* `Partition.SeededBy`: components that begin at their seeds, in the order of these; kept by each
  place (`SeededBy.skip`, `SeededBy.concat`) and so by all of them (`Progress.seededBy`).
* `Partition.firstPoint_item_lt`: places are in the order of first points.
* `Partition.Numbered.id_of_getElem?_filter`: ids count the components of each bucket.
* `Partition.components_discovery`: the order and the ids of the components of any points under any
  edges.
-/

namespace MetricHistory.Partition

/-! ### Seeds -/

section Seeds

variable {revisions : Roster String} {buckets : Vector String revisions.size}
  {adjacent : Adjacency revisions.size}

/-- The first member of the component is the revision at `seed`, and the others have later
places. -/
def BeginsAt (revisions : Roster String) (seed : Fin revisions.size) (c : Component) : Prop :=
  ∃ rest, c.members = revisions.item seed :: rest ∧
    ∀ i : Fin revisions.size, revisions.item i ∈ rest → seed < i

theorem BeginsAt.head? {seed : Fin revisions.size} {c : Component}
    (hc : BeginsAt revisions seed c) : c.members.head? = some (revisions.item seed) := by
  obtain ⟨rest, hmembers, -⟩ := hc
  rw [hmembers, List.head?_cons]

/-- A component begins at its seed if all earlier places were reached before it was found. -/
theorem beginsAt_of_classFrom {reached : Vector Bool revisions.size} {seed : Fin revisions.size}
    (hseed : reached.get seed = false) (hearlier : ∀ i < seed, reached.get i = true) {c : Component}
    (hmembers : c.members = (adjacent.classFrom reached seed).fresh.toList.map revisions.item) :
    BeginsAt revisions seed c := by
  have hsearch := adjacent.search_classFrom hseed
  have hnodup := hsearch.nodup
  have houtside := hsearch.outside
  obtain ⟨rest, hrest⟩ := adjacent.exists_classFrom_eq_cons reached seed
  rw [hrest, List.append_nil] at hnodup houtside
  refine ⟨rest.map revisions.item, by rw [hmembers, hrest, List.map_cons], ?_⟩
  intro i hi
  rw [List.mem_map_of_injective revisions.item_injective] at hi
  have hne : seed ≠ i := fun h => (List.nodup_cons.mp hnodup).1 (h ▸ hi)
  have hle : seed ≤ i := by
    by_contra hlt
    exact houtside i (List.mem_cons_of_mem seed hi) (hearlier i (not_le.mp hlt))
  exact lt_of_le_of_ne hle hne

/-- In a list of all places what comes before a place are the smaller ones. -/
theorem mem_earlier_of_lt {n : Nat} {places : List (Fin n)} {i j : Fin n}
    (hplaces : places ++ [j] <+: List.finRange n) (hij : i < j) : i ∈ places := by
  obtain ⟨later, hlater⟩ := hplaces
  have hsorted := List.pairwise_lt_finRange n
  have hmem := List.mem_finRange i
  rw [← hlater, List.append_assoc] at hsorted hmem
  rcases List.mem_append.mp hmem with hmem | hmem
  · exact hmem
  · rcases List.mem_cons.mp hmem with rfl | hmem
    · exact absurd hij (lt_irrefl i)
    · have hcons := (List.pairwise_append.mp hsorted).2.1
      exact absurd hij (lt_asymm (List.rel_of_pairwise_cons hcons hmem))

/-- Each component begins at its seed, and the seeds are some of `places`, in their order. -/
structure SeededBy (revisions : Roster String) (places : List (Fin revisions.size))
    (components : List Component) : Prop where
  beginsAt : ∀ c ∈ components, ∃ seed, BeginsAt revisions seed c
  heads : ∃ seeds, List.Sublist seeds places ∧
    components.map (·.members.head?) = seeds.map fun i => some (revisions.item i)

theorem SeededBy.nil : SeededBy revisions [] [] where
  beginsAt := by simp
  heads := ⟨[], List.Sublist.refl [], rfl⟩

variable {places : List (Fin revisions.size)} {components : List Component}

/-- A place that gives no component was looked at. -/
theorem SeededBy.skip (hs : SeededBy revisions places components) (place : Fin revisions.size) :
    SeededBy revisions (places ++ [place]) components where
  beginsAt := hs.beginsAt
  heads := by
    obtain ⟨seeds, hsub, hheads⟩ := hs.heads
    exact ⟨seeds, hsub.trans (List.sublist_append_left places [place]), hheads⟩

/-- A component was found at its seed. -/
theorem SeededBy.concat (hs : SeededBy revisions places components) {seed : Fin revisions.size}
    {c : Component} (hc : BeginsAt revisions seed c) :
    SeededBy revisions (places ++ [seed]) (components ++ [c]) where
  beginsAt := List.forall_mem_append.mpr ⟨hs.beginsAt, List.forall_mem_singleton.mpr ⟨seed, hc⟩⟩
  heads := by
    obtain ⟨seeds, hsub, hheads⟩ := hs.heads
    refine ⟨seeds ++ [seed], hsub.append (List.Sublist.refl [seed]), ?_⟩
    rw [List.map_append, List.map_append, hheads, List.map_singleton, List.map_singleton, hc.head?]

/-- The components are found in the order of their seeds. -/
theorem Progress.seededBy (adjacent : Adjacency revisions.size)
    (hplaces : places <+: List.finRange revisions.size) :
    SeededBy revisions places
      (places.foldl (Progress.add revisions.item buckets adjacent)
        (start revisions.size)).components.toList := by
  induction places using List.reverseRecOn with
  | nil => exact SeededBy.nil
  | append_singleton places seed ih =>
    have hs := ih ((List.prefix_append places [seed]).trans hplaces)
    -- the places before the seed were looked at, so they are reached
    have hearlier : ∀ i < seed, (places.foldl (Progress.add revisions.item buckets adjacent)
        (start revisions.size)).reached.get i = true := fun i hi =>
      reached_foldl_add _ places (Or.inl (mem_earlier_of_lt hplaces hi))
    rw [List.foldl_concat]
    generalize places.foldl (Progress.add revisions.item buckets adjacent) _ = p
      at hs hearlier ⊢
    obtain ⟨reached, components, counts⟩ := p
    unfold Progress.add
    by_cases hseed : reached.get seed = true
    · simp only [if_pos hseed]
      exact hs.skip seed
    · simp only [if_neg hseed, Array.toList_push]
      rw [Bool.not_eq_true] at hseed
      exact hs.concat (beginsAt_of_classFrom hseed hearlier rfl)

end Seeds

/-! ### First points -/

/-- The position of the first point of a revision. -/
def firstPoint (points : List Point) (rev : String) : Nat :=
  points.findIdx (·.revId = rev)

/-- Places are in the order of first points. -/
theorem firstPoint_item_lt {points : List Point} {i j : Fin (measuredRevisions points).size}
    (hij : i < j) :
    firstPoint points ((measuredRevisions points).item i) <
      firstPoint points ((measuredRevisions points).item j) := by
  have hpairwise := pairwise_findIdx_appendNew (fun p : Point => some p.revId) points
  rw [List.filterMap_eq_map', ← Roster.toList_ofList, Roster.toList_eq_map_item,
    List.pairwise_map] at hpairwise
  have hfound := List.pairwise_iff_getElem.mp hpairwise i j
    (by rw [List.length_finRange]; exact i.isLt) (by rw [List.length_finRange]; exact j.isLt) hij
  simp only [List.getElem_finRange, Option.some.injEq] at hfound
  exact hfound

/-! ### Ids -/

/-- What is kept at a position was counted up to there. -/
theorem exists_getElem_of_filter {α : Type} {keep : α → Bool} {l : List α} {n : Nat} {a : α}
    (h : (l.filter keep)[n]? = some a) :
    ∃ (k : Nat) (hk : k < l.length), l[k] = a ∧ (l.take k).countP keep = n := by
  induction l generalizing n with
  | nil => simp at h
  | cons b l ih =>
    by_cases hb : keep b = true
    · rw [List.filter_cons_of_pos hb] at h
      cases n with
      | zero => exact ⟨0, by simp, by simpa using h, rfl⟩
      | succ n =>
        obtain ⟨k, hk, ha, hcount⟩ := ih h
        refine ⟨k + 1, Nat.succ_lt_succ hk, ha, ?_⟩
        rw [List.take_succ_cons, List.countP_cons_of_pos hb, hcount]
    · rw [List.filter_cons_of_neg hb] at h
      obtain ⟨k, hk, ha, hcount⟩ := ih h
      refine ⟨k + 1, Nat.succ_lt_succ hk, ha, ?_⟩
      rw [List.take_succ_cons, List.countP_cons_of_neg hb, hcount]

/-- The components of a bucket are numbered from 1 in their order. -/
theorem Numbered.id_of_getElem?_filter {components : List Component} (hn : Numbered components)
    {bucket : String} {n : Nat} {c : Component}
    (hc : (components.filter (·.bucket = bucket))[n]? = some c) :
    c.id = componentId bucket (n + 1) := by
  have hbucket := List.of_mem_filter (List.mem_of_getElem? hc)
  rw [decide_eq_true_eq] at hbucket
  obtain ⟨k, hk, rfl, hcount⟩ := exists_getElem_of_filter hc
  rw [hn k hk, hbucket, hcount]

/-! ### Discovery -/

/-- **Discovery**: the first member of a component is the one with the earliest first point, the
components are listed in the order of these points, and those of each bucket are numbered from 1 in
the order of the list.  No two components share an id. -/
theorem components_discovery (size : BucketSize) (points : List Point)
    (edges : List MinimalEdge) :
    let components := (ofPoints size points edges).components.toList
    (∀ c ∈ components, ∃ first rest, c.members = first :: rest ∧
      ∀ rev ∈ rest, firstPoint points first < firstPoint points rev) ∧
    (components.Pairwise fun c d => ∀ first ∈ c.members.head?, ∀ first' ∈ d.members.head?,
      firstPoint points first < firstPoint points first') ∧
    (∀ (bucket : String) (n : Nat) (c : Component),
      (components.filter (·.bucket = bucket))[n]? = some c →
        c.id = bucket ++ ":" ++ toString (n + 1)) ∧
    (components.map (·.id)).Nodup := by
  intro components
  have hseeded : SeededBy (measuredRevisions points) (List.finRange _) components := by
    show SeededBy _ _ (ofPoints size points edges).components.toList
    rw [components_ofPoints]
    exact Progress.seededBy (adjacency size points edges) List.prefix_rfl
  obtain ⟨hbegins, seeds, hsub, hheads⟩ := hseeded
  refine ⟨?_, ?_, ?_, nodup_id_ofPoints size points edges⟩
  · intro c hc
    obtain ⟨seed, rest, hmembers, hrest⟩ := hbegins c hc
    refine ⟨(measuredRevisions points).item seed, rest, hmembers, ?_⟩
    intro rev hrev
    obtain ⟨i, rfl⟩ := exists_item_of_mem hc (hmembers ▸ List.mem_cons_of_mem _ hrev)
    exact firstPoint_item_lt (hrest i hrev)
  · have hsorted : (seeds.map fun i => some ((measuredRevisions points).item i)).Pairwise
        fun a b => ∀ first ∈ a, ∀ first' ∈ b,
          firstPoint points first < firstPoint points first' := by
      rw [List.pairwise_map]
      refine ((List.pairwise_lt_finRange _).sublist hsub).imp ?_
      intro i j hij first hfirst first' hfirst'
      cases hfirst
      cases hfirst'
      exact firstPoint_item_lt hij
    rwa [← hheads, List.pairwise_map] at hsorted
  · intro bucket n c hc
    exact (numbered_ofPoints size points edges).id_of_getElem?_filter hc

end MetricHistory.Partition
