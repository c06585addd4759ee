import MetricHistory.Proofs.Ancestry.Refinement

/-!
# Minimal edges lead to the nearest measured ancestors

Each point has one block of minimal edges, which lead from distinct nearest measured ancestors of
its revision, and from all of them unless a cycle of unmeasured revisions lies in between.

The ancestors are gathered parent by parent (`History.Gathers`).  A parent that is reached again
while it is being resolved counts for nothing, although it has ancestors; this loses none where
there is no hidden cycle, since all revisions being resolved lead to the present one through
unmeasured revisions (`Collected.gathers`).

* `History.minimalBlocks_spec`: the blocks of all points.
-/

namespace MetricHistory

namespace History

/-! ### Gathering ancestors -/

/-- `found` holds what the parents of `rev` in `looked` count for: nothing twice, nothing that is no
nearest ancestor, and everything unless a hidden cycle is reached. -/
structure Gathers (h : History) (rev : String) (looked found : List String) : Prop where
  nodup : found.Nodup
  sound : ∀ m ∈ found, h.NearestAncestor rev m
  complete : h.NoHiddenCycle rev → ∀ parent ∈ looked, ∀ m, h.CountsFor parent m → m ∈ found

theorem Gathers.nil (h : History) (rev : String) : h.Gathers rev [] [] where
  nodup := List.nodup_nil
  sound := by simp
  complete := by simp

/-- One more parent is looked at, and `new` is what it counts for. -/
theorem Gathers.append {h : History} {rev parent : String} {looked found new : List String}
    (hg : h.Gathers rev looked found) (hparent : parent ∈ h.parentsOf rev)
    (hsound : ∀ m ∈ new, h.CountsFor parent m)
    (hcomplete : h.NoHiddenCycle rev → ∀ m, h.CountsFor parent m → m ∈ new) :
    h.Gathers rev (looked ++ [parent]) (appendNew found new) where
  nodup := nodup_appendNew hg.nodup new
  sound := by
    intro m hm
    rcases mem_appendNew.mp hm with hm | hm
    · exact hg.sound m hm
    · exact nearestAncestor_iff.mpr ⟨parent, hparent, hsound m hm⟩
  complete := by
    intro hc p hp m hcounts
    rw [mem_appendNew]
    rcases List.mem_append.mp hp with hp | hp
    · exact Or.inl (hg.complete hc p hp m hcounts)
    · rw [List.mem_singleton] at hp
      exact Or.inr (hcomplete hc m (hp ▸ hcounts))

/-- What an unmeasured parent gathers is what it counts for. -/
theorem Gathers.countsFor_iff {h : History} {parent m : String} {found : List String}
    (hg : h.Gathers parent (h.parentsOf parent) found) (hm : ¬ h.IsMeasured parent) :
    (m ∈ found → h.CountsFor parent m) ∧
      (h.NoHiddenCycle parent → h.CountsFor parent m → m ∈ found) := by
  rw [CountsFor, if_neg hm]
  constructor
  · exact hg.sound m
  · intro hc ha
    obtain ⟨p, hp, hcounts⟩ := nearestAncestor_iff.mp ha
    exact hg.complete hc p hp m hcounts

end History

/-- Every memo is what its revision gathers. -/
def Notes.Sound (h : History) (s : Notes) : Prop :=
  ∀ rev ancestors, s.memo rev = some ancestors →
    h.Gathers rev (h.parentsOf rev) ancestors

theorem Notes.sound_blank (h : History) : Notes.blank.Sound h := by
  intro rev ancestors hmemo
  cases hmemo

theorem Notes.Sound.closed {h : History} {s : Notes} (hs : s.Sound h) {rev : String}
    {found : List String} (hg : h.Gathers rev (h.parentsOf rev) found) :
    (s.closed rev found).Sound h := by
  intro r ancestors hmemo
  by_cases hr : r = rev
  · subst hr
    rw [Notes.memo_closed, Function.update_self] at hmemo
    exact Option.some.inj hmemo ▸ hg
  · rw [Notes.memo_closed, Function.update_of_ne hr] at hmemo
    exact hs r ancestors hmemo

namespace History

/-- The revisions being resolved are the same before and after. -/
theorem Collected.resolving_eq {h : History} {parents found found' : List String} {s s' : Notes}
    (hc : h.Collected parents found s found' s') : s'.resolving = s.resolving := by
  induction hc with
  | nil => rfl
  | measured _ _ ih => exact ih
  | finished _ _ _ ih => exact ih
  | resolving _ _ _ _ ih => exact ih
  | unvisited _ _ hres _ _ ihown ihrest =>
    rw [ihrest, Notes.resolving_closed, ihown, Notes.resolving_opened, Finset.erase_insert hres]

/-- Collecting from the remaining parents of `rev` gathers from all of them.  What makes the result
complete is that every revision being resolved leads to `rev` through unmeasured revisions: a parent
among them closes a hidden cycle. -/
theorem Collected.gathers {h : History} {parents found found' : List String} {s s' : Notes}
    (hc : h.Collected parents found s found' s') :
    ∀ (rev : String) (looked : List String), looked ++ parents = h.parentsOf rev →
      s.Sound h → (∀ q ∈ s.resolving, Relation.ReflTransGen h.HiddenStep q rev) →
      h.Gathers rev looked found →
      s'.Sound h ∧ h.Gathers rev (h.parentsOf rev) found' := by
  induction hc with
  | nil found s =>
    intro rev looked hlooked hs _ hg
    rw [List.append_nil] at hlooked
    exact ⟨hs, hlooked ▸ hg⟩
  | @measured parent parents found found' s s' hm rest ih =>
    intro rev looked hlooked hs hres hg
    have hparent : parent ∈ h.parentsOf rev := by rw [← hlooked]; simp
    refine ih rev (looked ++ [parent]) (by rw [← hlooked]; simp) hs hres (hg.append hparent ?_ ?_)
    · intro m hmem
      rw [CountsFor, if_pos hm]
      exact List.mem_singleton.mp hmem
    · intro _ m hcounts
      rw [CountsFor, if_pos hm] at hcounts
      exact List.mem_singleton.mpr hcounts
  | @finished parent parents found ancestors found' s s' hm hmemo rest ih =>
    intro rev looked hlooked hs hres hg
    have hparent : parent ∈ h.parentsOf rev := by rw [← hlooked]; simp
    have hstep : h.HiddenStep rev parent := ⟨mem_parentsOf.mp hparent, hm⟩
    have hown := hs parent ancestors hmemo
    exact ih rev (looked ++ [parent]) (by rw [← hlooked]; simp) hs hres
      (hg.append hparent (fun _ => (hown.countsFor_iff hm).1)
        fun hclear _ => (hown.countsFor_iff hm).2 (hclear.step hstep))
  | @resolving parent parents found found' s s' hm hmemo hmem rest ih =>
    intro rev looked hlooked hs hres hg
    have hparent : parent ∈ h.parentsOf rev := by rw [← hlooked]; simp
    have hstep : h.HiddenStep rev parent := ⟨mem_parentsOf.mp hparent, hm⟩
    -- the parent leads to `rev`, and `rev` steps to the parent
    have hcycle : ¬ h.NoHiddenCycle rev := fun hclear =>
      hclear parent (Relation.ReflTransGen.single hstep)
        (Relation.TransGen.tail' (hres parent hmem) hstep)
    have hskip : h.Gathers rev (looked ++ [parent]) (appendNew found []) :=
      hg.append hparent (by simp) fun hclear => absurd hclear hcycle
    exact ih rev (looked ++ [parent]) (by rw [← hlooked]; simp) hs hres hskip
  | @unvisited parent parents found ancestors found' s t s' hm hmemo hmem own rest ihown ihrest =>
    intro rev looked hlooked hs hres hg
    have hparent : parent ∈ h.parentsOf rev := by rw [← hlooked]; simp
    have hstep : h.HiddenStep rev parent := ⟨mem_parentsOf.mp hparent, hm⟩
    have hopened : ∀ q ∈ (s.opened parent).resolving,
        Relation.ReflTransGen h.HiddenStep q parent := by
      intro q hq
      rcases Finset.mem_insert.mp hq with rfl | hq
      · exact Relation.ReflTransGen.refl
      · exact (hres q hq).tail hstep
    obtain ⟨ht, hown⟩ := ihown parent [] rfl hs hopened (Gathers.nil h parent)
    have hclosed : ∀ q ∈ (t.closed parent ancestors).resolving,
        Relation.ReflTransGen h.HiddenStep q rev := by
      intro q hq
      rw [Notes.resolving_closed, own.resolving_eq, Notes.resolving_opened,
        Finset.erase_insert hmem] at hq
      exact hres q hq
    exact ihrest rev (looked ++ [parent]) (by rw [← hlooked]; simp) (ht.closed hown) hclosed
      (hg.append hparent (fun _ => (hown.countsFor_iff hm).1)
        fun hclear _ => (hown.countsFor_iff hm).2 (hclear.step hstep))

/-! ### All points -/

/-- A survey gathers the ancestors of each revision. -/
theorem Surveyed.gathers {h : History} {revs : List String} {lists : List (List String)}
    {s s' : Notes} (hsurvey : h.Surveyed revs s lists s') (hs : s.Sound h)
    (hres : s.resolving = ∅) :
    List.Forall₂ (fun rev ancestors => h.Gathers rev (h.parentsOf rev) ancestors) revs lists := by
  induction hsurvey with
  | nil => exact List.Forall₂.nil
  | finished hmemo _ ih => exact List.Forall₂.cons (hs _ _ hmemo) (ih hs hres)
  | @unvisited rev revs ancestors lists s t s' hmemo own rest ih =>
    have hopened : ∀ q ∈ (s.opened rev).resolving, Relation.ReflTransGen h.HiddenStep q rev := by
      intro q hq
      rw [Notes.resolving_opened, hres, insert_empty_eq, Finset.mem_singleton] at hq
      rw [hq]
    obtain ⟨ht, hown⟩ := own.gathers rev [] rfl hs hopened (Gathers.nil h rev)
    have hclosed : (t.closed rev ancestors).resolving = ∅ := by
      rw [Notes.resolving_closed, own.resolving_eq, Notes.resolving_opened, hres, insert_empty_eq]
      exact Finset.erase_singleton rev
    exact List.Forall₂.cons hown (ih (ht.closed hown) hclosed)

/-- The blocks gather the nearest ancestors of the points, one block for each point. -/
theorem exists_gathers_minimalBlocks (h : History) :
    List.Forall₂ (fun point block => ∃ ancestors,
        block = ancestors.map (fun a => (⟨a, point.revId⟩ : MinimalEdge)) ∧
        h.Gathers point.revId (h.parentsOf point.revId) ancestors)
      h.points h.minimalBlocks := by
  obtain ⟨lists, s, hsurvey, hblocks⟩ := h.exists_surveyed_minimalBlocks
  have hgathers := hsurvey.gathers (Notes.sound_blank h) rfl
  rw [List.forall₂_map_left_iff] at hgathers
  rw [hblocks]
  clear hblocks hsurvey
  generalize h.points = points at hgathers ⊢
  induction hgathers with
  | nil => exact List.Forall₂.nil
  | cons hg _ ih => exact List.Forall₂.cons ⟨_, rfl, hg⟩ ih

/-- The ends of a minimal edge: a point's revision and one of its nearest measured ancestors. -/
theorem nearestAncestor_of_mem_minimalEdges {h : History} {e : MinimalEdge}
    (he : e ∈ h.minimalEdges) : h.IsMeasured e.child ∧ h.NearestAncestor e.child e.parent := by
  obtain ⟨block, hblock, hmem⟩ := List.mem_flatten.mp he
  obtain ⟨i, hi, rfl⟩ := List.mem_iff_getElem.mp hblock
  have hlen := h.exists_gathers_minimalBlocks.length_eq
  obtain ⟨ancestors, heq, hg⟩ := h.exists_gathers_minimalBlocks.get (hlen ▸ hi) hi
  rw [List.get_eq_getElem] at heq
  rw [heq] at hmem
  obtain ⟨a, ha, rfl⟩ := List.mem_map.mp hmem
  exact ⟨⟨_, List.getElem_mem _, rfl⟩, hg.sound a ha⟩

/-- Both ends of a minimal edge are measured. -/
theorem mem_points_of_mem_minimalEdges {h : History} {e : MinimalEdge} (he : e ∈ h.minimalEdges) :
    e.parent ∈ h.points.map (·.revId) ∧ e.child ∈ h.points.map (·.revId) := by
  obtain ⟨hchild, hparent⟩ := nearestAncestor_of_mem_minimalEdges he
  exact ⟨isMeasured_iff_mem.mp hparent.isMeasured, isMeasured_iff_mem.mp hchild⟩

/-- **Minimal edges**: they come in one block for each point, in the order of the points.  All edges
of a block have the point's revision as child, their parents are distinct nearest measured ancestors
of it, and these are all there are unless a cycle of unmeasured revisions can be reached from the
revision through unmeasured revisions. -/
theorem minimalBlocks_spec (h : History) :
    h.minimalEdges = h.minimalBlocks.flatten ∧
    List.Forall₂ (fun point block =>
        (∀ e ∈ block, e.child = point.revId) ∧
        (block.map (·.parent)).Nodup ∧
        (∀ e ∈ block, h.NearestAncestor point.revId e.parent) ∧
        (h.NoHiddenCycle point.revId →
          ∀ m, h.NearestAncestor point.revId m → ⟨m, point.revId⟩ ∈ block))
      h.points h.minimalBlocks := by
  refine ⟨rfl, h.exists_gathers_minimalBlocks.imp ?_⟩
  rintro point block ⟨ancestors, rfl, hg⟩
  refine ⟨?_, ?_, ?_, ?_⟩
  · intro e he
    obtain ⟨a, _, rfl⟩ := List.mem_map.mp he
    rfl
  · rw [List.map_map]
    exact (List.map_id ancestors).symm ▸ hg.nodup
  · intro e he
    obtain ⟨a, ha, rfl⟩ := List.mem_map.mp he
    exact hg.sound a ha
  · intro hclear m hm
    obtain ⟨p, hp, hcounts⟩ := nearestAncestor_iff.mp hm
    exact List.mem_map_of_mem (hg.complete hclear p hp m hcounts)

/-- Two measured revisions on one cycle, and a cycle of unmeasured revisions aside. -/
def twoCycles : History :=
  { points := [⟨"", "A", .epoch, 0⟩, ⟨"", "C", .epoch, 0⟩]
    parents := [⟨"B", "A"⟩, ⟨"C", "B"⟩, ⟨"A", "C"⟩, ⟨"X", "Y"⟩, ⟨"Y", "X"⟩] }

theorem hiddenStep_twoCycles {child parent : String} (h : twoCycles.HiddenStep child parent) :
    (child = "C" ∧ parent = "B") ∨ (child = "X" ∧ parent = "Y") ∨ (child = "Y" ∧ parent = "X") := by
  obtain ⟨hstep, hhidden⟩ := h
  simp only [StepsTo, twoCycles, List.mem_cons, ParentEdge.mk.injEq, List.not_mem_nil,
    or_false] at hstep
  rcases hstep with ⟨rfl, rfl⟩ | h | ⟨rfl, rfl⟩ | h
  · exact absurd (by decide) hhidden
  · exact Or.inl h
  · exact absurd (by decide) hhidden
  · exact Or.inr h

/-- The cycle aside hides nothing from the other two. -/
theorem mem_minimalEdges_twoCycles :
    twoCycles.NoHiddenCycle "C" ∧ twoCycles.NearestAncestor "C" "A" ∧
      ⟨"A", "C"⟩ ∈ twoCycles.minimalEdges := by
  have hclear : twoCycles.NoHiddenCycle "C" := by
    intro u hpath
    have hu : u = "C" ∨ u = "B" := by
      induction hpath with
      | refl => exact Or.inl rfl
      | tail _ hstep ih => grind [hiddenStep_twoCycles hstep]
    -- a revision on a hidden cycle has a hidden step to it and one from it
    intro hcycle
    obtain ⟨v, hfrom, -⟩ := Relation.TransGen.head'_iff.mp hcycle
    obtain ⟨w, -, hto⟩ := Relation.TransGen.tail'_iff.mp hcycle
    grind [hiddenStep_twoCycles hfrom, hiddenStep_twoCycles hto]
  have hnearest : twoCycles.NearestAncestor "C" "A" := by
    refine ⟨by decide, "B", Relation.ReflTransGen.single ⟨?_, by decide⟩, ?_⟩
    · simp [StepsTo, twoCycles]
    · simp [StepsTo, twoCycles]
  refine ⟨hclear, hnearest, ?_⟩
  obtain ⟨heq, hblocks⟩ := minimalBlocks_spec twoCycles
  rw [heq]
  generalize twoCycles.minimalBlocks = blocks at hblocks
  rcases hblocks with - | ⟨-, - | ⟨⟨-, -, -, hcomplete⟩, -⟩⟩
  have hmem := hcomplete hclear "A" hnearest
  simp [hmem]

end History

end MetricHistory
