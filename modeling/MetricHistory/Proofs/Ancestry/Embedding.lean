import MetricHistory.Proofs.Ancestry.Memo

/-!
# A history within another

A history may lie within another under other names: there its revisions have the parents that they
have here, and the same ones are measured.  The recursion then takes the same course there, and what
is noted on the way is the same under the other names.

* `History.Mentions`: the revisions of a history.
* `History.Embeds`: a history that lies within another.
* `Notes.Matches`: notes that are the same under other names.
* `Collected.map`, `Surveyed.map`: the recursion takes the same course.
* `History.exists_minimalBlocks_eq_map`: each revision has one block, whether its points are
  repeated or not.
-/

namespace MetricHistory

/-! ### Notes under other names -/

namespace Notes

/-- What `s` notes of `revs` is what `s'` notes of them under the names that `f` gives.  No other
revisions count as ancestors. -/
structure Matches (f : String → String) (revs : Set String) (s s' : Notes) : Prop where
  memo_eq : ∀ rev ∈ revs, s'.memo (f rev) = (s.memo rev).map (List.map f)
  mem_resolving_iff : ∀ rev ∈ revs, f rev ∈ s'.resolving ↔ rev ∈ s.resolving
  mem_of_memo : ∀ {rev ancestors}, s.memo rev = some ancestors → ∀ a ∈ ancestors, a ∈ revs

namespace Matches

variable {f : String → String} {revs : Set String} {s s' : Notes} {rev : String}

theorem blank (f : String → String) (revs : Set String) : Matches f revs blank blank where
  memo_eq _ _ := rfl
  mem_resolving_iff rev _ := iff_of_false (Finset.notMem_empty (f rev)) (Finset.notMem_empty rev)
  mem_of_memo h := by cases h

theorem memo_eq_some (hs : Matches f revs s s') (hrev : rev ∈ revs) {ancestors : List String}
    (hmemo : s.memo rev = some ancestors) : s'.memo (f rev) = some (ancestors.map f) := by
  rw [hs.memo_eq rev hrev, hmemo, Option.map_some]

theorem memo_eq_none (hs : Matches f revs s s') (hrev : rev ∈ revs) (hmemo : s.memo rev = none) :
    s'.memo (f rev) = none := by
  rw [hs.memo_eq rev hrev, hmemo, Option.map_none]

theorem opened (hs : Matches f revs s s') (hf : Set.InjOn f revs) (hrev : rev ∈ revs) :
    Matches f revs (s.opened rev) (s'.opened (f rev)) where
  memo_eq := hs.memo_eq
  mem_resolving_iff r hr := by
    rw [resolving_opened, resolving_opened, Finset.mem_insert, Finset.mem_insert,
      hf.eq_iff hr hrev, hs.mem_resolving_iff r hr]
  mem_of_memo := hs.mem_of_memo

theorem closed (hs : Matches f revs s s') (hf : Set.InjOn f revs) (hrev : rev ∈ revs)
    {found : List String} (hfound : ∀ a ∈ found, a ∈ revs) :
    Matches f revs (s.closed rev found) (s'.closed (f rev) (found.map f)) where
  memo_eq r hr := by
    rw [memo_closed, memo_closed]
    by_cases h : r = rev
    · rw [h, Function.update_self, Function.update_self, Option.map_some]
    · have hne : f r ≠ f rev := fun heq => h (hf hr hrev heq)
      rw [Function.update_of_ne h, Function.update_of_ne hne, hs.memo_eq r hr]
  mem_resolving_iff r hr := by
    rw [resolving_closed, resolving_closed, Finset.mem_erase, Finset.mem_erase, ne_eq, ne_eq,
      hf.eq_iff hr hrev, hs.mem_resolving_iff r hr]
  mem_of_memo {r ancestors} hmemo a ha := by
    rw [memo_closed] at hmemo
    by_cases h : r = rev
    · rw [h, Function.update_self, Option.some.injEq] at hmemo
      exact hfound a (hmemo ▸ ha)
    · rw [Function.update_of_ne h] at hmemo
      exact hs.mem_of_memo hmemo a ha

end Matches

end Notes

namespace History

/-! ### Embeddings -/

/-- The revision has a point, or an edge begins or ends with it. -/
def Mentions (h : History) (rev : String) : Prop :=
  h.IsMeasured rev ∨ ∃ e ∈ h.parents, rev = e.child ∨ rev = e.parent

instance (h : History) (rev : String) : Decidable (h.Mentions rev) :=
  inferInstanceAs (Decidable (_ ∨ _))

/-- `h` lies within `h'` under the names that `f` gives. -/
structure Embeds (f : String → String) (h h' : History) : Prop where
  injOn : Set.InjOn f {rev | h.Mentions rev}
  parentsOf_eq : ∀ {rev}, h.Mentions rev → h'.parentsOf (f rev) = (h.parentsOf rev).map f
  isMeasured_iff : ∀ {rev}, h.Mentions rev → (h'.IsMeasured (f rev) ↔ h.IsMeasured rev)

theorem mentions_of_mem_parentsOf {h : History} {rev parent : String}
    (hparent : parent ∈ h.parentsOf rev) : h.Mentions parent :=
  Or.inr ⟨_, mem_parentsOf.mp hparent, Or.inr rfl⟩

theorem mentions_of_mem {h : History} {rev : String} (hrev : rev ∈ h.points.map (·.revId)) :
    h.Mentions rev :=
  Or.inl (isMeasured_iff_mem.mpr hrev)

variable {f : String → String} {h h' : History}

/-- What was found stays the same under the other names when more is found. -/
theorem Embeds.map_appendNew (he : Embeds f h h') {found more : List String}
    (hfound : ∀ a ∈ found, h.Mentions a) (hmore : ∀ a ∈ more, h.Mentions a) :
    (appendNew found more).map f = appendNew (found.map f) (more.map f) ∧
      ∀ a ∈ appendNew found more, h.Mentions a := by
  have hboth : ∀ a, a ∈ found ∨ a ∈ more → h.Mentions a := by
    rintro a (ha | ha)
    · exact hfound a ha
    · exact hmore a ha
  constructor
  · exact MetricHistory.map_appendNew (he.injOn.mono hboth)
  · intro a ha
    exact hboth a (mem_appendNew.mp ha)

/-! ### The course of the recursion -/

/-- Collecting takes the same course in a history that the first lies within. -/
theorem Collected.map (he : Embeds f h h') {parents found found' : List String} {s s' t : Notes}
    (hc : h.Collected parents found s found' s') (hs : s.Matches f {rev | h.Mentions rev} t)
    (hparents : ∀ parent ∈ parents, h.Mentions parent) (hfound : ∀ a ∈ found, h.Mentions a) :
    ∃ t', h'.Collected (parents.map f) (found.map f) t (found'.map f) t' ∧
      s'.Matches f {rev | h.Mentions rev} t' ∧ ∀ a ∈ found', h.Mentions a := by
  induction hc generalizing t with
  | nil found s => exact ⟨t, .nil (found.map f) t, hs, hfound⟩
  | @measured parent parents found found' s s' hm _ ih =>
    obtain ⟨hparent, hrest⟩ := List.forall_mem_cons.mp hparents
    obtain ⟨hmap, hmore⟩ := he.map_appendNew hfound (List.forall_mem_singleton.mpr hparent)
    obtain ⟨t', hcollected, hmatches, hall⟩ := ih hs hrest hmore
    rw [hmap] at hcollected
    exact ⟨t', .measured ((he.isMeasured_iff hparent).mpr hm) hcollected, hmatches, hall⟩
  | @finished parent parents found ancestors found' s s' hm hmemo _ ih =>
    obtain ⟨hparent, hrest⟩ := List.forall_mem_cons.mp hparents
    obtain ⟨hmap, hmore⟩ := he.map_appendNew hfound (hs.mem_of_memo hmemo)
    obtain ⟨t', hcollected, hmatches, hall⟩ := ih hs hrest hmore
    rw [hmap] at hcollected
    exact ⟨t', .finished (mt (he.isMeasured_iff hparent).mp hm) (hs.memo_eq_some hparent hmemo)
      hcollected, hmatches, hall⟩
  | @resolving parent parents found found' s s' hm hmemo hres _ ih =>
    obtain ⟨hparent, hrest⟩ := List.forall_mem_cons.mp hparents
    obtain ⟨t', hcollected, hmatches, hall⟩ := ih hs hrest hfound
    exact ⟨t', .resolving (mt (he.isMeasured_iff hparent).mp hm) (hs.memo_eq_none hparent hmemo)
      ((hs.mem_resolving_iff parent hparent).mpr hres) hcollected, hmatches, hall⟩
  | @unvisited parent parents found ancestors found' s u s' hm hmemo hres _ _ ihown ihrest =>
    obtain ⟨hparent, hrest⟩ := List.forall_mem_cons.mp hparents
    -- first what the parent finds itself, then what comes after it
    obtain ⟨u', hown, hu, hancestors⟩ := ihown (hs.opened he.injOn hparent)
      (fun _ => mentions_of_mem_parentsOf) (fun _ ha => absurd ha List.not_mem_nil)
    obtain ⟨hmap, hmore⟩ := he.map_appendNew hfound hancestors
    obtain ⟨t', hcollected, hmatches, hall⟩ :=
      ihrest (hu.closed he.injOn hparent hancestors) hrest hmore
    rw [← he.parentsOf_eq hparent] at hown
    rw [hmap] at hcollected
    exact ⟨t', .unvisited (mt (he.isMeasured_iff hparent).mp hm) (hs.memo_eq_none hparent hmemo)
      (mt (hs.mem_resolving_iff parent hparent).mp hres) hown hcollected, hmatches, hall⟩

/-- A survey takes the same course in a history that the first lies within. -/
theorem Surveyed.map (he : Embeds f h h') {revs : List String} {lists : List (List String)}
    {s s' t : Notes} (hsurvey : h.Surveyed revs s lists s')
    (hs : s.Matches f {rev | h.Mentions rev} t) (hrevs : ∀ rev ∈ revs, h.Mentions rev) :
    ∃ t', h'.Surveyed (revs.map f) t (lists.map (List.map f)) t' ∧
      s'.Matches f {rev | h.Mentions rev} t' := by
  induction hsurvey generalizing t with
  | nil s => exact ⟨t, .nil t, hs⟩
  | @finished rev revs ancestors lists s s' hmemo _ ih =>
    obtain ⟨hrev, hrest⟩ := List.forall_mem_cons.mp hrevs
    obtain ⟨t', hsurvey, hmatches⟩ := ih hs hrest
    exact ⟨t', .finished (hs.memo_eq_some hrev hmemo) hsurvey, hmatches⟩
  | @unvisited rev revs ancestors lists s u s' hmemo own _ ih =>
    obtain ⟨hrev, hrest⟩ := List.forall_mem_cons.mp hrevs
    obtain ⟨u', hown, hu, hancestors⟩ := own.map he (hs.opened he.injOn hrev)
      (fun _ => mentions_of_mem_parentsOf) (fun _ ha => absurd ha List.not_mem_nil)
    obtain ⟨t', hsurvey, hmatches⟩ := ih (hu.closed he.injOn hrev hancestors) hrest
    rw [← he.parentsOf_eq hrev] at hown
    exact ⟨t', .unvisited (hs.memo_eq_none hrev hmemo) hown hsurvey, hmatches⟩

/-! ### Other points -/

theorem embeds_id (hparents : h.parents = h'.parents) (hmeasured : h.IsMeasured = h'.IsMeasured) :
    Embeds id h h' where
  injOn := Set.injOn_id _
  parentsOf_eq _ := by
    rw [List.map_id, parentsOf, parentsOf, hparents]
    rfl
  isMeasured_iff _ := by
    rw [hmeasured]
    rfl

/-- Two histories with the same parents and the same measured revisions have the same block for
each revision, where the points of the second list every measured revision once, in the order of the
first points of the other. -/
theorem exists_minimalBlocks_eq_map (h h' : History) (hparents : h.parents = h'.parents)
    (hrevs : h'.points.map (·.revId) = appendNew [] (h.points.map (·.revId))) :
    ∃ block : String → List MinimalEdge,
      h.minimalBlocks = h.points.map (fun point => block point.revId) ∧
      h'.minimalBlocks = h'.points.map (fun point => block point.revId) := by
  have hmem : ∀ rev, rev ∈ h'.points.map (·.revId) ↔ rev ∈ h.points.map (·.revId) := by
    intro rev
    rw [hrevs, mem_appendNew_nil]
  have hmeasured : h.IsMeasured = h'.IsMeasured := by
    funext rev
    rw [isMeasured_iff_mem, isMeasured_iff_mem, hmem]
  obtain ⟨lists, s, hs, -⟩ := h.exists_surveyed_minimalBlocks
  obtain ⟨new, lists', hnew, hs'⟩ := hs.exists_appendNew [] (by simp)
  -- the revisions that are surveyed without repetitions are those of the other points
  rw [List.nil_append, ← hrevs] at hnew
  subst hnew
  obtain ⟨t, hsurvey, hmatches⟩ := hs'.map (embeds_id hparents hmeasured)
    (Notes.Matches.blank id _) fun rev hrev => mentions_of_mem ((hmem rev).mp hrev)
  rw [List.map_id] at hsurvey
  refine ⟨fun rev => edgesFrom ((s.memo rev).getD []) rev, hs.minimalBlocks_eq, ?_⟩
  rw [hsurvey.minimalBlocks_eq]
  apply List.map_congr_left
  intro point hpoint
  have hrev := (hmem point.revId).mp (List.mem_map_of_mem hpoint)
  have hmemo : t.memo point.revId = (s.memo point.revId).map (List.map id) :=
    hmatches.memo_eq point.revId (mentions_of_mem hrev)
  rw [hmemo, List.map_id_fun, Option.map_id]
  rfl

end History

end MetricHistory
