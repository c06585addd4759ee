import MetricHistory.Proofs.Ancestry.Refinement

/-!
# The memo of the recursion

What the recursion has noted of a finished revision stays as it is, so that every revision has the
ancestors that the memo holds for it in the end, however often it is asked for.

* `Collected.memo_eq`, `Surveyed.memo_eq`: finished revisions stay finished.
* `Surveyed.map_memo`: a survey finds what the memo holds at its end.
* `Surveyed.exists_append`: a survey passes through its beginning.
* `Surveyed.exists_appendNew`: leaving out the revisions that were surveyed before changes nothing.
* `Surveyed.minimalBlocks_eq`: the blocks of the points are read from that memo.
-/

namespace MetricHistory

/-- Finishing one more revision leaves the memo of those finished before. -/
theorem Notes.memo_closed_of_memo {s t : Notes} {root rev : String}
    {ancestors found : List String} (hroot : s.memo root = none) (hs : s.memo rev = some found)
    (ht : t.memo rev = some found) : (t.closed root ancestors).memo rev = some found := by
  have hne : rev ≠ root := by
    rintro rfl
    rw [hroot] at hs
    cases hs
  rw [memo_closed, Function.update_of_ne hne]
  exact ht

namespace History

variable {h : History}

/-! ### Finished revisions -/

theorem Collected.memo_eq {parents found found' : List String} {s s' : Notes}
    (hc : h.Collected parents found s found' s') {rev : String} {ancestors : List String}
    (hmemo : s.memo rev = some ancestors) : s'.memo rev = some ancestors := by
  induction hc with
  | nil => exact hmemo
  | measured _ _ ih => exact ih hmemo
  | finished _ _ _ ih => exact ih hmemo
  | resolving _ _ _ _ ih => exact ih hmemo
  | unvisited _ hnone _ _ _ ihown ihrest =>
    exact ihrest (Notes.memo_closed_of_memo hnone hmemo (ihown hmemo))

theorem Surveyed.memo_eq {revs : List String} {lists : List (List String)} {s s' : Notes}
    (hs : h.Surveyed revs s lists s') {rev : String} {ancestors : List String}
    (hmemo : s.memo rev = some ancestors) : s'.memo rev = some ancestors := by
  induction hs with
  | nil => exact hmemo
  | finished _ _ ih => exact ih hmemo
  | unvisited hnone own _ ih =>
    exact ih (Notes.memo_closed_of_memo hnone hmemo (own.memo_eq hmemo))

/-- A survey finds what the memo holds at its end. -/
theorem Surveyed.map_memo {revs : List String} {lists : List (List String)} {s s' : Notes}
    (hs : h.Surveyed revs s lists s') : revs.map s'.memo = lists.map some := by
  induction hs with
  | nil => rfl
  | finished hmemo rest ih => rw [List.map_cons, List.map_cons, rest.memo_eq hmemo, ih]
  | @unvisited rev _ ancestors _ _ t _ _ _ rest ih =>
    have hmemo : (t.closed rev ancestors).memo rev = some ancestors := by
      rw [Notes.memo_closed, Function.update_self]
    rw [List.map_cons, List.map_cons, rest.memo_eq hmemo, ih]

theorem Surveyed.exists_memo {revs : List String} {lists : List (List String)} {s s' : Notes}
    (hs : h.Surveyed revs s lists s') {rev : String} (hrev : rev ∈ revs) :
    ∃ ancestors, s'.memo rev = some ancestors := by
  have hmem : s'.memo rev ∈ lists.map some := hs.map_memo ▸ List.mem_map_of_mem hrev
  obtain ⟨ancestors, -, hmemo⟩ := List.mem_map.mp hmem
  exact ⟨ancestors, hmemo.symm⟩

/-- A survey passes through its beginning. -/
theorem Surveyed.exists_append {revs later : List String} {lists : List (List String)}
    {s s' : Notes} (hs : h.Surveyed (revs ++ later) s lists s') :
    ∃ first t rest, h.Surveyed revs s first t ∧ h.Surveyed later t rest s' := by
  induction revs generalizing s lists with
  | nil => exact ⟨[], s, lists, .nil s, hs⟩
  | cons rev revs ih =>
    cases hs with
    | finished hmemo hs =>
      obtain ⟨first, t, rest, hfirst, hrest⟩ := ih hs
      exact ⟨_, t, rest, .finished hmemo hfirst, hrest⟩
    | unvisited hmemo own hs =>
      obtain ⟨first, t, rest, hfirst, hrest⟩ := ih hs
      exact ⟨_, t, rest, .unvisited hmemo own hfirst, hrest⟩

/-! ### Repeated revisions -/

/-- Of the revisions in `revs` those that are not finished in the beginning, each once, are surveyed
with the same memo in the end. -/
theorem Surveyed.exists_appendNew {revs : List String} {lists : List (List String)} {s s' : Notes}
    (hs : h.Surveyed revs s lists s') (seen : List String)
    (hseen : ∀ rev ∈ seen, ∃ ancestors, s.memo rev = some ancestors) :
    ∃ new lists', appendNew seen revs = seen ++ new ∧ h.Surveyed new s lists' s' := by
  induction hs generalizing seen with
  | nil s => exact ⟨[], [], by rw [appendNew_nil, List.append_nil], .nil s⟩
  | @finished rev revs ancestors lists s s' hmemo _ ih =>
    rw [appendNew_cons]
    split_ifs with hrev
    · exact ih seen hseen
    · obtain ⟨new, lists', hnew, hs'⟩ := ih (seen ++ [rev])
        (List.forall_mem_append.mpr ⟨hseen, List.forall_mem_singleton.mpr ⟨ancestors, hmemo⟩⟩)
      rw [List.append_assoc, List.singleton_append] at hnew
      exact ⟨rev :: new, ancestors :: lists', hnew, .finished hmemo hs'⟩
  | @unvisited rev revs ancestors lists s t s' hmemo own _ ih =>
    have hrev : rev ∉ seen := by
      intro hr
      obtain ⟨found, hfound⟩ := hseen rev hr
      rw [hmemo] at hfound
      cases hfound
    have hkept : ∀ r ∈ seen, ∃ found, (t.closed rev ancestors).memo r = some found := by
      intro r hr
      obtain ⟨found, hfound⟩ := hseen r hr
      exact ⟨found, Notes.memo_closed_of_memo hmemo hfound (own.memo_eq hfound)⟩
    have hclosed : (t.closed rev ancestors).memo rev = some ancestors := by
      rw [Notes.memo_closed, Function.update_self]
    obtain ⟨new, lists', hnew, hs'⟩ := ih (seen ++ [rev])
      (List.forall_mem_append.mpr ⟨hkept, List.forall_mem_singleton.mpr ⟨ancestors, hclosed⟩⟩)
    rw [List.append_assoc, List.singleton_append] at hnew
    rw [appendNew_cons, if_neg hrev]
    exact ⟨rev :: new, ancestors :: lists', hnew, .unvisited hmemo own hs'⟩

/-! ### Blocks -/

/-- The minimal edges to a revision from each of its ancestors. -/
def edgesFrom (ancestors : List String) (rev : String) : List MinimalEdge :=
  ancestors.map fun a => ⟨a, rev⟩

/-- The blocks of the points are told by the memo that any survey of them ends with. -/
theorem Surveyed.minimalBlocks_eq {lists : List (List String)} {s : Notes}
    (hs : h.Surveyed (h.points.map (·.revId)) Notes.blank lists s) :
    h.minimalBlocks = h.points.map fun point =>
      edgesFrom ((s.memo point.revId).getD []) point.revId := by
  obtain ⟨lists', s', hs', hblocks⟩ := h.exists_surveyed_minimalBlocks
  have hsame := hs'.recursiveBlocks_eq
  rw [hs.recursiveBlocks_eq, ← hblocks, Option.some.injEq] at hsame
  have hlists : lists = h.points.map fun point => (s.memo point.revId).getD [] := by
    have hget := congrArg (List.map (Option.getD · [])) hs.map_memo
    rw [List.map_map, List.map_map, List.map_map] at hget
    exact (List.map_id lists).symm.trans hget.symm
  rw [← hsame, hlists, List.zipWith_map_right, List.zipWith_self]
  rfl

end History

end MetricHistory
