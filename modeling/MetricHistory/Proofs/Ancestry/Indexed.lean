import MetricHistory.Proofs.Ancestry.Log

/-!
# The walk on plain tables

The walk once more, on arrays and plain numbers.  A number may be out of the bounds of a table, and
the stack may never become empty, so that there is a result only where every look-up succeeds and
every loop comes to an end.  There always is one.

* `Indexed.Tables.step`, `Tables.run`, `Tables.resolve`: the walk, with its marks and its memo in
  two tables, and a revision on the stack with the number of parents that were looked at.
* `History.indexedEdges`: the minimal edges, from the tables of a history.
* `Indexed.step_state`: a step of the walk is a step on the tables, with every look-up in bounds.
* `History.indexedEdges_eq`: the edges found on the tables are the minimal edges.
* `History.survey_spec`: the survey ends, nothing in it is done twice, and no look-up fails.
-/

namespace MetricHistory

namespace Indexed

/-! ### The program -/

/-- The mark of a revision. -/
inductive Mark where
  | unvisited
  | resolving
  | done
deriving DecidableEq

/-- A revision on the stack, with the number of its parents that were looked at and the ancestors
found so far. -/
structure Cursor where
  revision : Nat
  next : Nat
  found : List Nat

/-- The numbers of the parents of each revision, and whether it is measured. -/
structure Tables where
  parents : Array (List Nat)
  measured : Array Bool

/-- The marks of all revisions, the ancestors of the finished ones, and the stack. -/
structure State where
  marks : Array Mark
  memo : Array (List Nat)
  stack : List Cursor

/-- The table with another entry, if it has one of that number. -/
def put? {α : Type} (table : Array α) (i : Nat) (a : α) : Option (Array α) :=
  if h : i < table.size then some (table.set i a h) else none

/-- The stack after the topmost revision is closed. -/
def returnTo (found : List Nat) : List Cursor → List Cursor
  | [] => []
  | caller :: below => { caller with found := appendNew caller.found found } :: below

/-- Looks at the next parent of the topmost revision, or closes that revision when all were looked
at. -/
def Tables.step (t : Tables) : State → Option State
  | ⟨marks, memo, []⟩ => some ⟨marks, memo, []⟩
  | ⟨marks, memo, ⟨revision, next, found⟩ :: below⟩ => do
    let parents ← t.parents[revision]?
    match parents[next]? with
    | none =>
      let marks ← put? marks revision .done
      let memo ← put? memo revision found
      some ⟨marks, memo, returnTo found below⟩
    | some parent =>
      if ← t.measured[parent]? then
        some ⟨marks, memo, ⟨revision, next + 1, appendNew found [parent]⟩ :: below⟩
      else
        match ← marks[parent]? with
        | .done =>
          let ancestors ← memo[parent]?
          some ⟨marks, memo, ⟨revision, next + 1, appendNew found ancestors⟩ :: below⟩
        | .resolving => some ⟨marks, memo, ⟨revision, next + 1, found⟩ :: below⟩
        | .unvisited =>
          let marks ← put? marks parent .resolving
          some ⟨marks, memo, ⟨parent, 0, []⟩ :: ⟨revision, next + 1, found⟩ :: below⟩

/-- Steps until the stack is empty.  Nothing bounds the number of steps. -/
def Tables.run (t : Tables) (s : State) : Option State :=
  match s.stack with
  | [] => some s
  | _ :: _ => do
    let s ← t.step s
    t |>.run s
partial_fixpoint

/-- The marks and the memo once `root` is resolved as well. -/
def Tables.resolve (t : Tables) (marks : Array Mark) (memo : Array (List Nat)) (root : Nat) :
    Option (Array Mark × Array (List Nat)) := do
  if (← marks[root]?) = .done then some (marks, memo)
  else
    let marks ← put? marks root .resolving
    let s ← t.run ⟨marks, memo, [⟨root, 0, []⟩]⟩
    some (s.marks, s.memo)

/-- The edges of the points, one after the other. -/
def Tables.edges (t : Tables) (revisions : Roster String) :
    List Point → Array Mark → Array (List Nat) → Option (List MinimalEdge)
  | [], _, _ => some []
  | point :: points, marks, memo => do
    let root ← revisions.places[point.revId]?
    let (marks, memo) ← t.resolve marks memo root
    let found ← memo[root]?
    let names ← found.mapM fun i => revisions.items[i]?
    let rest ← t.edges revisions points marks memo
    some (names.map (⟨·, point.revId⟩) ++ rest)

/-- The parents of each revision, from the edges. -/
def parentTable (revisions : Roster String) (parents : List ParentEdge) :
    Option (Array (List Nat)) :=
  parents.foldlM
    (fun table e => do
      let child ← revisions.places[e.child]?
      let parent ← revisions.places[e.parent]?
      let listed ← table[child]?
      put? table child (listed ++ [parent]))
    (Array.replicate revisions.size [])

/-- Which revisions are measured, from the points. -/
def measuredTable (revisions : Roster String) (points : List Point) : Option (Array Bool) :=
  points.foldlM
    (fun table point => do
      let i ← revisions.places[point.revId]?
      put? table i true)
    (Array.replicate revisions.size false)

end Indexed

/-- The minimal edges of a history, found on plain tables. -/
def History.indexedEdges (h : History) : Option (List MinimalEdge) := do
  let revisions := h.revisions
  let parents ← Indexed.parentTable revisions h.parents
  let measured ← Indexed.measuredTable revisions h.points
  Indexed.Tables.edges ⟨parents, measured⟩ revisions h.points
    (Array.replicate revisions.size .unvisited) (Array.replicate revisions.size [])

namespace Indexed

/-! ### Tables of vectors -/

theorem vector_ext {α : Type} {n : Nat} {xs ys : Vector α n} (h : ∀ i, xs.get i = ys.get i) :
    xs = ys :=
  Vector.ext fun j hj => h ⟨j, hj⟩

/-- The entries of a vector in a plain table. -/
def erased {α β : Type} {n : Nat} (f : α → β) (xs : Vector α n) : Array β :=
  (xs.map f).toArray

variable {α β : Type} {n : Nat} {f : α → β}

theorem get_map (xs : Vector α n) (i : Fin n) : (xs.map f).get i = f (xs.get i) :=
  Vector.getElem_map f i.isLt

theorem get_ofFn (f : Fin n → α) (i : Fin n) : (Vector.ofFn f).get i = f i :=
  Vector.getElem_ofFn i.isLt

theorem getElem?_erased (xs : Vector α n) (i : Fin n) :
    (erased f xs)[i.val]? = some (f (xs.get i)) := by
  have hi : i.val < (erased f xs).size := by simp [erased]
  rw [Array.getElem?_eq_getElem hi]
  simp [erased, Vector.get]

theorem put?_erased (xs : Vector α n) (i : Fin n) (a : α) :
    put? (erased f xs) i.val (f a) = some (erased f (xs.put i a)) := by
  have hi : i.val < (erased f xs).size := by simp [erased]
  rw [put?, dif_pos hi]
  simp [erased, Vector.put]

theorem erased_replicate (a : α) :
    erased f (Vector.replicate n a) = Array.replicate n (f a) := by
  simp [erased]

/-- An entry that stays the same changes nothing. -/
theorem erased_put {xs : Vector α n} {i : Fin n} {a : α} (ha : f a = f (xs.get i)) :
    erased f (xs.put i a) = erased f xs := by
  rw [erased, erased]
  congr 1
  refine vector_ext fun j => ?_
  rw [get_map, get_map, Vector.get_put]
  split_ifs with hij
  · rw [ha, hij]
  · rfl

/-! ### The walk on tables -/

/-- The mark that says what is known of a revision. -/
def mark {n : Nat} : Visit n → Mark
  | .unvisited => .unvisited
  | .resolving => .resolving
  | .done _ => .done

/-- The ancestors in the memo of a revision. -/
def known {n : Nat} (v : Visit n) : List Nat :=
  v.found.map Fin.val

/-- A frame of the walk, with the number of its parents that were looked at. -/
def cursor {n : Nat} (p : Pedigree n) (f : Frame n) : Cursor :=
  { revision := f.revision
    next := Walk.nextPlace p f.revision f.pending
    found := f.found.toList.map Fin.val }

/-- A walk, on tables. -/
def state {n : Nat} (p : Pedigree n) (w : Walk n) : State :=
  { marks := erased mark w.visits
    memo := erased known w.visits
    stack := w.frames.map (cursor p) }

/-- A pedigree, in tables. -/
def tables {n : Nat} (p : Pedigree n) : Tables :=
  { parents := erased (List.map Fin.val) p.parents
    measured := erased id p.measured }

variable {p : Pedigree n}

theorem getElem?_nextPlace {i : Fin n} {pending : List (Fin n)}
    (h : pending <:+ p.parents.get i) :
    (p.parents.get i)[Walk.nextPlace p i pending]? = pending.head? := by
  obtain ⟨looked, hlooked⟩ := h
  have hnext : Walk.nextPlace p i pending = looked.length := by
    rw [Walk.nextPlace, ← hlooked, List.length_append, Nat.add_sub_cancel]
  rw [hnext, ← hlooked, List.getElem?_append_right le_rfl, Nat.sub_self, List.head?_eq_getElem?]

theorem cursor_openFrame (p : Pedigree n) (i : Fin n) :
    cursor p (p.openFrame i) = ⟨i, 0, []⟩ := by
  rw [cursor, Pedigree.openFrame, Walk.nextPlace, Nat.sub_self, Roster.toList_empty, List.map_nil]

theorem map_enterAll (found : Roster (Fin n)) (more : List (Fin n)) :
    (found.enterAll more).toList.map Fin.val =
      appendNew (found.toList.map Fin.val) (more.map Fin.val) := by
  rw [Roster.toList_enterAll, map_appendNew Fin.val_injective.injOn]

theorem map_cursor_returnTo (l : List (Fin n)) (frames : List (Frame n)) :
    (Walk.returnTo l frames).map (cursor p) =
      returnTo (l.map Fin.val) (frames.map (cursor p)) := by
  cases frames with
  | nil => rfl
  | cons caller below =>
    rw [Walk.returnTo, List.map_cons, List.map_cons, returnTo, cursor, map_enterAll, cursor]

/-- An unvisited revision is marked when it is opened, and the memo stays as it is. -/
theorem erased_opened {visits : Vector (Visit n) n} {i : Fin n} (hv : visits.get i = .unvisited) :
    put? (erased mark visits) i.val .resolving = some (erased mark (visits.put i .resolving)) ∧
      erased known (visits.put i .resolving) = erased known visits :=
  ⟨put?_erased (f := mark) visits i .resolving, erased_put (by rw [hv]; rfl)⟩

/-- A revision of which all parents were looked at is closed. -/
theorem step_state_close (p : Pedigree n) (visits : Vector (Visit n) n) (i : Fin n)
    (found : Roster (Fin n)) (below : List (Frame n)) :
    (tables p).step (state p ⟨visits, ⟨i, [], found⟩ :: below⟩) =
      some (state p ⟨visits.put i (.done found.toList), Walk.returnTo found.toList below⟩) := by
  have hnext : (List.map Fin.val (p.parents.get i))[Walk.nextPlace p i []]? = none := by
    rw [List.getElem?_map, getElem?_nextPlace List.nil_suffix]
    rfl
  have hmarks : put? (erased mark visits) i.val .done =
      some (erased mark (visits.put i (.done found.toList))) :=
    put?_erased (f := mark) visits i (.done found.toList)
  have hmemo : put? (erased known visits) i.val (found.toList.map Fin.val) =
      some (erased known (visits.put i (.done found.toList))) :=
    put?_erased (f := known) visits i (.done found.toList)
  simp only [state, tables, List.map_cons, cursor, Tables.step, getElem?_erased, Option.bind_eq_bind,
    Option.bind_some, hnext, hmarks, hmemo, map_cursor_returnTo]

/-- A parent that is pending is found in the list, and so are its marks. -/
theorem step_state_look {i parent : Fin n} {pending : List (Fin n)}
    (hsuffix : parent :: pending <:+ p.parents.get i) (visits : Vector (Visit n) n)
    (found : Roster (Fin n)) (below : List (Frame n)) :
    (tables p).step (state p ⟨visits, ⟨i, parent :: pending, found⟩ :: below⟩) =
      if p.measured.get parent then
        some (state p ⟨visits, ⟨i, pending, found.enter parent⟩ :: below⟩)
      else
        match visits.get parent with
        | .done ancestors =>
          some (state p ⟨visits, ⟨i, pending, found.enterAll ancestors⟩ :: below⟩)
        | .resolving => some (state p ⟨visits, ⟨i, pending, found⟩ :: below⟩)
        | .unvisited =>
          some (state p ⟨visits.put parent .resolving,
            p.openFrame parent :: ⟨i, pending, found⟩ :: below⟩) := by
  have hnext : (List.map Fin.val (p.parents.get i))[Walk.nextPlace p i (parent :: pending)]? =
      some parent.val := by
    rw [List.getElem?_map, getElem?_nextPlace hsuffix]
    rfl
  have henter : (found.enter parent).toList.map Fin.val =
      appendNew (found.toList.map Fin.val) [parent.val] :=
    map_enterAll found [parent]
  simp only [state, tables, List.map_cons, Tables.step, getElem?_erased, Option.bind_eq_bind,
    Option.bind_some, hnext, id, cursor, Walk.nextPlace_cons hsuffix, henter]
  split_ifs with hm
  · rfl
  · cases hv : visits.get parent with
    | done ancestors => simp only [mark, known, Visit.found, map_enterAll]
    | resolving => rfl
    | unvisited =>
      obtain ⟨hmarks, hmemo⟩ := erased_opened hv
      have hopen := cursor_openFrame p parent
      rw [cursor] at hopen
      simp only [mark, hmarks, hmemo, Option.bind_some, hopen]

/-- **Every look-up of a step succeeds**: on the tables it does what a step of the walk does. -/
theorem step_state {w : Walk n} (ho : Walk.Orderly p w) :
    (tables p).step (state p w) = some (state p (Walk.step p w)) := by
  obtain ⟨visits, frames⟩ := w
  match frames, ho with
  | [], _ => rfl
  | ⟨i, [], found⟩ :: below, _ => exact step_state_close p visits i found below
  | ⟨i, parent :: pending, found⟩ :: below, ho =>
    rw [step_state_look ho.suffix_top, Walk.step]
    split_ifs with hm
    · rfl
    · cases visits.get parent <;> rfl

/-- The loop on the tables ends where the walk does. -/
theorem run_state {w : Walk n} (ho : Walk.Orderly p w) :
    (tables p).run (state p w) = some (state p (Walk.run p w)) := by
  induction hw : Walk.work p w using Nat.strong_induction_on generalizing w with
  | _ m ih =>
  subst hw
  obtain ⟨visits, frames⟩ := w
  cases frames with
  | nil =>
    rw [Tables.run, Walk.run, dif_pos rfl]
    rfl
  | cons frame below =>
    have hframes : frame :: below ≠ [] := List.cons_ne_nil frame below
    have hstep := step_state ho
    rw [Tables.run, ← Walk.run_step]
    show ((tables p).step (state p ⟨visits, frame :: below⟩)).bind (tables p).run = _
    rw [hstep]
    exact ih _ (Walk.work_step_lt p _ hframes) (ho.move (Walk.move_step p hframes)) rfl

/-- A revision is resolved on the tables as the walk resolves it. -/
theorem resolve_state {visits : Vector (Visit n) n} (ho : Walk.Orderly p ⟨visits, []⟩)
    (root : Fin n) :
    (tables p).resolve (erased mark visits) (erased known visits) root =
      some (erased mark (p.resolve visits root), erased known (p.resolve visits root)) := by
  rw [Tables.resolve, getElem?_erased]
  cases hroot : (visits.get root).ancestors? with
  | some found =>
    have hdone := Visit.eq_done_of_ancestors? hroot
    rw [p.resolve_of_done hdone, hdone]
    rfl
  | none =>
    have hv := ho.unvisited hroot
    obtain ⟨hmarks, hmemo⟩ := erased_opened hv
    have hrun := run_state (ho.opened hv)
    rw [state, hmemo, List.map_cons, List.map_nil, cursor_openFrame] at hrun
    rw [p.resolve_of_not_done hroot, hv]
    simp only [mark, Option.bind_eq_bind, Option.bind_some, hmarks]
    rw [if_neg nofun, hrun]
    rfl

/-! ### The tables of a history -/

variable {r : Roster String}

theorem getElem?_places {a : String} {i : Fin r.size} (hi : r.item i = a) :
    r.places[a]? = some i.val := by
  rw [r.places_iff, Array.getElem?_eq_getElem i.isLt]
  exact congrArg some hi

theorem ofEdges_concat (edges : List (Fin n × Fin n)) (child parent : Fin n) :
    Pedigree.ofEdges (edges ++ [(child, parent)]) =
      (Pedigree.ofEdges edges).put child ((Pedigree.ofEdges edges).get child ++ [parent]) := by
  refine vector_ext fun j => ?_
  rw [Pedigree.get_ofEdges, Vector.get_put, Pedigree.get_ofEdges, Pedigree.get_ofEdges,
    List.filter_append, List.map_append]
  split_ifs with hchild
  · simp [hchild]
  · simp [hchild]

/-- Every edge between listed revisions finds its place in the table of parents. -/
theorem parentTable_eq {parents : List ParentEdge}
    (hlisted : ∀ e ∈ parents, e.child ∈ r.toList ∧ e.parent ∈ r.toList) :
    parentTable r parents = some (erased (List.map Fin.val)
      (Pedigree.ofEdges (parents.filterMap (Pedigree.placeEdge? r)))) := by
  induction parents using List.reverseRecOn with
  | nil => exact congrArg some (erased_replicate (f := List.map Fin.val) []).symm
  | append_singleton parents e ih =>
    obtain ⟨i, j, hi, hj, hplace⟩ := Pedigree.exists_placeEdge?
      (hlisted e (List.mem_append_right _ (List.mem_singleton_self e)))
    have htable := ih fun e he => hlisted e (List.mem_append_left _ he)
    rw [parentTable] at htable ⊢
    rw [List.foldlM_append, htable, List.filterMap_append, List.filterMap_cons_some hplace,
      List.filterMap_nil, ofEdges_concat]
    have hput := put?_erased (f := List.map Fin.val)
      (Pedigree.ofEdges (parents.filterMap (Pedigree.placeEdge? r))) i
      ((Pedigree.ofEdges (parents.filterMap (Pedigree.placeEdge? r))).get i ++ [j])
    rw [List.map_append, List.map_singleton] at hput
    simp only [List.foldlM_cons, List.foldlM_nil, Option.bind_eq_bind, Option.bind_some,
      getElem?_places hi, getElem?_places hj, getElem?_erased, hput]
    rfl

/-- Every listed point marks its revision in the table of measured ones. -/
theorem measuredTable_eq {points : List Point}
    (hlisted : ∀ point ∈ points, point.revId ∈ r.toList) :
    measuredTable r points = some (erased id
      (Vector.ofFn fun i => decide (r.item i ∈ points.map (·.revId)))) := by
  induction points using List.reverseRecOn with
  | nil =>
    have hblank : (Vector.ofFn fun i => decide (r.item i ∈ ([] : List Point).map (·.revId))) =
        Vector.replicate r.size false := by
      refine vector_ext fun j => ?_
      rw [get_ofFn]
      exact (Vector.getElem_replicate j.isLt).symm
    rw [hblank, erased_replicate]
    rfl
  | append_singleton points point ih =>
    obtain ⟨i, hi⟩ := Roster.exists_item_eq
      (hlisted point (List.mem_append_right _ (List.mem_singleton_self point)))
    have htable := ih fun point hpoint => hlisted point (List.mem_append_left _ hpoint)
    have hmark : (Vector.ofFn fun j => decide (r.item j ∈ (points ++ [point]).map (·.revId))) =
        (Vector.ofFn fun j => decide (r.item j ∈ points.map (·.revId))).put i true := by
      refine vector_ext fun j => ?_
      rw [Vector.get_put, get_ofFn, get_ofFn, List.map_append, List.map_singleton, ← hi]
      split_ifs with hij
      · simp [hij]
      · have hne : r.item j ≠ r.item i := fun he => hij (r.item_injective he).symm
        simp [hne]
    have hput := put?_erased (f := id)
      (Vector.ofFn fun j => decide (r.item j ∈ points.map (·.revId))) i true
    rw [id] at hput
    rw [measuredTable] at htable ⊢
    rw [List.foldlM_append, htable, hmark]
    simp only [List.foldlM_cons, List.foldlM_nil, Option.bind_eq_bind, Option.bind_some,
      getElem?_places hi, hput]
    rfl

/-! ### The points -/

theorem mapM_items (places : List (Fin r.size)) :
    (places.map Fin.val).mapM (fun i => r.items[i]?) = some (places.map r.item) := by
  induction places with
  | nil => rfl
  | cons i places ih =>
    have hi : r.items[i.val]? = some (r.item i) := Array.getElem?_eq_getElem i.isLt
    rw [List.map_cons, List.mapM_cons, ih, hi]
    rfl

/-- The survey on the tables finds the edges of every point. -/
theorem edges_state {p : Pedigree r.size} {roots : List (Fin r.size)} (points : List Point)
    (hlisted : ∀ point ∈ points, point.revId ∈ r.toList)
    {visits : Vector (Visit r.size) r.size} {log : List (Walk.Event r.size)}
    (ancestors : Array (List (Fin r.size)))
    (hr : Walk.Reaches p roots (points.filterMap fun point => r.place? point.revId)
      ⟨visits, []⟩ log) :
    ∃ lists,
      ((points.filterMap fun point => r.place? point.revId).foldl (Survey.add p)
        ⟨visits, ancestors⟩).ancestors.toList = ancestors.toList ++ lists ∧
      (tables p).edges r points (erased mark visits) (erased known visits) =
        some (List.zipWith
          (fun point found => found.map fun a => (⟨r.item a, point.revId⟩ : MinimalEdge))
          points lists).flatten := by
  induction points generalizing visits log ancestors with
  | nil => exact ⟨[], (List.append_nil _).symm, rfl⟩
  | cons point points ih =>
    obtain ⟨hpoint, hpoints⟩ := List.forall_mem_cons.mp hlisted
    obtain ⟨i, hi⟩ := Roster.exists_item_eq hpoint
    have hplace : r.place? point.revId = some i := by rw [← hi, Roster.place?_item]
    rw [List.filterMap_cons, hplace] at hr ⊢
    obtain ⟨log', hr'⟩ := hr.resolve
    obtain ⟨lists, hlists, hedges⟩ :=
      ih hpoints (ancestors.push ((p.resolve visits i).get i).found) hr'
    refine ⟨((p.resolve visits i).get i).found :: lists, ?_, ?_⟩
    · rw [List.foldl_cons, Survey.add, hlists, Array.toList_push, List.append_assoc,
        List.singleton_append]
    · rw [Tables.edges]
      simp only [Option.bind_eq_bind, getElem?_places hi, Option.bind_some,
        resolve_state hr.orderly, getElem?_erased, known, mapM_items, hedges]
      rw [List.map_map, List.zipWith_cons_cons, List.flatten_cons]
      rfl

end Indexed

namespace History

open Indexed

/-- The places of the points, in the order in which they are resolved. -/
def roots (h : History) : List (Fin h.revisions.size) :=
  h.points.filterMap fun point => h.revisions.place? point.revId

/-- **No look-up fails and every loop ends**: on plain tables the minimal edges are found, in their
order. -/
theorem indexedEdges_eq (h : History) : h.indexedEdges = some h.minimalEdges := by
  have hpoints : ∀ point ∈ h.points, point.revId ∈ h.revisions.toList :=
    fun point hpoint => mem_revisions.mpr (Or.inl ⟨point, hpoint, rfl⟩)
  have hmeasured : (Vector.ofFn fun i => decide (h.revisions.item i ∈ h.points.map (·.revId))) =
      h.pedigree.measured := by
    refine vector_ext fun i => ?_
    rw [get_ofFn, Bool.eq_iff_iff, decide_eq_true_iff, pedigree, Pedigree.measured_iff,
      isMeasured_iff_mem]
  obtain ⟨lists, hlists, hedges'⟩ := edges_state (p := h.pedigree) h.points hpoints #[] .start
  rw [List.nil_append] at hlists
  have hmarks : erased mark (Pedigree.unexplored (n := h.revisions.size)) =
      Array.replicate h.revisions.size .unvisited :=
    erased_replicate Visit.unvisited
  have hmemo : erased known (Pedigree.unexplored (n := h.revisions.size)) =
      Array.replicate h.revisions.size [] :=
    erased_replicate Visit.unvisited
  rw [indexedEdges]
  simp only [Option.bind_eq_bind, parentTable_eq ends_mem_revisions, measuredTable_eq hpoints,
    Option.bind_some, hmeasured]
  rw [← hmarks, ← hmemo, minimalEdges]
  rw [← hlists] at hedges'
  exact hedges'

/-- **The survey ends, and does nothing twice**: on every history, with or without cycles, every
look-up in the tables succeeds and every loop ends, with the minimal edges.  All points are resolved
in one log.  Wherever the walk is, its log repeats no event: no revision is opened twice, and no
parent in a list is looked at twice.  Its work is the number of parents not yet looked at and of
revisions not yet closed, and every further step does some of it. -/
theorem survey_spec (h : History) :
    h.indexedEdges = some h.minimalEdges ∧
      (∃ log, Walk.Reaches h.pedigree h.roots []
        ⟨(h.roots.foldl (Survey.add h.pedigree) ⟨Pedigree.unexplored, #[]⟩).visits, []⟩ log) ∧
      ∀ rest w log, Walk.Reaches h.pedigree h.roots rest w log →
        log.Nodup ∧ Walk.Tells h.pedigree w log ∧
          Walk.work h.pedigree w = Walk.left h.pedigree log ∧
          (tables h.pedigree).step (state h.pedigree w) =
            some (state h.pedigree (Walk.step h.pedigree w)) ∧
          (w.frames ≠ [] →
            Walk.work h.pedigree (Walk.step h.pedigree w) < Walk.work h.pedigree w) := by
  refine ⟨h.indexedEdges_eq, Survey.exists_reaches #[] .start, fun rest w log hr => ?_⟩
  exact ⟨hr.tells.nodup, hr.tells, hr.work_eq, step_state hr.orderly,
    Walk.work_step_lt h.pedigree w⟩

/-- Two measured revisions with unmeasured ones between them that lead to each other. -/
def eddy : History :=
  { points := [⟨"", "C", .epoch, 3⟩, ⟨"", "A", .epoch, 1⟩]
    parents := [⟨"C", "X"⟩, ⟨"X", "X"⟩, ⟨"X", "Y"⟩, ⟨"Y", "X"⟩, ⟨"Y", "A"⟩] }

/-- The survey comes to an end although the unmeasured revisions lead to each other. -/
theorem survey_spec_eddy :
    eddy.indexedEdges = some [⟨"A", "C"⟩] ∧
      ∃ w log, Walk.Reaches eddy.pedigree eddy.roots [] w log ∧ w.frames = [] ∧ log.Nodup ∧
        Walk.work eddy.pedigree w = Walk.left eddy.pedigree log := by
  have hminimal : eddy.minimalEdges = [⟨"A", "C"⟩] := by decide +kernel
  obtain ⟨hedges, ⟨log, hr⟩, hall⟩ := survey_spec eddy
  obtain ⟨hnodup, -, hwork, -⟩ := hall _ _ _ hr
  rw [hminimal] at hedges
  exact ⟨hedges, _, log, hr, rfl, hnodup, hwork⟩

end History

end MetricHistory
