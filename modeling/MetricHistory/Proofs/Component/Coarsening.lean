import MetricHistory.Proofs.Calendar.Period
import MetricHistory.Proofs.Component.Partition
import Mathlib.Data.List.Flatten
import Mathlib.Data.List.Perm.Subperm

/-!
# Days within weeks and months

Instants of one day lie in one week and in one month, and a path of edges within a day is one within
its week and its month.  So every component of a day is part of one component of wider buckets, and
these are made of whole components of days.

* `BucketSize.key_eq_of_key_day_eq`: instants of one day.
* `Partition.Joined.of_day`: revisions that are joined within a day.
* `Partition.members_subset_of_mem`: components that share a revision.
* `Partition.day_refines`: the partition by days and the one by wider buckets.
-/

namespace MetricHistory

/-- Instants of one day lie in one bucket of any size. -/
theorem BucketSize.key_eq_of_key_day_eq (size : BucketSize) {s t : Instant}
    (h : day.key s = day.key t) : size.key s = size.key t := by
  have hday : s.day = t.day := day.key_eq_iff.mp h
  cases size with
  | day => exact h
  | week => exact week.key_eq_iff.mpr (by rw [period, period, hday])
  | month => exact month.key_eq_iff.mpr (by rw [period, period, hday])

namespace Partition

open Relation

variable {size : BucketSize} {points : List Point} {edges : List MinimalEdge}

/-! ### Joined within a day -/

/-- Revisions with one day lie in one bucket of any size. -/
theorem bucketOf?_eq_of_day {a b bucket : String} (ha : bucketOf? .day points a = some bucket)
    (hb : bucketOf? .day points b = some bucket) :
    bucketOf? size points a = bucketOf? size points b := by
  rw [bucketOf?_eq_map_lastPoints] at ha hb
  obtain ⟨p, hp, hpkey⟩ := Option.map_eq_some_iff.mp ha
  obtain ⟨q, hq, hqkey⟩ := Option.map_eq_some_iff.mp hb
  have hkey : size.key p.time = size.key q.time :=
    size.key_eq_of_key_day_eq (hpkey.trans hqkey.symm)
  rw [bucketOf?_eq_map_lastPoints, bucketOf?_eq_map_lastPoints, hp, hq, Option.map_some,
    Option.map_some, hkey]

/-- A path within a day is one within the bucket of any size. -/
theorem Joined.of_day {a b : String} (h : Joined .day points edges a b) :
    Joined size points edges a b := by
  obtain ⟨bucket, ha, hb, hpath⟩ := h
  obtain ⟨p, hp, -⟩ := Option.map_eq_some_iff.mp (bucketOf?_eq_map_lastPoints .day points a ▸ ha)
  have hwide : bucketOf? size points a = some (size.key p.time) := by
    rw [bucketOf?_eq_map_lastPoints, hp, Option.map_some]
  have hstep : ∀ x y, BucketStep .day points edges bucket x y →
      BucketStep size points edges (size.key p.time) x y := by
    rintro x y ⟨hedge, hx, hy⟩
    exact ⟨hedge, (bucketOf?_eq_of_day hx ha).trans hwide, (bucketOf?_eq_of_day hy ha).trans hwide⟩
  exact ⟨size.key p.time, hwide, (bucketOf?_eq_of_day hb ha).trans hwide,
    ReflTransGen.mono hstep _ _ hpath⟩

/-! ### Components of days -/

/-- A component of a day lies within every component that shares a revision with it. -/
theorem members_subset_of_mem {c d : Component} {rev : String}
    (hc : c ∈ (ofPoints size points edges).components.toList)
    (hd : d ∈ (ofPoints .day points edges).components.toList) (hrevc : rev ∈ c.members)
    (hrevd : rev ∈ d.members) : d.members ⊆ c.members := by
  intro other hother
  have hjoined : Joined .day points edges rev other := (mem_members_iff_joined hd hrevd).mp hother
  exact (mem_members_iff_joined hc hrevc).mpr hjoined.of_day

/-- A component of a day lies within one component. -/
theorem existsUnique_members_subset {d : Component} (size : BucketSize)
    (hd : d ∈ (ofPoints .day points edges).components.toList) :
    ∃! c, c ∈ (ofPoints size points edges).components.toList ∧ d.members ⊆ c.members := by
  obtain ⟨rev, hrev⟩ := exists_mem_members hd
  obtain ⟨c, hc, hrevc⟩ := exists_component_of_isMeasured size edges (isMeasured_of_mem hd hrev)
  refine ⟨c, ⟨hc, members_subset_of_mem hc hd hrevc hrev⟩, ?_⟩
  rintro c' ⟨hc', hsubset⟩
  exact eq_of_mem_of_mem hc' hc (hsubset hrev) hrevc

/-- The components of days that make up a component. -/
def days (points : List Point) (edges : List MinimalEdge) (c : Component) : List Component :=
  (ofPoints .day points edges).components.toList.filter fun d => d.members ⊆ c.members

theorem mem_days {c d : Component} :
    d ∈ days points edges c ↔
      d ∈ (ofPoints .day points edges).components.toList ∧ d.members ⊆ c.members := by
  rw [days, List.mem_filter, decide_eq_true_iff]

/-- Every member of a component belongs to one of its days. -/
theorem exists_day {c : Component} {rev : String}
    (hc : c ∈ (ofPoints size points edges).components.toList) (hrev : rev ∈ c.members) :
    ∃ d ∈ days points edges c, rev ∈ d.members := by
  obtain ⟨d, hd, hrevd⟩ := exists_component_of_isMeasured .day edges (isMeasured_of_mem hc hrev)
  exact ⟨d, mem_days.mpr ⟨hd, members_subset_of_mem hc hd hrev hrevd⟩, hrevd⟩

theorem nodup_flatMap_days (c : Component) :
    ((days points edges c).flatMap (·.members)).Nodup := by
  have hsub : (days points edges c).Sublist (ofPoints .day points edges).components.toList :=
    List.filter_sublist
  exact (nodup_members_ofPoints .day points edges).sublist (hsub.flatMap _)

/-- The members of a component are those of its days. -/
theorem perm_flatMap_days {c : Component}
    (hc : c ∈ (ofPoints size points edges).components.toList) :
    ((days points edges c).flatMap (·.members)).Perm c.members := by
  rw [List.perm_ext_iff_of_nodup (nodup_flatMap_days c) (nodup_members hc)]
  intro rev
  rw [List.mem_flatMap]
  constructor
  · rintro ⟨d, hd, hrev⟩
    exact (mem_days.mp hd).2 hrev
  · exact exists_day hc

/-- Every component has a day. -/
theorem exists_mem_days {c : Component}
    (hc : c ∈ (ofPoints size points edges).components.toList) : ∃ d, d ∈ days points edges c := by
  obtain ⟨rev, hrev⟩ := exists_mem_members hc
  obtain ⟨d, hd, -⟩ := exists_day hc hrev
  exact ⟨d, hd⟩

theorem pairwise_disjoint_days (c : Component) :
    (days points edges c).Pairwise fun d e => d.members.Disjoint e.members :=
  (List.nodup_flatMap.mp (nodup_flatMap_days c)).2

/-- There are no more components than there are in buckets of days. -/
theorem length_components_le_day (size : BucketSize) (points : List Point)
    (edges : List MinimalEdge) :
    (ofPoints size points edges).components.toList.length ≤
      (ofPoints .day points edges).components.toList.length := by
  let coarse := (ofPoints size points edges).components.toList
  let fine := (ofPoints .day points edges).components.toList
  -- every component is the one around some component of a day
  have hsubset : coarse ⊆ fine.filterMap fun d => coarse.find? fun c => d.members ⊆ c.members := by
    intro c hc
    obtain ⟨d, hday⟩ := exists_mem_days hc
    obtain ⟨hd, hdc⟩ := mem_days.mp hday
    have hsome : (coarse.find? fun c => d.members ⊆ c.members).isSome := by
      rw [List.find?_isSome]
      exact ⟨c, hc, decide_eq_true hdc⟩
    obtain ⟨c', hfind⟩ := Option.isSome_iff_exists.mp hsome
    have hc' : c' ∈ coarse := List.mem_of_find?_eq_some hfind
    have hdc' := List.find?_some hfind
    rw [decide_eq_true_iff] at hdc'
    obtain rfl : c' = c := (existsUnique_members_subset size hd).unique ⟨hc', hdc'⟩ ⟨hc, hdc⟩
    exact List.mem_filterMap.mpr ⟨d, hd, hfind⟩
  exact ((nodup_components size points edges).subperm hsubset).length_le.trans
    (List.length_filterMap_le _ _)

/-- **Days within weeks and months**: every component of a day lies within exactly one component of
wider buckets, each of these is made of whole components of days, which have no revision in common,
and there are no more of them than there are components of days. -/
theorem day_refines (size : BucketSize) (points : List Point) (edges : List MinimalEdge) :
    let fine := (ofPoints .day points edges).components.toList
    let coarse := (ofPoints size points edges).components.toList
    fine.Nodup ∧ coarse.Nodup ∧
    (∀ d ∈ fine, ∃! c, c ∈ coarse ∧ d.members ⊆ c.members) ∧
    (∀ c ∈ coarse,
      let parts := fine.filter fun d => d.members ⊆ c.members
      (parts.Pairwise fun d e => d.members.Disjoint e.members) ∧
      (parts.flatMap (·.members)).Perm c.members) ∧
    coarse.length ≤ fine.length := by
  intro fine coarse
  refine ⟨nodup_components .day points edges, nodup_components size points edges, ?_, ?_,
    length_components_le_day size points edges⟩
  · intro d hd
    exact existsUnique_members_subset size hd
  · intro c hc
    exact ⟨pairwise_disjoint_days c, perm_flatMap_days hc⟩

end Partition

end MetricHistory
