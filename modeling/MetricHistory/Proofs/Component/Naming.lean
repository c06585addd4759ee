import MetricHistory.Component
import MetricHistory.Proofs.Text.Digits
import Mathlib.Data.List.Basic

/-!
# The ids of components

A component id is the bucket key, a colon and a number.  The number has no colon in it, so that the
last colon of an id parts it again, whatever the bucket is called; and components of one bucket are
numbered in the order of their listing.  No two components share an id therefore.

* `Partition.componentId_inj`: an id tells the bucket and the number.
* `Partition.Numbered`: the numbering of a list of components.
* `Partition.Numbered.nodup_id`: the ids of numbered components are distinct.
-/

namespace MetricHistory.Partition

theorem colon_not_mem_repr (n : Nat) : ':' ∉ n.repr.toList := by
  rw [Nat.toList_repr]
  intro h
  have hdigit := Nat.isDigit_of_mem_toDigits (by decide) (by decide) h
  exact absurd hdigit (by decide)

theorem repr_inj {m n : Nat} (h : m.repr.toList = n.repr.toList) : m = n := by
  rw [Nat.toList_repr, Nat.toList_repr] at h
  have hvalue := congrArg (Nat.ofDigitChars 10 · 0) h
  rwa [Nat.ofDigitChars_ten_toDigits, Nat.ofDigitChars_ten_toDigits] at hvalue

theorem toList_componentId (bucket : String) (number : Nat) :
    (componentId bucket number).toList = bucket.toList ++ ':' :: number.repr.toList := by
  rw [componentId, String.toList_append, String.toList_append, List.append_assoc,
    Nat.toString_eq_repr]
  rfl

/-- An id tells the bucket and the number. -/
theorem componentId_inj {bucket bucket' : String} {number number' : Nat}
    (h : componentId bucket number = componentId bucket' number') :
    bucket = bucket' ∧ number = number' := by
  have hlist := congrArg String.toList h
  rw [toList_componentId, toList_componentId] at hlist
  -- the last colon is the one before the number
  obtain ⟨hbucket, hnumber⟩ := Text.append_cons_inj (colon_not_mem_repr number)
    (colon_not_mem_repr number') hlist
  exact ⟨String.toList_injective hbucket, repr_inj hnumber⟩

/-- Every component is numbered by how many components of its bucket are listed up to it. -/
def Numbered (components : List Component) : Prop :=
  ∀ (k : Nat) (hk : k < components.length),
    components[k].id = componentId components[k].bucket
      ((components.take k).countP (·.bucket = components[k].bucket) + 1)

theorem Numbered.nil : Numbered [] := by
  intro k hk
  exact absurd hk (Nat.not_lt_zero k)

/-- One more component is listed, with the next number of its bucket. -/
theorem Numbered.concat {components : List Component} (hn : Numbered components) {c : Component}
    (hc : c.id = componentId c.bucket (components.countP (·.bucket = c.bucket) + 1)) :
    Numbered (components ++ [c]) := by
  intro k hk
  rw [List.length_append, List.length_singleton] at hk
  rcases Nat.lt_or_ge k components.length with hlt | hge
  · rw [List.getElem_append_left hlt, List.take_append_of_le_length (Nat.le_of_lt hlt)]
    exact hn k hlt
  · obtain rfl : k = components.length := by omega
    rw [List.getElem_concat_length rfl, List.take_left]
    exact hc

/-- The ids of numbered components are distinct. -/
theorem Numbered.nodup_id {components : List Component} (hn : Numbered components) :
    (components.map (·.id)).Nodup := by
  rw [List.Nodup, List.pairwise_map, List.pairwise_iff_getElem]
  intro i j hi hj hij hid
  rw [hn i hi, hn j hj] at hid
  obtain ⟨hbucket, hnumber⟩ := componentId_inj hid
  rw [hbucket] at hnumber
  -- the component at `i` counts for the number at `j`
  have hsub : List.Sublist (components.take (i + 1)) (components.take j) :=
    List.take_sublist_take_left hij
  have hle := hsub.countP_le (p := fun c => c.bucket = components[j].bucket)
  rw [List.take_succ_eq_append_getElem hi, List.countP_append, List.countP_singleton,
    if_pos (by simpa using hbucket)] at hle
  omega

end MetricHistory.Partition
