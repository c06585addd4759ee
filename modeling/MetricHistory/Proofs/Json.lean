import MetricHistory.Json.Record
import MetricHistory.Proofs.Calendar.Stamp

/-!
# Records read back from JSON

What is written as JSON is read back as the same value, with two exceptions.  There are no JSON
numbers for infinities and for what is not a number, so that a record with such a value is not read
back.  And a leap second that does not come at the end of a minute is written like the second after
it, so that a record of such a time is read back with another.

* `LawfulJsonForm`: the types whose values are all read back.
* `Json.fields?_eq`: the fields of an object are found by their keys.
* `JsonForm.ofJson?_toJson_spec`: which records are read back, and how instants are written.
* `JsonForm.not_ofJson?_toJson_outOfPlace`: a point that is not read back.
-/

namespace MetricHistory

/-- A JSON form from which every value is read back. -/
class LawfulJsonForm (α : Type) [JsonForm α] : Prop where
  ofJson?_toJson : ∀ a : α, ofJson? (toJson a) = some a

export LawfulJsonForm (ofJson?_toJson)

attribute [simp] ofJson?_toJson

namespace Json

/-! ### The fields of an object -/

variable {keys : List String} {values : List Json}

theorem get?_cons_self (key : String) (value : Json) (fields : List (String × Json)) :
    get? ((key, value) :: fields) key = some value := by
  simp [get?]

theorem get?_cons_of_ne {key key' : String} (h : key ≠ key') (value : Json)
    (fields : List (String × Json)) : get? ((key, value) :: fields) key' = get? fields key' := by
  simp [get?, h]

/-- Every key of an object leads to its value, as no other key is the same. -/
theorem map_get?_zip (hkeys : keys.Nodup) (hlength : values.length = keys.length) :
    keys.map (get? (keys.zip values)) = values.map some := by
  induction keys generalizing values with
  | nil => rw [List.length_eq_zero_iff.mp hlength]; rfl
  | cons key keys ih =>
    cases values with
    | nil => cases hlength
    | cons value values =>
      obtain ⟨hkey, hkeys⟩ := List.nodup_cons.mp hkeys
      have hrest : keys.map (get? ((key, value) :: keys.zip values)) =
          keys.map (get? (keys.zip values)) := by
        refine List.map_congr_left fun key' hkey' => get?_cons_of_ne ?_ value _
        rintro rfl
        exact hkey hkey'
      rw [List.zip_cons_cons, List.map_cons, get?_cons_self, hrest,
        ih hkeys (Nat.succ.inj hlength), List.map_cons]

/-- Every field of a record is found in an object that holds them all. -/
theorem fields?_eq {object : Json} (hobject : object = .object (keys.zip values))
    (hkeys : keys.Nodup) (hlength : values.length = keys.length) :
    fields? keys object = some (values.map some) := by
  rw [hobject, fields?, map_get?_zip hkeys hlength]

end Json

namespace JsonForm

open Json

/-! ### Plain values -/

instance : LawfulJsonForm String where
  ofJson?_toJson _ := rfl

instance : LawfulJsonForm (Option String) where
  ofJson?_toJson
    | none => rfl
    | some _ => rfl

instance : LawfulJsonForm (List String) where
  ofJson?_toJson texts := by
    show (texts.map Json.string).mapM ofJson? = some texts
    induction texts with
    | nil => rfl
    | cons text texts ih =>
      rw [List.map_cons, List.mapM_cons, ih]
      rfl

/-- An instant is read back as its timestamp is. -/
@[simp] theorem ofJson?_toJson_instant (t : Instant) : ofJson? (toJson t) = some t.asRead :=
  Instant.ofText?_toText t

instance : LawfulJsonForm BucketSize where
  ofJson?_toJson size := by
    show (BucketSize.ofName size.name).toOption = some size
    rw [BucketSize.ofName_name]
    rfl

instance : LawfulJsonForm ViewMode where
  ofJson?_toJson mode := by
    show (ViewMode.ofName mode.name).toOption = some mode
    rw [ViewMode.ofName_name]
    rfl

instance : LawfulJsonForm Fault where
  ofJson?_toJson
    | .invalidArgument _ => rfl
    | .data _ => rfl
    | .other _ => rfl

/-- Of the values only finite ones are read back. -/
@[simp] theorem ofJson?_toJson_float (x : Float) :
    ofJson? (toJson x) = if x.isFinite = true then some x else none := by
  show ofJson? (if x.isFinite = true then Json.number x else Json.null) = _
  split_ifs <;> rfl

/-! ### Records -/

@[simp] theorem required?_some {α : Type} [JsonForm α] (value : Json) :
    (required? (some value) : Option α) = ofJson? value :=
  rfl

@[simp] theorem optional?_some {α : Type} [JsonForm (Option α)] (value : Json) :
    (optional? (some value) : Option (Option α)) = ofJson? value :=
  rfl

theorem ofJson?_point_iff (p : Point) :
    ofJson? (toJson p) = some p ↔ p.value.isFinite = true ∧ p.time.LeapInPlace := by
  have hfields : fields? ["repo_id", "rev_id", "ts", "value"] (toJson p) =
      some ([toJson p.repoId, toJson p.revId, toJson p.time, toJson p.value].map some) :=
    fields?_eq rfl (by decide) rfl
  show Option.bind (fields? _ (toJson p)) _ = some p ↔ _
  rw [hfields]
  cases p
  simp [Option.bind_eq_some_iff, Instant.asRead_eq_self_iff, and_assoc]

theorem ofJson?_candle_iff (c : Candle) :
    ofJson? (toJson c) = some c ↔ c.opening.isFinite = true ∧ c.closing.isFinite = true ∧
      c.low.isFinite = true ∧ c.high.isFinite = true ∧ c.x.LeapInPlace := by
  have hfields :
      fields? ["bucket", "component_id", "x", "open", "close", "low", "high"] (toJson c) =
        some ([toJson c.bucket, toJson c.componentId, toJson c.x, toJson c.opening,
          toJson c.closing, toJson c.low, toJson c.high].map some) :=
    fields?_eq rfl (by decide) rfl
  show Option.bind (fields? _ (toJson c)) _ = some c ↔ _
  rw [hfields]
  cases c
  simp [Option.bind_eq_some_iff, Instant.asRead_eq_self_iff, and_assoc]

theorem ofJson?_segment_iff (s : Segment) :
    ofJson? (toJson s) = some s ↔ s.y1.isFinite = true ∧ s.y2.isFinite = true ∧
      s.x1.LeapInPlace ∧ s.x2.LeapInPlace := by
  have hfields : fields? ["x1", "y1", "x2", "y2"] (toJson s) =
      some ([toJson s.x1, toJson s.y1, toJson s.x2, toJson s.y2].map some) :=
    fields?_eq rfl (by decide) rfl
  show Option.bind (fields? _ (toJson s)) _ = some s ↔ _
  rw [hfields]
  cases s
  simp [Option.bind_eq_some_iff, Instant.asRead_eq_self_iff, and_assoc]

instance : LawfulJsonForm ParentEdge where
  ofJson?_toJson e := by
    have hfields : fields? ["child_rev_id", "parent_rev_id"] (toJson e) =
        some ([toJson e.child, toJson e.parent].map some) :=
      fields?_eq rfl (by decide) rfl
    show Option.bind (fields? _ (toJson e)) _ = some e
    rw [hfields]
    simp

instance : LawfulJsonForm MinimalEdge where
  ofJson?_toJson e := by
    have hfields : fields? ["parent_rev_id", "child_rev_id"] (toJson e) =
        some ([toJson e.parent, toJson e.child].map some) :=
      fields?_eq rfl (by decide) rfl
    show Option.bind (fields? _ (toJson e)) _ = some e
    rw [hfields]
    simp

instance : LawfulJsonForm Component where
  ofJson?_toJson c := by
    have hfields : fields? ["bucket", "component_id", "rev_ids"] (toJson c) =
        some ([toJson c.bucket, toJson c.id, toJson c.members].map some) :=
      fields?_eq rfl (by decide) rfl
    show Option.bind (fields? _ (toJson c)) _ = some c
    rw [hfields]
    simp

instance : LawfulJsonForm Metric where
  ofJson?_toJson m := by
    have hfields : fields? ["name", "description", "unit", "physical_type"] (toJson m) =
        some ([toJson m.name, toJson m.description, toJson m.unit,
          toJson m.physicalType].map some) :=
      fields?_eq rfl (by decide) rfl
    show Option.bind (fields? _ (toJson m)) _ = some m
    rw [hfields]
    simp

instance : LawfulJsonForm Report where
  ofJson?_toJson r := by
    have hfields : fields? ["bucket_size", "view_mode"] (toJson r) =
        some ([toJson r.bucketSize, toJson r.viewMode].map some) :=
      fields?_eq rfl (by decide) rfl
    show Option.bind (fields? _ (toJson r)) _ = some r
    rw [hfields]
    simp

/-! ### What is read back -/

/-- **JSON and back**: every edge, component, metric, report, bucket size, view mode and fault is
read back from its JSON form as it was, and so is a point, a candle or a segment exactly if its
values are finite and its times are in no leap second out of place.  An instant travels as its
timestamp, whose parts tell of it: with a sign on years outside 0 to 9999, the sixtieth second
within a leap second at the end of a minute, and as few groups of three fraction digits as hold the
nanoseconds.  It is read back exactly if it is in no leap second out of place; such a one is taken
for the next second, with the same fraction. -/
theorem ofJson?_toJson_spec :
    (∀ p : Point, ofJson? (toJson p) = some p ↔
      p.value.isFinite = true ∧ p.time.LeapInPlace) ∧
    (∀ e : ParentEdge, ofJson? (toJson e) = some e) ∧
    (∀ e : MinimalEdge, ofJson? (toJson e) = some e) ∧
    (∀ c : Component, ofJson? (toJson c) = some c) ∧
    (∀ c : Candle, ofJson? (toJson c) = some c ↔
      c.opening.isFinite = true ∧ c.closing.isFinite = true ∧ c.low.isFinite = true ∧
        c.high.isFinite = true ∧ c.x.LeapInPlace) ∧
    (∀ s : Segment, ofJson? (toJson s) = some s ↔
      s.y1.isFinite = true ∧ s.y2.isFinite = true ∧ s.x1.LeapInPlace ∧ s.x2.LeapInPlace) ∧
    (∀ m : Metric, ofJson? (toJson m) = some m) ∧
    (∀ r : Report, ofJson? (toJson r) = some r) ∧
    (∀ size : BucketSize, ofJson? (toJson size) = some size) ∧
    (∀ mode : ViewMode, ofJson? (toJson mode) = some mode) ∧
    (∀ fault : Fault, ofJson? (toJson fault) = some fault) ∧
    ∀ t : Instant, ∃ text : String, toJson t = .string text ∧
      (∃ s : Stamp, text.toList = s.chars ∧ s.Tells t) ∧
      (Instant.ofText? text = some t ↔ t.LeapInPlace) ∧
      (¬ t.LeapInPlace → ∃ next, Instant.ofText? text = some next ∧
        next.second = t.second + 1 ∧ next.nano + nanosPerSecond = t.nano) := by
  refine ⟨ofJson?_point_iff, ofJson?_toJson, ofJson?_toJson, ofJson?_toJson, ofJson?_candle_iff,
    ofJson?_segment_iff, ofJson?_toJson, ofJson?_toJson, ofJson?_toJson, ofJson?_toJson,
    ofJson?_toJson, fun t => ⟨t.toText, rfl, t.exists_tells, ?_, ?_⟩⟩
  · rw [t.ofText?_toText, Option.some.injEq, Instant.asRead_eq_self_iff]
  · intro hplace
    exact ⟨t.asRead, t.ofText?_toText, Instant.asRead_of_not_leapInPlace hplace⟩

/-- A point in a leap second after the thirtieth second of a minute is written like one in the
thirty-first, and read back as that one. -/
theorem not_ofJson?_toJson_outOfPlace :
    let p : Point :=
      { repoId := "r", revId := "A", value := 1.0
        time := ⟨1704067230, 1500000000, by decide, by decide, by decide⟩ }
    p.value.isFinite = true ∧ toJson p.time = .string "2024-01-01T00:00:31.500Z" ∧
      ofJson? (toJson p) ≠ some p := by
  intro p
  have hchars : p.time.chars = "2024-01-01T00:00:31.500Z".toList := by decide +kernel
  refine ⟨by decide, ?_, ?_⟩
  · show Json.string (String.ofList p.time.chars) = _
    rw [hchars, String.ofList_toList]
  · rw [ne_eq, ofJson?_point_iff]
    rintro ⟨-, hplace⟩
    exact absurd (hplace (by decide)) (by decide)

end JsonForm

end MetricHistory
