import MetricHistory.Calendar.Stamp
import MetricHistory.Json.Basic
import MetricHistory.Metric
import MetricHistory.Report

/-!
## Records as JSON

The JSON form of everything that the library takes and gives.  A record is written as an object with
all its keys, and read from an object or from an array of its fields.  An instant travels as its
timestamp, and a choice as its name.
-/

namespace MetricHistory

open Json

instance : JsonForm Instant where
  toJson t := .string t.toText
  ofJson?
    | .string s => Instant.ofText? s
    | _ => none

instance : JsonForm BucketSize where
  toJson size := .string size.name
  ofJson? value := (choice? value).bind fun name => (BucketSize.ofName name).toOption

instance : JsonForm ViewMode where
  toJson mode := .string mode.name
  ofJson? value := (choice? value).bind fun name => (ViewMode.ofName name).toOption

instance : JsonForm Fault where
  toJson
    | .invalidArgument explanation => .object [("InvalidArg", .string explanation)]
    | .data explanation => .object [("Data", .string explanation)]
    | .other explanation => .object [("Other", .string explanation)]
  ofJson?
    | .object [("InvalidArg", .string explanation)] => some (.invalidArgument explanation)
    | .object [("Data", .string explanation)] => some (.data explanation)
    | .object [("Other", .string explanation)] => some (.other explanation)
    | _ => none

instance : JsonForm Point where
  toJson p :=
    .object [("repo_id", toJson p.repoId), ("rev_id", toJson p.revId), ("ts", toJson p.time),
      ("value", toJson p.value)]
  ofJson? value := do
    let [repoId, revId, time, value] ← fields? ["repo_id", "rev_id", "ts", "value"] value | none
    some { repoId := ← required? repoId, revId := ← required? revId, time := ← required? time
           value := ← required? value }

instance : JsonForm ParentEdge where
  toJson e := .object [("child_rev_id", toJson e.child), ("parent_rev_id", toJson e.parent)]
  ofJson? value := do
    let [child, parent] ← fields? ["child_rev_id", "parent_rev_id"] value | none
    some { child := ← required? child, parent := ← required? parent }

instance : JsonForm MinimalEdge where
  toJson e := .object [("parent_rev_id", toJson e.parent), ("child_rev_id", toJson e.child)]
  ofJson? value := do
    let [parent, child] ← fields? ["parent_rev_id", "child_rev_id"] value | none
    some { parent := ← required? parent, child := ← required? child }

instance : JsonForm Component where
  toJson c :=
    .object [("bucket", toJson c.bucket), ("component_id", toJson c.id),
      ("rev_ids", toJson c.members)]
  ofJson? value := do
    let [bucket, id, members] ← fields? ["bucket", "component_id", "rev_ids"] value | none
    some { bucket := ← required? bucket, id := ← required? id, members := ← required? members }

instance : JsonForm Candle where
  toJson c :=
    .object [("bucket", toJson c.bucket), ("component_id", toJson c.componentId),
      ("x", toJson c.x), ("open", toJson c.opening), ("close", toJson c.closing),
      ("low", toJson c.low), ("high", toJson c.high)]
  ofJson? value := do
    let [bucket, componentId, x, opening, closing, low, high] ←
      fields? ["bucket", "component_id", "x", "open", "close", "low", "high"] value | none
    some { bucket := ← required? bucket, componentId := ← required? componentId
           x := ← required? x, opening := ← required? opening, closing := ← required? closing
           low := ← required? low, high := ← required? high }

instance : JsonForm Segment where
  toJson s :=
    .object [("x1", toJson s.x1), ("y1", toJson s.y1), ("x2", toJson s.x2), ("y2", toJson s.y2)]
  ofJson? value := do
    let [x1, y1, x2, y2] ← fields? ["x1", "y1", "x2", "y2"] value | none
    some { x1 := ← required? x1, y1 := ← required? y1, x2 := ← required? x2
           y2 := ← required? y2 }

instance : JsonForm Metric where
  toJson m :=
    .object [("name", toJson m.name), ("description", toJson m.description),
      ("unit", toJson m.unit), ("physical_type", toJson m.physicalType)]
  ofJson? value := do
    let [name, description, unit, physicalType] ←
      fields? ["name", "description", "unit", "physical_type"] value | none
    some { name := ← required? name, description := ← optional? description
           unit := ← optional? unit, physicalType := ← required? physicalType }

instance : JsonForm Report where
  toJson r :=
    .object [("bucket_size", toJson r.bucketSize), ("view_mode", toJson r.viewMode)]
  ofJson? value := do
    let [bucketSize, viewMode] ← fields? ["bucket_size", "view_mode"] value | none
    some { bucketSize := ← required? bucketSize, viewMode := ← required? viewMode }

end MetricHistory
