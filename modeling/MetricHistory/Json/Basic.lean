/-!
## JSON values

The values that travel between programs, and how a type is carried by them.

* `Json`: null, truth values, numbers, strings, arrays and objects.
* `JsonForm`: a type with a JSON form, which is written by `toJson` and read by `ofJson?`.
* `Json.fields?`: the fields of a record, which travels as an object or as an array.
* `Json.choice?`: the name of an alternative, which travels as a string or as a key of null.
-/

namespace MetricHistory

/-- A JSON value.  The keys of an object are distinct. -/
inductive Json where
  | null
  | bool (b : Bool)
  | number (x : Float)
  | string (s : String)
  | array (items : List Json)
  | object (fields : List (String × Json))
deriving Inhabited

/-- A type with a JSON form. -/
class JsonForm (α : Type) where
  toJson : α → Json
  ofJson? : Json → Option α

export JsonForm (toJson ofJson?)

namespace Json

/-- The value of a key. -/
def get? (fields : List (String × Json)) (key : String) : Option Json :=
  (fields.find? (·.1 == key)).map (·.2)

/-- The fields of a record, each of which may be missing from an object.  Keys that are not asked
for are ignored.  An array holds all the fields, in their order. -/
def fields? (keys : List String) : Json → Option (List (Option Json))
  | .object fields => some (keys.map (get? fields))
  | .array items => if items.length = keys.length then some (items.map some) else none
  | _ => none

/-- The value of a field that a record cannot do without. -/
def required? {α : Type} [JsonForm α] (field : Option Json) : Option α :=
  field.bind ofJson?

/-- The value of a field that a record can do without. -/
def optional? {α : Type} [JsonForm (Option α)] : Option Json → Option (Option α)
  | none => some none
  | some value => ofJson? value

/-- The name of an alternative that carries nothing: a string, or an object with the name as its
only key and the value null. -/
def choice? : Json → Option String
  | .string name => some name
  | .object [(name, .null)] => some name
  | _ => none

end Json

/-! ### Plain values -/

instance : JsonForm String where
  toJson := .string
  ofJson?
    | .string s => some s
    | _ => none

/-- There are no numbers for infinities, nor for what is not a number: they are written as null, and
null is not read as a number. -/
instance : JsonForm Float where
  toJson x := if x.isFinite then .number x else .null
  ofJson?
    | .number x => some x
    | _ => none

/-- A text that may be missing is null then. -/
instance : JsonForm (Option String) where
  toJson
    | none => .null
    | some s => .string s
  ofJson?
    | .null => some none
    | .string s => some (some s)
    | _ => none

/-- A list of texts. -/
instance : JsonForm (List String) where
  toJson texts := .array (texts.map .string)
  ofJson?
    | .array items => items.mapM ofJson?
    | _ => none

end MetricHistory
