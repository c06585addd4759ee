/-!
## Faults

What a caller of the library can be told to have gone wrong, in three kinds, and the text that
explains each.
-/

namespace MetricHistory

/-- A failure, with its explanation. -/
inductive Fault where
  /-- The caller passed a value that means nothing. -/
  | invalidArgument (explanation : String)
  /-- The data do not fit together. -/
  | data (explanation : String)
  /-- Anything else. -/
  | other (explanation : String)
deriving DecidableEq, Repr

namespace Fault

/-- The text shown to a reader. -/
def message : Fault → String
  | invalidArgument explanation => "invalid argument: " ++ explanation
  | data explanation => "data issue: " ++ explanation
  | other explanation => "unknown error: " ++ explanation

/-- Whether the caller is to blame. -/
def blamesCaller : Fault → Bool
  | invalidArgument _ => true
  | _ => false

end Fault

end MetricHistory
