/-!
# Problems reported to the host

Changing a tree cannot fail. Problems arise where the host hands over a configuration or asks for
its text; they have a detail of their own and may say where they arose.
-/

namespace EntryTrace

set_option autoImplicit false

/-- Where a problem arose, as far as it is known. -/
structure Place where
  source : Option String := none
  line : Option Nat := none
  column : Option Nat := none
  deriving DecidableEq, Repr

/-- Nothing is shown without a source, and a line only together with its column. -/
def Place.describe (place : Place) : String :=
  match place.source with
  | none => ""
  | some source =>
    match place.line, place.column with
    | some line, some column =>
      "at " ++ source ++ ":" ++ String.ofList (Nat.toDigits 10 line) ++ ":" ++
        String.ofList (Nat.toDigits 10 column)
    | _, _ => "at " ++ source

inductive Problem.Kind where
  | invalidConfig
  | serialization
  deriving DecidableEq, Repr

structure Problem where
  kind : Problem.Kind
  detail : String
  place : Option Place := none
  deriving DecidableEq, Repr

namespace Problem

def message (problem : Problem) : String :=
  match problem.kind with
  | .invalidConfig => "invalid pass configuration: " ++ problem.detail
  | .serialization => "serialization error: " ++ problem.detail

/-- The problem with its place known; a place known before is replaced. -/
def atPlace (problem : Problem) (place : Place) : Problem := { problem with place := some place }

end Problem

end EntryTrace
