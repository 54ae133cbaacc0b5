import EntryTrace.Log

/-!
# Events

What the pass reports while it works. An entry of the log is an event with the transformations it
happened in, outermost first.
-/

namespace EntryTrace

set_option autoImplicit false

inductive Event where
  /-- The pass was activated for so many units and diagnostics. -/
  | activated (units diagnostics : Nat) (skipMarked : Bool)
  /-- Diagnostics with a code were removed. -/
  | diagnosticsRemoved (code removed remaining : Nat)
  /-- A labeled function has no body to log in. -/
  | bodyMissing (file : String)
  /-- A labeled function already carries the marker and is left alone. -/
  | alreadyMarked (file : String) (function : Option String)
  /-- A labeled function now logs so many arguments on entry. -/
  | instrumented (file : String) (function : Option String) (arguments : Nat)
  deriving DecidableEq, Repr

inductive FieldValue where
  | text (value : String)
  | number (value : Nat)
  | flag (value : Bool)
  deriving DecidableEq, Repr

namespace Event

def level : String := "DEBUG"

def message : Event → String
  | activated _ _ _ => "activating instrumentation pass"
  | diagnosticsRemoved _ _ _ => "removed diagnostics"
  | bodyMissing _ => "skipping labeled function declaration without a body"
  | alreadyMarked _ _ => "skipping already instrumented function"
  | instrumented _ _ _ => "instrumenting labeled function"

/-- The name under which a function is reported. -/
def shownName (function : Option String) : String := function.getD "<anonymous>"

def fields : Event → List (String × FieldValue)
  | activated units diagnostics skipMarked =>
    [("units", .number units), ("diagnostics", .number diagnostics),
      ("skip_instrumented", .flag skipMarked)]
  | diagnosticsRemoved code removed remaining =>
    [("code", .number code), ("removed", .number removed), ("remaining", .number remaining)]
  | bodyMissing file => [("file", .text file)]
  | alreadyMarked file function => [("file", .text file), ("function", .text (shownName function))]
  | instrumented file function arguments =>
    [("file", .text file), ("function", .text (shownName function)),
      ("arguments", .number arguments)]

end Event

/-- The transformation of one file, inside which events happen. -/
structure Scope where
  file : String
  deriving DecidableEq, Repr

namespace Scope

def name : String := "transform"

def fields (scope : Scope) : List (String × FieldValue) := [("file", .text scope.file)]

end Scope

structure Entry where
  event : Event
  scopes : List Scope := []
  deriving DecidableEq, Repr

namespace Entry

/-- The entry as seen from outside a further scope. -/
def within (scope : Scope) (entry : Entry) : Entry := { entry with scopes := scope :: entry.scopes }

end Entry

end EntryTrace
