import EntryTrace.Json.Number

/-!
# JSON values

A value keeps its numbers as written and the members of an object in order.
-/

namespace EntryTrace

set_option autoImplicit false

inductive Json where
  | null
  | bool (value : Bool)
  | number (value : Json.Numeral)
  | string (value : String)
  | array (elements : List Json)
  | object (members : List (String × Json))

end EntryTrace
