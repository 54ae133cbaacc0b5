/-!
# Configuration of the pass

The host configures the pass with one switch. Its text is a JSON object with the switch as its only
member.
-/

namespace EntryTrace

set_option autoImplicit false

structure Config where
  /-- Leave functions alone that already carry the marker. -/
  skipMarked : Bool := false
  deriving DecidableEq, Repr

namespace Config

/-- The name of the switch in the host's configuration. -/
def switchName : String := "skipInstrumented"

def text (config : Config) : String :=
  "\x7b\"" ++ switchName ++ "\":" ++ (if config.skipMarked then "true" else "false") ++ "\x7d"

end Config

end EntryTrace
