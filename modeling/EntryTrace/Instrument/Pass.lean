import EntryTrace.Diagnostic
import EntryTrace.Instrument.Rule
import EntryTrace.Program

/-!
# The pass

The host starts the pass for a program and its diagnostics. Labels that only ask for tracing are
never jumped to, so the start takes out the diagnostics about unused labels. The pass then traces
single files or the whole program, unit by unit. A round is one such start with all its results.
-/

namespace EntryTrace

set_option autoImplicit false

/-- The pass, started for a program. -/
structure Pass where
  program : Program
  config : Config

namespace Pass

/-- The started pass and the diagnostics that are left. -/
def start (program : Program) (config : Config) (diagnostics : Diagnostics) :
    Logged Event (Pass × Diagnostics) := do
  Logged.emit (.activated program.units.length diagnostics.length config.skipMarked)
  return (⟨program, config⟩, ← diagnostics.withoutUnusedLabels)

/-- Traces the labeled functions in the tree of a file. -/
def traceFile (config : Config) (file : String) (root : Node) : Logged Entry Node :=
  ((Setting.descent ⟨file, config⟩).run root).mapLog fun event => ⟨event, [⟨file⟩]⟩

def traceUnit (config : Config) (unit : ProgramUnit) : Logged Entry ProgramUnit := do
  return ⟨unit.file, ← traceFile config unit.file unit.root⟩

def traceProgram (pass : Pass) : Logged Entry Program := do
  return ⟨← pass.program.units.mapM (traceUnit pass.config)⟩

/-- The traced root of the unit with a name, none if there is no such unit. -/
def traceNamed? (pass : Pass) (file : String) : Logged Entry (Option Node) :=
  (pass.program.find? file).mapM fun unit => traceFile pass.config file unit.root

end Pass

/-- What a round started from and what it made of the program, the units looked up by name in the
program as it was, and the diagnostics that are left. -/
structure Round where
  config : Config
  program : Program
  result : Program
  lookups : List (Option Node)
  diagnostics : Diagnostics

namespace Round

def run (config : Config) (names : List String) (program : Program) (diagnostics : Diagnostics) :
    Logged Entry Round := do
  let (pass, left) ← (Pass.start program config diagnostics).mapLog fun event => ⟨event, []⟩
  let result ← pass.traceProgram
  let lookups ← names.mapM pass.traceNamed?
  return ⟨config, program, result, lookups, left⟩

/-- Rounds one after another, each on what the one before has left. -/
def runAll (config : Config) (names : List String) :
    Nat → Program → Diagnostics → List (Logged Entry Round)
  | 0, _, _ => []
  | rounds + 1, program, diagnostics =>
    let round := run config names program diagnostics
    round :: runAll config names rounds round.value.result round.value.diagnostics

end Round

end EntryTrace
