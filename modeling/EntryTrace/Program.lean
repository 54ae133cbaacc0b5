import EntryTrace.Tree.Node

/-!
# Programs

A program is what the host compiles in one go: named units, each with the tree of its file, in the
order in which the host gave them. Names may repeat; the first unit of a name is the one found.
-/

namespace EntryTrace

set_option autoImplicit false

structure ProgramUnit where
  file : String
  root : Node
  deriving DecidableEq

namespace ProgramUnit

/-- The statements at the top of the file; none when the root is not a whole file. -/
def topLevel (unit : ProgramUnit) : List Node :=
  match unit.root.form with
  | .sourceFile statements => statements
  | _ => []

end ProgramUnit

structure Program where
  units : List ProgramUnit
  deriving DecidableEq

namespace Program

def find? (program : Program) (file : String) : Option ProgramUnit :=
  program.units.find? fun unit => unit.file == file

def files (program : Program) : List String := program.units.map ProgramUnit.file

end Program

end EntryTrace
