import EntryTrace.Proofs.Guard
import EntryTrace.Proofs.Idempotence

/-!
# Units are traced one by one

What becomes of a unit is decided by its own tree and the guard. The other units have no part in it,
nor has the name under which the pass is told to work. Names stay where they are, so the first unit
of a name in the result comes from the first unit of that name in the program.
-/

namespace EntryTrace

set_option autoImplicit false

namespace ProgramUnit

def mapRoot (f : Node → Node) (unit : ProgramUnit) : ProgramUnit := { unit with root := f unit.root }

end ProgramUnit

namespace Program

def mapRoots (f : Node → Node) (program : Program) : Program :=
  ⟨program.units.map (ProgramUnit.mapRoot f)⟩

variable (f : Node → Node) (program : Program)

theorem files_mapRoots : (program.mapRoots f).files = program.files := by
  unfold files mapRoots
  rw [List.map_map]
  rfl

theorem root_mapRoots (i : Nat) :
    (program.mapRoots f).units[i]?.map ProgramUnit.root =
      (program.units[i]?.map ProgramUnit.root).map f := by
  unfold mapRoots
  rw [List.getElem?_map, Option.map_map, Option.map_map]
  rfl

/-- The name of a unit says nothing about its root, so lookup passes over the same units. -/
theorem find?_mapRoots (name : String) :
    (program.mapRoots f).find? name = (program.find? name).map (ProgramUnit.mapRoot f) := by
  unfold find? mapRoots
  rw [List.find?_map]
  rfl

end Program

namespace Pass

theorem value_traceFile_congr {config config' : Config} (file file' : String)
    (h : config.skipMarked = config'.skipMarked) (n : Node) :
    (traceFile config file n).value = (traceFile config' file' n).value :=
  Setting.traced_congr (s := ⟨file, config⟩) (t := ⟨file', config'⟩) h n

/-- One function of trees, for any name, does the work at every unit. -/
theorem value_traceProgram_eq_mapRoots (pass : Pass) (context : String) :
    pass.traceProgram.value =
      pass.program.mapRoots fun root => (traceFile pass.config context root).value := by
  rw [value_traceProgram]
  unfold Program.mapRoots
  congr 1
  apply List.map_congr_left
  intro unit _
  have hroot : (traceFile pass.config unit.file unit.root).value =
      (traceFile pass.config context unit.root).value :=
    value_traceFile_congr unit.file context rfl unit.root
  exact congrArg (ProgramUnit.mk unit.file) hroot

theorem value_traceNamed? (pass : Pass) (name : String) :
    (pass.traceNamed? name).value =
      (pass.program.find? name).map fun unit => (traceFile pass.config name unit.root).value := by
  unfold traceNamed?
  cases pass.program.find? name <;> rfl

theorem traceProgram_unitwise (program : Program) (config : Config) (diagnostics : Diagnostics) :
    let pass := (start program config diagnostics).value.1
    let result := pass.traceProgram.value
    result.files = program.files ∧
      (∀ (other : Program) (config' : Config) (diagnostics' : Diagnostics) (i j : Nat),
        program.units[i]?.map ProgramUnit.root = other.units[j]?.map ProgramUnit.root →
        config.skipMarked = config'.skipMarked →
        result.units[i]?.map ProgramUnit.root =
          (start other config' diagnostics').value.1.traceProgram.value.units[j]?.map
            ProgramUnit.root) ∧
      (∀ name context : String, result.find? name =
        (program.find? name).map fun unit =>
          ⟨unit.file, (traceFile config context unit.root).value⟩) ∧
      ∀ name : String, (pass.traceNamed? name).value = (result.find? name).map ProgramUnit.root := by
  intro pass result
  have hresult : ∀ context : String,
      result = program.mapRoots fun root => (traceFile config context root).value :=
    value_traceProgram_eq_mapRoots ⟨program, config⟩
  refine ⟨?_, ?_, ?_, ?_⟩
  · rw [hresult ""]
    exact program.files_mapRoots _
  · intro other config' diagnostics' i j hroot hguard
    have hother : (start other config' diagnostics').value.1.traceProgram.value =
        other.mapRoots fun root => (traceFile config' "" root).value :=
      value_traceProgram_eq_mapRoots ⟨other, config'⟩ ""
    rw [hresult "", hother, Program.root_mapRoots, Program.root_mapRoots, hroot]
    exact congrArg (Option.map · _) (funext (value_traceFile_congr "" "" hguard))
  · intro name context
    rw [hresult context]
    exact program.find?_mapRoots _ name
  · intro name
    rw [value_traceNamed?, hresult name, Program.find?_mapRoots, Option.map_map]
    rfl

end Pass

/-- Two units of one name around a unit of another name that has the tree of the first. -/
def Program.repeatedNames : Program :=
  ⟨[⟨"a.ts", Node.repeatedLabels⟩, ⟨"b.ts", Node.repeatedLabels⟩, ⟨"a.ts", Node.chainedLabels⟩]⟩

theorem Pass.traceProgram_repeatedNames :
    let result := (start Program.repeatedNames ⟨true⟩ []).value.1.traceProgram.value
    result.files = ["a.ts", "b.ts", "a.ts"] ∧
      Program.repeatedNames.units[1]?.map ProgramUnit.root =
        (Program.mk [⟨"c.ts", Node.repeatedLabels⟩]).units[0]?.map ProgramUnit.root ∧
      result.units[1]?.map ProgramUnit.root =
        (start ⟨[⟨"c.ts", Node.repeatedLabels⟩]⟩ ⟨true⟩ []).value.1.traceProgram.value.units[0]?.map
          ProgramUnit.root ∧
      result.find? "a.ts" =
        some ⟨"a.ts", (traceFile ⟨true⟩ "other.ts" Node.repeatedLabels).value⟩ ∧
      result.find? "d.ts" = none :=
  have h := traceProgram_unitwise Program.repeatedNames ⟨true⟩ []
  ⟨h.1, rfl, h.2.1 ⟨[⟨"c.ts", Node.repeatedLabels⟩]⟩ ⟨true⟩ [] 1 0 rfl rfl,
    h.2.2.1 "a.ts" "other.ts", h.2.2.1 "d.ts" "other.ts"⟩

end EntryTrace
