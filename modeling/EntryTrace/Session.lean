import EntryTrace.Instrument.Pass

/-!
# Sessions

A session works on one tree, step by step: it applies the pass or a part of it, edits the tree, or
picks another. Edits are visit functions of their own; the session reports which nodes they were
handed.
-/

namespace EntryTrace

set_option autoImplicit false

inductive Edit where
  | keep
  | instrument
  | rename (old new : String)
  | replace (kind : Kind) (replacement : Node)
  | annotate (kind : Option Kind) (comment : Comment)

/-- What happens while an edit is under way: it is handed a node, or it logs an event. -/
inductive Occurrence where
  | handed (kind : Kind)
  | logged (event : Event)

namespace Edit

def apply (s : Setting) (edit : Edit) (n : Node) : Logged Event Node :=
  match edit with
  | keep => return n
  | instrument => s.visit n
  | rename old new => return if n.identifier? = some old then .identifier new else n
  | replace kind replacement => return if n.kind = kind then replacement else n
  | annotate kind comment =>
    return if kind.all (n.kind = ·) then n.addComment comment else n

def visit (s : Setting) (edit : Edit) (n : Node) : Logged Occurrence Node := do
  Logged.emit (.handed n.kind)
  (edit.apply s n).mapLog .logged

/-- Levels enough for every walk with this edit that ends: a replacement only adds its own height. -/
def fuel (edit : Edit) (n : Node) : Nat :=
  match edit with
  | replace _ replacement => n.weight + replacement.weight + 1
  | _ => n.weight + 1

end Edit

structure Session where
  node : Node
  setting : Setting

namespace Session

inductive Step where
  | pass
  | visit
  | visitLabeled
  | instrumentFunction
  | enclose (record : EntryRecord)
  | descend
  | editChildren (edit : Edit)
  | editAll (edit : Edit)
  | relabel (label : String)
  | comment (comment : Comment)
  | child (index : Nat)
  | double
  | guard (skipMarked : Bool)
  | choose (node : Node)

/-- The outcome of a step: the session after it, what was logged, the kinds of the nodes that an edit
was handed, and a remark. -/
structure Outcome where
  session : Session
  log : List Entry := []
  handed : List Kind := []
  remark : Option String := none

namespace Outcome

def ofEvents (s : Session) (node : Logged Event Node) : Outcome where
  session := { s with node := node.value }
  log := node.log.map fun event => ⟨event, []⟩

def ofOccurrences (s : Session) (node : Logged Occurrence Node) : Outcome where
  session := { s with node := node.value }
  log := node.log.filterMap fun
    | .logged event => some ⟨event, []⟩
    | .handed _ => none
  handed := node.log.filterMap fun
    | .handed kind => some kind
    | .logged _ => none

def ofNode (s : Session) (node : Node) : Outcome where
  session := { s with node := node }

end Outcome

/-- The tree after starting the pass, without program and diagnostics, and applying it. -/
def afterPass (s : Session) : Logged Entry Node := do
  let (pass, _) ← (Pass.start ⟨[]⟩ s.setting.config []).mapLog fun event => ⟨event, []⟩
  Pass.traceFile pass.config s.setting.file s.node

/-- An edit of the whole tree. One that would never end leaves the tree as it is. -/
def editAll (s : Session) (edit : Edit) : Logged Occurrence Node :=
  (Node.descend? (edit.visit s.setting) (edit.fuel s.node) s.node).getD (pure s.node)

def step (s : Session) : Step → Outcome
  | .pass => ⟨{ s with node := s.afterPass.value }, s.afterPass.log, [], none⟩
  | .visit => .ofEvents s (s.setting.visit s.node)
  | .visitLabeled => .ofEvents s (s.setting.visitLabeled s.node)
  | .instrumentFunction =>
    let traced := s.setting.instrument? s.node
    { Outcome.ofEvents s ⟨traced.value.getD s.node, traced.log⟩ with
      remark := some (if traced.value.isSome then "instrumented" else "unchanged") }
  | .enclose record => .ofNode s (record.enclose s.node)
  | .descend =>
    { Outcome.ofEvents s (s.setting.descent.run s.node) with remark := some s.setting.file }
  | .editChildren edit => .ofOccurrences s (s.node.mapChildrenM (edit.visit s.setting))
  | .editAll edit => .ofOccurrences s (s.editAll edit)
  | .relabel label => .ofNode s (.labeled label s.node)
  | .comment comment => .ofNode s (s.node.addComment comment)
  | .child index => .ofNode s (s.node.children[index]?.getD s.node)
  | .double => .ofNode s (.block [s.node, s.node])
  | .guard skipMarked =>
    { session := { s with setting := { s.setting with config := ⟨skipMarked⟩ } } }
  | .choose node => .ofNode s node

/-- The outcomes of steps taken one after another. -/
def run (s : Session) : List Step → List Outcome
  | [] => []
  | first :: others => s.step first :: run (s.step first).session others

end Session

end EntryTrace
