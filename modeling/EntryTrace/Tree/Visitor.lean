import EntryTrace.Tree.Traverse

/-!
# Visitors

A visitor has a state and changes it when a walk enters a node and when it leaves one. What is kept
in the state is up to the visitor: how often each kind was met, the names of the labels, or the
moments themselves.
-/

namespace EntryTrace

set_option autoImplicit false

structure Visitor (σ : Type) where
  enter : Node → σ → σ := fun _ s => s
  leave : Node → σ → σ := fun _ s => s

namespace Visitor

variable {σ : Type}

/-- Enters the node, walks over its children one after another, and leaves it. -/
def walk (v : Visitor σ) (n : Node) : σ → σ :=
  n.fold fun (own : Node) (form : Form (σ → σ)) (s : σ) =>
    v.leave own (form.children.foldl (fun s below => below s) (v.enter own s))

/-- Walks over several trees, one after another. -/
def walkAll (v : Visitor σ) (ns : List Node) (s : σ) : σ := ns.foldl (fun s n => v.walk n s) s

@[simp] theorem walkAll_nil (v : Visitor σ) (s : σ) : v.walkAll [] s = s := rfl

@[simp] theorem walkAll_cons (v : Visitor σ) (n : Node) (ns : List Node) (s : σ) :
    v.walkAll (n :: ns) s = v.walkAll ns (v.walk n s) :=
  rfl

theorem walk_eq (v : Visitor σ) (n : Node) (s : σ) :
    v.walk n s = v.leave n (v.walkAll n.children (v.enter n s)) := by
  unfold walk
  rw [Node.fold_eq, Form.children_map, List.foldl_map]
  rfl

end Visitor

/-- How often each kind was met, for the kinds that were met. -/
structure Tally where
  entries : List (Kind × Nat) := []
  deriving DecidableEq, Repr

namespace Tally

/-- Counts a kind once more, from zero if it is new. -/
def raise (kind : Kind) : List (Kind × Nat) → List (Kind × Nat)
  | [] => [(kind, 1)]
  | (k, number) :: entries =>
    if k = kind then (k, number + 1) :: entries else (k, number) :: raise kind entries

def add (t : Tally) (kind : Kind) : Tally := ⟨raise kind t.entries⟩

/-- How often the kind was met; zero for one that was not. -/
def count (t : Tally) (kind : Kind) : Nat := (t.entries.lookup kind).getD 0

/-- How many nodes were met. -/
def total (t : Tally) : Nat := t.entries.foldr (fun entry number => entry.2 + number) 0

end Tally

namespace Visitor

/-- Counts the nodes that are entered, kind by kind. -/
def counter : Visitor Tally where
  enter n t := t.add n.kind

/-- Collects the names of the labels. -/
def labelCollector : Visitor (List String) where
  enter n names := names ++ n.labelName?.toList

/-- Writes down every moment. -/
def recorder : Visitor (List (Moment Node)) where
  enter n moments := moments ++ [.enter n]
  leave n moments := moments ++ [.leave n]

/-- Writes down the mark of every moment. -/
def marks : Visitor (List String) where
  enter n marks := marks ++ [Moment.mark (.enter n.kind)]
  leave n marks := marks ++ [Moment.mark (.leave n.kind)]

end Visitor

end EntryTrace
