import EntryTrace.Tree.Node

/-!
# Walking over trees

A walk enters a node, walks over its children from first to last, and leaves it. Its trace lists
the two moments of every node; `preorder` lists the nodes as they are entered and `postorder` as
they are left. Counts and label names are read off the nodes in the order of `preorder`.
-/

namespace EntryTrace

set_option autoImplicit false

/-- The two moments at which a walk meets a node, with what is noted of the node. -/
inductive Moment (α : Type) where
  | enter (noted : α)
  | leave (noted : α)
  deriving DecidableEq, Repr

namespace Moment

def map {α β : Type} (f : α → β) : Moment α → Moment β
  | enter a => enter (f a)
  | leave a => leave (f a)

/-- The kind of the node in words, signed by the moment. -/
def mark : Moment Kind → String
  | enter kind => "+" ++ kind.phrase
  | leave kind => "-" ++ kind.phrase

end Moment

namespace Node

/-- The node and all nodes below it, each before its children. -/
def preorder (n : Node) : List Node :=
  n.fold fun (own : Node) (form : Form (List Node)) => own :: form.children.flatten

theorem preorder_eq (n : Node) : n.preorder = n :: n.children.flatMap preorder := by
  unfold preorder
  rw [fold_eq]
  simp [children, List.flatMap]

/-- The node and all nodes below it, each after its children. -/
def postorder (n : Node) : List Node :=
  n.fold fun (own : Node) (form : Form (List Node)) => form.children.flatten ++ [own]

theorem postorder_eq (n : Node) : n.postorder = n.children.flatMap postorder ++ [n] := by
  unfold postorder
  rw [fold_eq]
  simp [children, List.flatMap]

/-- What a walk over the tree meets, in order. -/
def trace (n : Node) : List (Moment Node) :=
  n.fold fun (own : Node) (form : Form (List (Moment Node))) =>
    .enter own :: (form.children.flatten ++ [.leave own])

theorem trace_eq (n : Node) :
    n.trace = .enter n :: (n.children.flatMap trace ++ [.leave n]) := by
  unfold trace
  rw [fold_eq]
  simp [children, List.flatMap]

/-- The number of nodes of a kind. -/
def count (kind : Kind) (n : Node) : Nat := n.preorder.countP fun m => m.kind == kind

/-- The number of nodes. -/
def size (n : Node) : Nat := n.preorder.length

/-- The name of the label, when the node is a labeled statement whose label is an identifier. -/
def labelName? (n : Node) : Option String :=
  match n.form with
  | .labeledStatement label _ => label.identifier?
  | _ => none

/-- The names of all labels, outer ones before those inside them. -/
def labelNames (n : Node) : List String := n.preorder.filterMap labelName?

end Node

end EntryTrace
