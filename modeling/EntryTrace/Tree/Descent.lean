import EntryTrace.Log
import EntryTrace.Tree.Node

/-!
# Descending a tree

A visit function is handed a node and returns another in its place. The walk goes on with the
children of the node that was returned, so a visit decides which children are seen. Such a walk
need not end: `descend?` goes at most `fuel` levels down and otherwise gives up. A `Descent` has a
weight that drops from each node to the children of its replacement, so that its walk always ends
(`Descent.run`), and the walk is what one would write without thinking of its end
(`Descent.run_eq`).
-/

namespace EntryTrace

set_option autoImplicit false

namespace Node

variable {ε : Type}

/-- Replaces every child. -/
def mapChildren (f : Node → Node) (n : Node) : Node := { n with form := n.form.map f }

/-- Replaces every child by an effectful step, from the first child to the last. -/
def mapChildrenM {m : Type → Type} [Monad m] (f : Node → m Node) (n : Node) : m Node := do
  return { n with form := ← n.form.mapM f }

@[simp] theorem children_mapChildren (f : Node → Node) (n : Node) :
    (n.mapChildren f).children = n.children.map f := by
  simp [mapChildren, children]

/-- Visits a node, then walks over the children of the result, at most `fuel` levels down. -/
def descend? (visit : Node → Logged ε Node) : Nat → Node → Option (Logged ε Node)
  | 0, _ => none
  | fuel + 1, n =>
    ((visit n).value.form.mapM (descend? visit fuel)).map fun walked => do
      let visited ← visit n
      return { visited with form := ← walked.mapM id }

/-- When the walks over the children end, so does the walk over the node. -/
theorem descend?_succ {visit : Node → Logged ε Node} {fuel : Nat} {n : Node}
    {walk : Node → Logged ε Node}
    (h : ∀ c ∈ (visit n).value.children, descend? visit fuel c = some (walk c)) :
    descend? visit (fuel + 1) n = some (visit n >>= fun visited => visited.mapChildrenM walk) := by
  simp only [descend?, Form.mapM_eq_some h, Option.map_some, mapChildrenM, Form.mapM_map, id_eq]
  rfl

theorem descend?_eq_getD {visit : Node → Logged ε Node} {fuel : Nat} {n : Node}
    (h : (descend? visit fuel n).isSome) :
    descend? visit fuel n = some ((descend? visit fuel n).getD (visit n)) :=
  (Option.getD_of_ne_none (Option.isSome_iff_ne_none.mp h) (visit n)).symm

theorem isSome_descend?_succ {visit : Node → Logged ε Node} {fuel : Nat} {n : Node}
    (h : ∀ c ∈ (visit n).value.children, (descend? visit fuel c).isSome) :
    (descend? visit (fuel + 1) n).isSome := by
  rw [descend?_succ fun c hc => descend?_eq_getD (h c hc)]
  rfl

end Node

/-- A visit function with a weight that drops from each node to the children of its replacement. -/
structure Descent (ε : Type) where
  visit : Node → Logged ε Node
  weight : Node → Nat
  weight_lt : ∀ n, ∀ c ∈ (visit n).value.children, weight c < weight n

namespace Descent

variable {ε : Type}

theorem isSome_descend? (v : Descent ε) {fuel : Nat} {n : Node} (h : v.weight n < fuel) :
    (Node.descend? v.visit fuel n).isSome := by
  induction fuel generalizing n with
  | zero => omega
  | succ fuel ih =>
    apply Node.isSome_descend?_succ
    intro c hc
    have hlight := v.weight_lt n c hc
    exact ih (by omega)

/-- Visits every node from the root down. -/
def run (v : Descent ε) (n : Node) : Logged ε Node :=
  (Node.descend? v.visit (v.weight n + 1) n).get (v.isSome_descend? (Nat.lt_succ_self _))

/-- More fuel than the weight of the node changes nothing. -/
theorem descend?_eq_run (v : Descent ε) {fuel : Nat} {n : Node} (h : v.weight n < fuel) :
    Node.descend? v.visit fuel n = some (v.run n) := by
  induction fuel using Nat.strongRecOn generalizing n with
  | ind fuel ih =>
    have hwalk : ∀ k, v.weight n ≤ k → k < fuel →
        Node.descend? v.visit (k + 1) n =
          some (v.visit n >>= fun visited => visited.mapChildrenM v.run) := by
      intro k hk hlt
      apply Node.descend?_succ
      intro c hc
      have hlight := v.weight_lt n c hc
      exact ih k hlt (by omega)
    obtain ⟨k, rfl⟩ : ∃ k, fuel = k + 1 := ⟨fuel - 1, by omega⟩
    rw [hwalk k (by omega) (by omega)]
    have hown := hwalk (v.weight n) (Nat.le_refl _) h
    simp only [run, hown, Option.get_some]

/-- The walk visits the node and walks over the children of what the visit returned. -/
theorem run_eq (v : Descent ε) (n : Node) :
    v.run n = v.visit n >>= fun visited => visited.mapChildrenM v.run := by
  have hchildren : ∀ c ∈ (v.visit n).value.children,
      Node.descend? v.visit (v.weight n) c = some (v.run c) :=
    fun c hc => v.descend?_eq_run (v.weight_lt n c hc)
  have hfuel := v.descend?_eq_run (Nat.lt_succ_self (v.weight n))
  rw [Nat.succ_eq_add_one, Node.descend?_succ hchildren] at hfuel
  exact (Option.some.inj hfuel).symm

end Descent

end EntryTrace
