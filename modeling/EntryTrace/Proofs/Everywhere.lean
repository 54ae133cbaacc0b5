import EntryTrace.Tree.Descent
import EntryTrace.Tree.Traverse

/-! Properties that hold at every node of a tree, and how they pass between a tree, its subtrees and
a node rebuilt from other children. -/

namespace EntryTrace.Node

set_option autoImplicit false

variable {p q : Node → Prop} {n m c : Node}

theorem self_mem_preorder (n : Node) : n ∈ n.preorder := by
  rw [preorder_eq]
  exact List.mem_cons_self

theorem mem_preorder_iff : m ∈ n.preorder ↔ m = n ∨ ∃ c ∈ n.children, m ∈ c.preorder := by
  rw [preorder_eq, List.mem_cons, List.mem_flatMap]

theorem mem_preorder_trans (hc : c ∈ m.preorder) (hm : m ∈ n.preorder) : c ∈ n.preorder := by
  induction n using Node.induction with
  | step n ih =>
    rcases mem_preorder_iff.mp hm with rfl | ⟨child, hchild, hm⟩
    · exact hc
    · exact mem_preorder_iff.mpr (.inr ⟨child, hchild, ih child hchild hm⟩)

theorem mem_preorder_of_mem_children (hc : c ∈ n.children) : c ∈ n.preorder :=
  mem_preorder_iff.mpr (.inr ⟨c, hc, c.self_mem_preorder⟩)

/-- The property holds at the node and at every node below it. -/
def Everywhere (p : Node → Prop) (n : Node) : Prop := ∀ m ∈ n.preorder, p m

instance [DecidablePred p] : Decidable (n.Everywhere p) :=
  inferInstanceAs (Decidable (∀ m ∈ n.preorder, p m))

theorem everywhere_iff : n.Everywhere p ↔ p n ∧ ∀ c ∈ n.children, c.Everywhere p := by
  constructor
  · intro h
    refine ⟨h n n.self_mem_preorder, ?_⟩
    intro c hc m hm
    exact h m (mem_preorder_trans hm (mem_preorder_of_mem_children hc))
  · rintro ⟨hn, hchildren⟩ m hm
    rcases mem_preorder_iff.mp hm with rfl | ⟨c, hc, hm⟩
    · exact hn
    · exact hchildren c hc m hm

namespace Everywhere

theorem root (h : n.Everywhere p) : p n := h n n.self_mem_preorder

theorem child (h : n.Everywhere p) (hc : c ∈ n.children) : c.Everywhere p :=
  (everywhere_iff.mp h).2 c hc

theorem imp (h : n.Everywhere p) (hpq : ∀ m, p m → q m) : n.Everywhere q :=
  fun m hm => hpq m (h m hm)

end Everywhere

/-- Induction with the hypothesis at every node below the one in question, not only at its
children. -/
theorem deep_induction {P : Node → Prop}
    (step : ∀ n : Node, (∀ c ∈ n.children, c.Everywhere P) → P n) (n : Node) : P n := by
  have h : n.Everywhere P := by
    induction n using Node.induction with
    | step n ih => exact everywhere_iff.mpr ⟨step n ih, ih⟩
  exact h.root

theorem forall_children_mapChildren {f : Node → Node} :
    (∀ c ∈ (n.mapChildren f).children, p c) ↔ ∀ c ∈ n.children, p (f c) := by
  rw [children_mapChildren]
  exact List.forall_mem_map

/-- A node rebuilt from other children has the property everywhere when it has it itself and the
new children have it everywhere. -/
theorem everywhere_mapChildren {f : Node → Node} (hroot : p (n.mapChildren f))
    (hchildren : ∀ c ∈ n.children, (f c).Everywhere p) : (n.mapChildren f).Everywhere p := by
  refine everywhere_iff.mpr ⟨hroot, ?_⟩
  exact forall_children_mapChildren.mpr hchildren

end EntryTrace.Node
