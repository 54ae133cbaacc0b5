import EntryTrace.Tree.Descent

/-!
# Replacing the children of a node

Replacing the children by effectful steps takes them from first to last: the values of the steps are
the children of the new node, and their logs follow one another in that order.
-/

namespace EntryTrace

set_option autoImplicit false

/-! ### Values -/

@[simp] theorem Logged.value_map {ε α β : Type} (f : α → β) (x : Logged ε α) :
    (f <$> x).value = f x.value :=
  rfl

theorem Logged.value_mapM {ε α β : Type} (f : α → Logged ε β) (as : List α) :
    (as.mapM f).value = as.map fun a => (f a).value := by
  induction as with
  | nil => rfl
  | cons a as ih => simp [List.mapM_cons, ih]

theorem Form.value_mapM {ε α β : Type} (f : α → Logged ε β) (form : Form α) :
    (form.mapM f).value = form.map fun a => (f a).value := by
  have hoption (o : Option α) : (o.mapM f).value = o.map fun a => (f a).value := by
    cases o <;> rfl
  cases form <;> simp [mapM, map, Logged.value_mapM, hoption]

namespace Node

variable {f g : Node → Node}

@[simp] theorem kind_mapChildren (f : Node → Node) (n : Node) :
    (n.mapChildren f).kind = n.kind :=
  Form.kind_map f n.form

theorem mapChildren_mapChildren (f g : Node → Node) (n : Node) :
    (n.mapChildren f).mapChildren g = n.mapChildren fun c => g (f c) := by
  simp [mapChildren, Form.map_map]

theorem mapChildren_congr {n : Node} (h : ∀ c ∈ n.children, f c = g c) :
    n.mapChildren f = n.mapChildren g := by
  unfold mapChildren
  rw [Form.map_congr h]

theorem mapChildren_eq_self {n : Node} (h : ∀ c ∈ n.children, f c = c) : n.mapChildren f = n := by
  rw [mapChildren_congr h, mapChildren, Form.map_id]
  cases n
  rfl

theorem value_mapChildrenM {ε : Type} (f : Node → Logged ε Node) (n : Node) :
    (n.mapChildrenM f).value = n.mapChildren fun c => (f c).value := by
  simp [mapChildrenM, mapChildren, Form.value_mapM]

end Node

/-! ### Logs -/

@[simp] theorem Logged.log_map {ε α β : Type} (f : α → β) (x : Logged ε α) :
    (f <$> x).log = x.log :=
  List.append_nil x.log

theorem Logged.log_mapM {ε α β : Type} (f : α → Logged ε β) (as : List α) :
    (as.mapM f).log = as.flatMap fun a => (f a).log := by
  induction as with
  | nil => rfl
  | cons a as ih => simp [List.mapM_cons, ih]

/-- The steps at the children log one after another, in the order of the children. -/
theorem Form.log_mapM {ε α β : Type} (f : α → Logged ε β) (form : Form α) :
    (form.mapM f).log = form.children.flatMap fun a => (f a).log := by
  have hoption (o : Option α) : (o.mapM f).log = o.toList.flatMap fun a => (f a).log := by
    cases o with
    | none => rfl
    | some a => simp
  cases form <;> simp [mapM, children, Logged.log_mapM, hoption]

theorem Node.log_mapChildrenM {ε : Type} (f : Node → Logged ε Node) (n : Node) :
    (n.mapChildrenM f).log = n.children.flatMap fun c => (f c).log := by
  unfold mapChildrenM
  rw [Logged.log_bind, Logged.log_pure, List.append_nil, Form.log_mapM]
  rfl

/-! ### Steps in any monad -/

/-- The children of a form rebuilt by effectful steps are what the steps gave, taken one after another
from the first child to the last. -/
theorem Form.children_mapM {m : Type → Type} [Monad m] [LawfulMonad m] {α β : Type} (f : α → m β)
    (form : Form α) : children <$> form.mapM f = form.children.mapM f := by
  have hoption (o : Option α) : Option.toList <$> o.mapM f = o.toList.mapM f := by
    cases o <;> simp
  cases form <;> simp [mapM, children, ← hoption]

/-- What is done to the result of each step may be done to the rebuilt form instead. -/
theorem Form.map_mapM {m : Type → Type} [Monad m] [LawfulMonad m] {α β γ : Type} (f : α → m β)
    (g : β → γ) (form : Form α) : map g <$> form.mapM f = form.mapM fun a => g <$> f a := by
  have hlist (as : List α) : (as.mapM fun a => g <$> f a) = List.map g <$> as.mapM f := by
    induction as with
    | nil => simp
    | cons a as ih => simp [List.mapM_cons, ih]
  have hoption (o : Option α) : (o.mapM fun a => g <$> f a) = Option.map g <$> o.mapM f := by
    cases o <;> simp
  cases form <;> simp [mapM, map, hlist, hoption]

theorem isSome_of_list_mapM {α β : Type} {f : α → Option β} {as : List α} {bs : List β}
    (h : as.mapM f = some bs) : ∀ a ∈ as, (f a).isSome := by
  induction as generalizing bs with
  | nil => simp
  | cons a as ih =>
    simp only [List.mapM_cons, Option.bind_eq_bind, Option.bind_eq_some_iff] at h
    obtain ⟨b, hb, others, hothers, _⟩ := h
    rw [List.forall_mem_cons]
    exact ⟨by rw [hb]; rfl, ih hothers⟩

/-- Steps that may fail rebuild a form only when none of them fails. -/
theorem Form.isSome_of_mapM {α β : Type} {f : α → Option β} {form : Form α} {result : Form β}
    (h : form.mapM f = some result) : ∀ a ∈ form.children, (f a).isSome := by
  have hchildren := form.children_mapM f
  rw [h] at hchildren
  exact isSome_of_list_mapM hchildren.symm

end EntryTrace
