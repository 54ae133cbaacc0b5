import EntryTrace.Proofs.Calls

/-!
# Visit functions with a state

A visit function may keep a state: each of its calls starts in the state that the call before it has
left. When the children of a node are replaced by such a function, it is called on the children as
they are listed, from first to last. What the calls return are the children of the new node, and in
all else the new node is the old one.
-/

namespace EntryTrace

set_option autoImplicit false

variable {σ : Type}

/-- A visit function that keeps a state. -/
abbrev StatefulVisit (σ : Type) : Type := Node → StateM σ Node

/-- One call of a visit function, with the states in which it started and ended. -/
structure StatefulCall (σ : Type) extends Call where
  before : σ
  after : σ
  deriving DecidableEq

namespace StatefulVisit

/-! ### Runs -/

theorem run_pure {α : Type} (a : α) (s : σ) : (pure a : StateM σ α).run s = (a, s) := rfl

theorem run_bind {α β : Type} (x : StateM σ α) (f : α → StateM σ β) (s : σ) :
    (x >>= f).run s = (f (x.run s).1).run (x.run s).2 :=
  rfl

theorem run_map {α β : Type} (f : α → β) (x : StateM σ α) (s : σ) :
    (f <$> x).run s = (f (x.run s).1, (x.run s).2) :=
  rfl

/-- No step changes the construct it belongs to. -/
theorem shape_run_mapM {α β : Type} (f : α → StateM σ β) (form : Form α) (s : σ) :
    ((form.mapM f).run s).1.shape = form.shape := by
  have hlist (as : List α) (s : σ) :
      ((as.mapM f).run s).1.map (fun _ => ()) = as.map fun _ => () := by
    induction as generalizing s with
    | nil => rfl
    | cons a as ih => simp only [List.mapM_cons, run_bind, run_pure, List.map_cons, ih]
  have hoption (o : Option α) (s : σ) :
      ((o.mapM f).run s).1.map (fun _ => ()) = o.map fun _ => () := by
    cases o <;> rfl
  cases form <;>
    simp only [Form.mapM, Form.shape, Form.map, run_bind, run_pure, hlist, hoption]

theorem exists_run_mapChildrenM {f : StatefulVisit σ} {n : Node} {s last : σ} {results : List Node}
    (h : (n.children.mapM f).run s = (results, last)) :
    ∃ result : Node, (n.mapChildrenM f).run s = (result, last) ∧ result.own = n.own ∧
      result.children = results := by
  have hchildren : (Form.children <$> n.form.mapM f).run s = (results, last) := by
    rw [Form.children_mapM]
    exact h
  rw [run_map] at hchildren
  obtain ⟨hresults, hlast⟩ := Prod.mk.inj hchildren
  refine ⟨{ n with form := ((n.form.mapM f).run s).1 }, ?_, ?_, hresults⟩
  · rw [Node.mapChildrenM, run_bind, run_pure, ← hlast]
  · unfold Node.own
    rw [shape_run_mapM]

/-! ### Calls -/

/-- The calls of the visit function took place one after another between the two states. -/
def Threaded (f : StatefulVisit σ) : σ → List (StatefulCall σ) → σ → Prop
  | first, [], last => first = last
  | first, call :: calls, last =>
    call.before = first ∧ (f call.handed).run first = (call.returned, call.after) ∧
      Threaded f call.after calls last

/-- The visit function with its calls written down beside its state. -/
def recording (f : StatefulVisit σ) : StatefulVisit (σ × List (StatefulCall σ)) := fun n => do
  let (before, calls) ← get
  let (returned, after) := (f n).run before
  set (after, calls ++ [⟨⟨n, returned⟩, before, after⟩])
  return returned

theorem run_recording (f : StatefulVisit σ) (n : Node) (s : σ) (calls : List (StatefulCall σ)) :
    (f.recording n).run (s, calls) =
      (((f n).run s).1, ((f n).run s).2,
        calls ++ [⟨⟨n, ((f n).run s).1⟩, s, ((f n).run s).2⟩]) :=
  rfl

theorem exists_threaded (f : StatefulVisit σ) (ns : List Node) (s : σ) :
    ∃ (calls : List (StatefulCall σ)) (last : σ),
      Threaded f s calls last ∧ (calls.map fun call => call.handed) = ns ∧
      (ns.mapM f).run s = (calls.map fun call => call.returned, last) ∧
      ∀ earlier, (ns.mapM f.recording).run (s, earlier) =
        (calls.map fun call => call.returned, last, earlier ++ calls) := by
  induction ns generalizing s with
  | nil =>
    refine ⟨[], s, rfl, rfl, rfl, fun earlier => ?_⟩
    rw [List.append_nil]
    rfl
  | cons n ns ih =>
    -- the calls for the other nodes start in the state that the first has left
    obtain ⟨calls, last, hthreaded, hhanded, hrun, hrecorded⟩ := ih ((f n).run s).2
    refine ⟨⟨⟨n, ((f n).run s).1⟩, s, ((f n).run s).2⟩ :: calls, last, ⟨rfl, rfl, hthreaded⟩,
      ?_, ?_, fun earlier => ?_⟩
    · rw [List.map_cons, hhanded]
    · simp only [List.mapM_cons, run_bind, run_pure, hrun, List.map_cons]
    · simp only [List.mapM_cons, run_bind, run_pure, run_recording, hrecorded, List.map_cons,
        List.append_assoc, List.singleton_append]

theorem Threaded.returned_eq {f : StatefulVisit σ} {s last : σ} {calls : List (StatefulCall σ)}
    (h : Threaded f s calls last) :
    ∀ call ∈ calls, ((f call.handed).run call.before).1 = call.returned := by
  induction calls generalizing s with
  | nil => simp
  | cons first calls ih =>
    obtain ⟨rfl, hrun, hothers⟩ := h
    exact List.forall_mem_cons.mpr ⟨congrArg Prod.fst hrun, ih hothers⟩

end StatefulVisit

namespace Node

open StatefulVisit

theorem kind_of_own_eq {n m : Node} (h : n.own = m.own) : n.kind = m.kind := by
  have hshape := congrArg (fun own : Own => own.shape.kind) h
  simpa [own, Form.shape, kind] using hshape

/-- Replacing the children calls the visit function on each child once, in the order of the list,
and puts what it returns in the place of the child. -/
theorem mapChildrenM_threaded (f : StatefulVisit σ) (n : Node) (s : σ) :
    (∃ (result : Node) (last : σ) (calls : List (StatefulCall σ)),
      (n.mapChildrenM f).run s = (result, last) ∧
      (n.mapChildrenM f.recording).run (s, []) = (result, last, calls) ∧
      f.Threaded s calls last ∧
      (calls.map fun call => call.handed) = n.children ∧
      result.children = (calls.map fun call => call.returned) ∧
      result.kind = n.kind ∧ result.span = n.span ∧ result.comments = n.comments ∧
      result.form.shape = n.form.shape ∧
      ((∀ c ∈ n.children, ∀ t, ((f c).run t).1 = c) → result = n)) ∧
    (∀ g : Node → Node, (n.mapChildrenM fun c => (pure (g c) : StateM σ Node)).run s =
      (n.mapChildren g, s)) ∧
    (n.mapChildrenM fun c => (pure c : StateM σ Node)).run s = (n, s) := by
  have hpure (g : Node → Node) : (n.mapChildrenM fun c => (pure (g c) : StateM σ Node)).run s =
      (n.mapChildren g, s) := by
    rw [mapChildrenM, Form.mapM_pure]
    rfl
  refine ⟨?_, hpure, ?_⟩
  · obtain ⟨calls, last, hthreaded, hhanded, hrun, hrecorded⟩ := f.exists_threaded n.children s
    obtain ⟨result, hresult, hown, hchildren⟩ := exists_run_mapChildrenM hrun
    obtain ⟨result', hresult', hown', hchildren'⟩ := exists_run_mapChildrenM (hrecorded [])
    obtain rfl : result' = result :=
      eq_of_own_eq (hown'.trans hown.symm) (hchildren'.trans hchildren.symm)
    obtain ⟨hshape, hspan, hcomments⟩ := Own.mk.inj hown
    refine ⟨result', last, calls, hresult, hresult', hthreaded, hhanded, hchildren,
      kind_of_own_eq hown, hspan, hcomments, hshape, fun hsame => ?_⟩
    apply eq_of_own_eq hown
    rw [hchildren, ← hhanded]
    apply List.map_congr_left
    intro call hcall
    have hchild : call.handed ∈ n.children := hhanded ▸ List.mem_map_of_mem hcall
    rw [← hthreaded.returned_eq call hcall, hsame call.handed hchild]
  · rw [hpure fun c => c, mapChildren_eq_self fun c _ => rfl]

/-- Puts every second child into a block of its own. -/
def alternately : StatefulVisit Nat := fun c => do
  let number ← get
  set (number + 1)
  return if number % 2 = 0 then c else block [c]

/-- A function of which every slot is filled: a slot with one child, a list and another slot. -/
theorem mapChildrenM_alternately :
    let a := ofForm (.parameter (identifier "a") none)
    let b := ofForm (.parameter (identifier "b") none)
    let n := function (some "f") [a, b] (some (block []))
    let result := ofForm (.functionDeclaration (some (identifier "f")) [block [a], b]
      (some (block [block []])))
    (n.mapChildrenM alternately).run 0 = (result, 4) ∧
      result.form.shape = n.form.shape ∧
      ∃ calls : List (StatefulCall Nat),
        (n.mapChildrenM alternately.recording).run (0, []) = (result, 4, calls) ∧
        alternately.Threaded 0 calls 4 ∧
        (calls.map fun call => call.handed) = [identifier "f", a, b, block []] := by
  intro a b n result
  have hrun : (n.mapChildrenM alternately).run 0 = (result, 4) := rfl
  obtain ⟨result', last, calls, hresult, hrecorded, hthreaded, hhanded, _, _, _, _, hshape, _⟩ :=
    (mapChildrenM_threaded alternately n 0).1
  obtain ⟨rfl, rfl⟩ := Prod.mk.inj (hresult.symm.trans hrun)
  exact ⟨hrun, hshape, calls, hrecorded, hthreaded, hhanded⟩

end Node

end EntryTrace
