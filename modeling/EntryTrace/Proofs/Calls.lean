import EntryTrace.Proofs.Children
import EntryTrace.Proofs.WalkTrace
import EntryTrace.Tree.Build

/-!
# The calls of a visit function

A rewriting walk hands nodes to a visit function and goes on with the children of whatever comes
back. What it hands over is worked off an agenda: it starts with the root, and each call puts the
children of the node that it returned in front. A returned node and the node that ends up in its
place agree in all but the children, so the calls of a walk that ends are the nodes of its result,
each before those below it. A visit function that leaves the children of every node as they are is
handed the nodes of the original tree, in the same order.
-/

namespace EntryTrace

set_option autoImplicit false

/-- What a node holds besides its children: the form with blank slots, the span and the comments. -/
structure Own where
  shape : Form Unit
  span : Span
  comments : List Comment
  deriving DecidableEq

/-- One call of a visit function. -/
structure Call where
  handed : Node
  returned : Node
  deriving DecidableEq

namespace Node

variable {ε : Type} {visit : Node → Logged ε Node} {fuel : Nat} {n m : Node}

def own (n : Node) : Own := ⟨n.form.shape, n.span, n.comments⟩

theorem own_mapChildren (f : Node → Node) (n : Node) : (n.mapChildren f).own = n.own := by
  simp [own, mapChildren]

theorem eq_of_own_eq (h : n.own = m.own) (hchildren : n.children = m.children) : n = m := by
  rcases n with ⟨form, span, comments⟩
  rcases m with ⟨form', span', comments'⟩
  obtain ⟨hshape, rfl, rfl⟩ := Own.mk.inj h
  obtain rfl : form = form' := Form.ext hshape hchildren
  rfl

/-- A tree is determined by what its nodes hold besides their children and by how they are
arranged. -/
theorem eq_of_rose_own_eq (h : n.rose own = m.rose own) : n = m := by
  induction n using Node.induction generalizing m with
  | step n ih =>
    rw [rose_eq, rose_eq own m] at h
    obtain ⟨hown, hchildren⟩ := Rose.node.inj h
    have hbelow : n.children.map id = m.children.map id :=
      map_eq_of_map_eq (fun c hc d => ih c hc) hchildren
    exact eq_of_own_eq hown (by simpa using hbelow)

/-! ### Walks that end -/

/-- A walk that ends has ended below each child of what the first visit returned. -/
theorem exists_walk_of_descend? {r : Logged ε Node} (h : descend? visit (fuel + 1) n = some r) :
    ∃ walk : Node → Logged ε Node,
      (∀ c ∈ (visit n).value.children, descend? visit fuel c = some (walk c)) ∧
      r = visit n >>= fun visited => visited.mapChildrenM walk := by
  obtain ⟨walked, hwalked, _⟩ := Option.map_eq_some_iff.mp h
  have hbelow : ∀ c ∈ (visit n).value.children,
      descend? visit fuel c = some ((descend? visit fuel c).getD (visit c)) :=
    fun c hc => descend?_eq_getD (Form.isSome_of_mapM hwalked c hc)
  rw [descend?_succ hbelow] at h
  exact ⟨_, hbelow, (Option.some.inj h).symm⟩

/-- The visit function with its calls for a log. -/
def calling (visit : Node → Logged ε Node) (n : Node) : Logged Call Node :=
  ⟨(visit n).value, [⟨n, (visit n).value⟩]⟩

/-- What the visit function itself makes of calls that were written down. -/
def replay (visit : Node → Logged ε Node) (r : Logged Call Node) : Logged ε Node :=
  ⟨r.value, r.log.flatMap fun call => (visit call.handed).log⟩

/-- Writing down the calls does not change the walk. -/
theorem descend?_eq_replay (visit : Node → Logged ε Node) (fuel : Nat) (n : Node) :
    descend? visit fuel n = (descend? (calling visit) fuel n).map (replay visit) := by
  induction fuel generalizing n with
  | zero => rfl
  | succ fuel ih =>
    have hwalks : (visit n).value.form.mapM (descend? visit fuel) =
        ((visit n).value.form.mapM (descend? (calling visit) fuel)).map (Form.map (replay visit)) := by
      rw [funext ih]
      exact (Form.map_mapM (descend? (calling visit) fuel) (replay visit) _).symm
    simp only [descend?, hwalks, Option.map_map]
    apply congrArg (Option.map · _)
    funext walked
    apply Logged.ext
    · simp [Form.value_mapM, Form.map_map, replay, calling]
    · simp [Form.log_mapM, List.flatMap_map, List.flatMap_assoc, replay, calling]

/-- Induction along a walk that ends: from the walks below the node that a visit returned. -/
theorem calls_induction {P : Node → List Call → Node → Prop}
    (step : ∀ (n : Node) (calls : Node → List Call) (result : Node → Node),
      (∀ c ∈ (visit n).value.children, P c (calls c) (result c)) →
      P n (⟨n, (visit n).value⟩ :: (visit n).value.children.flatMap calls)
        ((visit n).value.mapChildren result))
    {r : Logged Call Node} (h : descend? (calling visit) fuel n = some r) : P n r.log r.value := by
  induction fuel generalizing n r with
  | zero => simp [descend?] at h
  | succ fuel ih =>
    obtain ⟨walk, hwalk, rfl⟩ := exists_walk_of_descend? h
    have hn := step n (fun c => (walk c).log) (fun c => (walk c).value) fun c hc => ih (hwalk c hc)
    rw [Logged.log_bind, Logged.value_bind, log_mapChildrenM, value_mapChildrenM]
    exact hn

theorem returned_eq {r : Logged Call Node} (h : descend? (calling visit) fuel n = some r) :
    ∀ call ∈ r.log, call.returned = (visit call.handed).value := by
  refine calls_induction
    (P := fun _ calls _ => ∀ call ∈ calls, call.returned = (visit call.handed).value) ?_ h
  intro n calls result ih call hcall
  rcases List.mem_cons.mp hcall with rfl | hcall
  · rfl
  · obtain ⟨c, hc, hcall⟩ := List.mem_flatMap.mp hcall
    exact ih c hc call hcall

/-- Each returned node is, but for its children, the node of the result at the same place. -/
theorem own_returned {r : Logged Call Node} (h : descend? (calling visit) fuel n = some r) :
    r.log.map (fun call => call.returned.own) = r.value.preorder.map own := by
  refine calls_induction
    (P := fun _ calls result => calls.map (fun call => call.returned.own) = result.preorder.map own)
    ?_ h
  intro n calls result ih
  rw [preorder_eq, List.map_cons, List.map_cons, own_mapChildren, children_mapChildren,
    List.flatMap_map, List.map_flatMap, List.map_flatMap, List.flatMap_congr ih]

/-! ### The agenda -/

/-- The calls take the nodes of an agenda one after another, and each puts the children of the node
that it returned in front. -/
def WorkOff : List Node → List Call → Prop
  | [], [] => True
  | m :: pending, call :: calls =>
    call.handed = m ∧ WorkOff (call.returned.children ++ pending) calls
  | _, _ => False

theorem workOff_flatMap {cs pending : List Node} {calls : Node → List Call} {later : List Call}
    (h : ∀ c ∈ cs, ∀ pending later, WorkOff pending later → WorkOff (c :: pending) (calls c ++ later))
    (hlater : WorkOff pending later) : WorkOff (cs ++ pending) (cs.flatMap calls ++ later) := by
  induction cs with
  | nil => exact hlater
  | cons c cs ih =>
    rw [List.cons_append, List.flatMap_cons, List.append_assoc]
    apply h c List.mem_cons_self
    exact ih fun d hd => h d (List.mem_cons_of_mem c hd)

theorem workOff_calls {r : Logged Call Node} (h : descend? (calling visit) fuel n = some r) :
    WorkOff [n] r.log := by
  -- what is pending below the root, and the calls for it, come after those for the root
  have hroot : ∀ pending later, WorkOff pending later → WorkOff (n :: pending) (r.log ++ later) := by
    refine calls_induction (P := fun n calls _ =>
      ∀ pending later, WorkOff pending later → WorkOff (n :: pending) (calls ++ later)) ?_ h
    intro n calls result ih pending later hlater
    exact ⟨rfl, workOff_flatMap ih hlater⟩
  have hcalls := hroot [] [] trivial
  rwa [List.append_nil] at hcalls

namespace WorkOff

variable {pending : List Node} {calls : List Call}

theorem handed_mem (h : WorkOff pending calls) {i : Nat} {call : Call}
    (hcall : calls[i]? = some call) :
    call.handed ∈ pending ∨ ∃ earlier ∈ calls.take i, call.handed ∈ earlier.returned.children := by
  induction calls generalizing pending i with
  | nil => simp at hcall
  | cons first calls ih =>
    cases pending with
    | nil => exact h.elim
    | cons m pending =>
      obtain ⟨hfirst, hothers⟩ := h
      cases i with
      | zero =>
        obtain rfl : first = call := by simpa using hcall
        exact .inl (hfirst ▸ List.mem_cons_self)
      | succ i =>
        rw [List.take_succ_cons]
        rcases ih hothers (by simpa using hcall) with hmem | ⟨earlier, hearlier, hmem⟩
        · rcases List.mem_append.mp hmem with hchild | hpending
          · exact .inr ⟨first, List.mem_cons_self, hchild⟩
          · exact .inl (List.mem_cons_of_mem m hpending)
        · exact .inr ⟨earlier, List.mem_cons_of_mem first hearlier, hmem⟩

theorem handed_perm (h : WorkOff pending calls) :
    (calls.map Call.handed).Perm (pending ++ calls.flatMap fun call => call.returned.children) := by
  induction calls generalizing pending with
  | nil =>
    cases pending with
    | nil => exact .refl []
    | cons m pending => exact h.elim
  | cons first calls ih =>
    cases pending with
    | nil => exact h.elim
    | cons m pending =>
      obtain ⟨hfirst, hothers⟩ := h
      rw [List.map_cons, List.cons_append, hfirst, List.flatMap_cons, ← List.append_assoc]
      apply List.Perm.cons
      exact (ih hothers).trans (List.perm_append_comm.append_right _)

end WorkOff

/-- The calls of a walk that ends. They are the nodes of the result, each before those below it, as
the visit function returned them. It is handed the root and then only children of what it has
returned before, each of these children once. -/
theorem descend?_calls {r : Logged ε Node} (h : descend? visit fuel n = some r) :
    ∃ calls : List Call,
      descend? (calling visit) fuel n = some ⟨r.value, calls⟩ ∧
      r.log = (calls.flatMap fun call => (visit call.handed).log) ∧
      (∀ call ∈ calls, call.returned = (visit call.handed).value) ∧
      calls.length = r.value.size ∧
      calls.map (fun call => call.returned.own) = r.value.preorder.map own ∧
      calls.head?.map Call.handed = some n ∧
      (∀ i call, calls[i + 1]? = some call →
        ∃ earlier ∈ calls.take (i + 1), call.handed ∈ earlier.returned.children) ∧
      (calls.map Call.handed).Perm (n :: calls.flatMap fun call => call.returned.children) := by
  rw [descend?_eq_replay] at h
  obtain ⟨⟨result, calls⟩, hcalls, rfl⟩ := Option.map_eq_some_iff.mp h
  have hown : calls.map (fun call => call.returned.own) = result.preorder.map own :=
    own_returned hcalls
  have hagenda : WorkOff [n] calls := workOff_calls hcalls
  refine ⟨calls, hcalls, rfl, returned_eq hcalls, ?_, hown, ?_, ?_, hagenda.handed_perm⟩
  · have hlength := congrArg List.length hown
    rwa [List.length_map, List.length_map] at hlength
  · cases calls with
    | nil => exact hagenda.elim
    | cons first calls => exact congrArg some hagenda.1
  · intro i call hcall
    cases calls with
    | nil => exact hagenda.elim
    | cons first calls =>
      -- behind the first call the agenda holds just the children of what it returned
      have hothers : WorkOff first.returned.children calls := by
        have := hagenda.2
        rwa [List.append_nil] at this
      rw [List.take_succ_cons]
      rcases hothers.handed_mem (by simpa using hcall) with hchild | ⟨earlier, hearlier, hmem⟩
      · exact ⟨first, List.mem_cons_self, hchild⟩
      · exact ⟨earlier, List.mem_cons_of_mem first hearlier, hmem⟩

/-- Puts `return null;` in place of every expression statement. -/
def returnNull (n : Node) : Logged Kind Node :=
  ⟨if n.kind = .expressionStatement then ofForm (.returnStatement (some (ofForm .nullLiteral)))
    else n, [n.kind]⟩

/-- The expression of a statement that was replaced is never handed over. -/
theorem descend?_calls_returnNull :
    let n := block [ofForm (.expressionStatement (identifier "old")), ofForm .emptyStatement]
    let result := block [ofForm (.returnStatement (some (ofForm .nullLiteral))), ofForm .emptyStatement]
    descend? returnNull 3 n =
        some ⟨result, [.block, .expressionStatement, .nullLiteral, .emptyStatement]⟩ ∧
      ∃ calls : List Call,
        descend? (calling returnNull) 3 n = some ⟨result, calls⟩ ∧
        calls.length = result.size ∧
        calls.map (fun call => call.returned.own) = result.preorder.map own ∧
        (calls.map Call.handed).Perm (n :: calls.flatMap fun call => call.returned.children) ∧
        ∀ call ∈ calls, call.handed ≠ identifier "old" := by
  intro n result
  have h : descend? returnNull 3 n =
      some ⟨result, [.block, .expressionStatement, .nullLiteral, .emptyStatement]⟩ := by decide
  obtain ⟨calls, hcalls, hlog, _, hlength, hown, _, _, hperm⟩ := descend?_calls h
  refine ⟨h, calls, hcalls, hlength, hown, hperm, ?_⟩
  intro call hcall hold
  have hkind : (identifier "old").kind ∈ calls.flatMap fun call => (returnNull call.handed).log := by
    refine List.mem_flatMap.mpr ⟨call, hcall, ?_⟩
    rw [hold]
    exact List.mem_singleton.mpr rfl
  rw [← hlog] at hkind
  exact absurd hkind (by decide)

/-! ### Visits that leave the children as they are -/

theorem size_lt_of_mem_children (h : m ∈ n.children) : m.size < n.size := by
  have hbelow : m.preorder.Sublist (n.children.flatMap preorder) :=
    List.sublist_flatten_of_mem (List.mem_map_of_mem h)
  have hlength := hbelow.length_le
  unfold size
  rw [preorder_eq n, List.length_cons]
  omega

/-- A visit function that leaves the children of every node as they are. -/
def keeping (visit : Node → Logged ε Node) (h : ∀ m, (visit m).value.children = m.children) :
    Descent ε where
  visit := visit
  weight := size
  weight_lt := by
    intro n c hc
    rw [h] at hc
    exact size_lt_of_mem_children hc

/-- Such a visit function is handed the nodes of the tree as a walk enters them. The result has the
arrangement of the tree, with what the visit function returned for each node besides children. -/
theorem descend?_of_children_eq (h : ∀ m, (visit m).value.children = m.children) (n : Node) :
    ∃ (result : Node) (calls : List Call),
      (∀ fuel, n.size < fuel →
        descend? visit fuel n =
          some ⟨result, calls.flatMap fun call => (visit call.handed).log⟩ ∧
        descend? (calling visit) fuel n = some ⟨result, calls⟩) ∧
      calls = n.preorder.map (fun m => ⟨m, (visit m).value⟩) ∧
      calls.map Call.handed = (Visitor.recorder.walk n []).filterMap Moment.entered? ∧
      result.rose own = n.rose (fun m => (visit m).value.own) ∧
      result.preorder.map own = n.preorder.map (fun m => (visit m).value.own) ∧
      ((∀ m, (visit m).value = m) → result = n) := by
  let walked := (keeping (calling visit) h).run n
  have hwalked (fuel : Nat) (hfuel : n.size < fuel) : descend? (calling visit) fuel n = some walked :=
    (keeping (calling visit) h).descend?_eq_run hfuel
  have hends := hwalked (n.size + 1) (Nat.lt_succ_self _)
  have hcalls : walked.log = n.preorder.map fun m => ⟨m, (visit m).value⟩ := by
    refine calls_induction
      (P := fun n calls _ => calls = n.preorder.map fun m => ⟨m, (visit m).value⟩) ?_ hends
    intro n calls result ih
    rw [h] at ih ⊢
    rw [preorder_eq, List.map_cons, List.map_flatMap, List.flatMap_congr ih]
  have hrose : walked.value.rose own = n.rose fun m => (visit m).value.own := by
    refine calls_induction
      (P := fun n _ result => result.rose own = n.rose fun m => (visit m).value.own) ?_ hends
    intro n calls result ih
    rw [rose_eq, rose_eq _ n, own_mapChildren, children_mapChildren, List.map_map]
    rw [h] at ih ⊢
    exact congrArg (Rose.node _) (List.map_congr_left ih)
  have hrecorded : Visitor.recorder.walk n [] = n.trace := by
    simpa using Visitor.walkAll_recorder [n]
  refine ⟨walked.value, walked.log, ?_, hcalls, ?_, hrose, ?_, ?_⟩
  · intro fuel hfuel
    rw [descend?_eq_replay, hwalked fuel hfuel]
    exact ⟨rfl, rfl⟩
  · rw [hcalls, hrecorded, entered_trace, List.map_map]
    exact List.map_id _
  · rw [← own_returned hends, hcalls, List.map_map]
    rfl
  · intro hsame
    apply eq_of_rose_own_eq
    rw [hrose]
    simp only [hsame]

/-- Renames the identifiers and notes at every other node that it was seen. -/
def touch (m : Node) : Logged Kind Node :=
  match m.form with
  | .identifier text => ⟨{ m with form := .identifier (text ++ "1") }, [m.kind]⟩
  | _ => ⟨m.addComment ⟨.line, " seen"⟩, [m.kind]⟩

theorem children_touch (m : Node) : (touch m).value.children = m.children := by
  rcases m with ⟨form, span, comments⟩
  cases form <;> rfl

/-- A function of which every slot is filled and only the first parameter has a default value. -/
theorem descend?_touch :
    let n := function (some "f") [ofForm (.parameter (identifier "a") (some (identifier "b"))),
      ofForm (.parameter (identifier "c") none)] (some (block []))
    let seen (form : Form Node) : Node := ⟨form, Span.synthetic, [⟨.line, " seen"⟩]⟩
    let result := seen (.functionDeclaration (some (identifier "f1"))
      [seen (.parameter (identifier "a1") (some (identifier "b1"))),
        seen (.parameter (identifier "c1") none)] (some (seen (.block []))))
    (∀ m, (touch m).value.children = m.children) ∧
      descend? touch 9 n = some ⟨result, [.functionDeclaration, .identifier, .parameter, .identifier,
        .identifier, .parameter, .identifier, .block]⟩ ∧
      result.rose own = n.rose (fun m => (touch m).value.own) ∧
      descend? (calling touch) 9 n =
        some ⟨result, n.preorder.map fun m => ⟨m, (touch m).value⟩⟩ := by
  intro n seen result
  have h : descend? touch 9 n = some ⟨result, [.functionDeclaration, .identifier, .parameter,
      .identifier, .identifier, .parameter, .identifier, .block]⟩ := by decide
  obtain ⟨result', calls, hwalk, hcalls, _, hrose, _⟩ := descend?_of_children_eq children_touch n
  have hends := hwalk 9 (by decide)
  obtain rfl : result' = result :=
    congrArg Logged.value (Option.some.inj (hends.1.symm.trans h))
  exact ⟨children_touch, h, hrose, hcalls ▸ hends.2⟩

end Node

end EntryTrace
