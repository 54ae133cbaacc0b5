import EntryTrace.Proofs.Calls
import EntryTrace.Proofs.Census

/-!
# When a walk ends

A rewriting walk goes on with the children of the node that the visit function returned, so a visit
function that keeps adding nodes keeps its walk going. A walk ends exactly when some number of
levels is enough for it. It then needs as many levels as its result is high: with fewer it gives up,
and more of them change nothing. The rule of the pass adds nodes to the functions that it traces,
but a labeled statement outweighs all that comes in its place, so the walk of the pass always ends.
-/

namespace EntryTrace

set_option autoImplicit false

namespace Node

variable {ε : Type} {visit : Node → Logged ε Node} {levels more : Nat} {n : Node}
  {r : Logged ε Node}

/-- The number of nodes on the longest way down from the root. -/
def height (n : Node) : Nat :=
  n.fold fun (_ : Node) (form : Form Nat) => 1 + form.children.foldr max 0

theorem height_eq (n : Node) : n.height = 1 + (n.children.map height).foldr max 0 := by
  unfold height
  rw [fold_eq, Form.children_map]
  rfl

theorem height_le_succ_iff {bound : Nat} :
    n.height ≤ bound + 1 ↔ ∀ c ∈ n.children, c.height ≤ bound := by
  rw [height_eq]
  constructor
  · intro h c hc
    have hle := le_foldr_max (List.mem_map_of_mem (f := height) hc)
    omega
  · intro h
    have hle := foldr_max_le (List.forall_mem_map.mpr h)
    omega

/-! ### Levels -/

theorem height_le_of_descend? (h : descend? visit levels n = some r) :
    r.value.height ≤ levels := by
  induction levels generalizing n r with
  | zero => simp [descend?] at h
  | succ levels ih =>
    obtain ⟨walk, hwalk, rfl⟩ := exists_walk_of_descend? h
    rw [Logged.value_bind, value_mapChildrenM, height_le_succ_iff, forall_children_mapChildren]
    exact fun c hc => ih (hwalk c hc)

/-- A walk that ends could have done with the levels of its result. -/
theorem descend?_of_height_le (h : descend? visit levels n = some r)
    (hmore : r.value.height ≤ more) : descend? visit more n = some r := by
  induction levels generalizing n r more with
  | zero => simp [descend?] at h
  | succ levels ih =>
    obtain ⟨walk, hwalk, rfl⟩ := exists_walk_of_descend? h
    cases more with
    | zero =>
      rw [height_eq] at hmore
      omega
    | succ more =>
      rw [Logged.value_bind, value_mapChildrenM, height_le_succ_iff,
        forall_children_mapChildren] at hmore
      exact descend?_succ fun c hc => ih (hwalk c hc) (hmore c hc)

theorem descend?_mono (h : descend? visit levels n = some r) (hmore : levels ≤ more) :
    descend? visit more n = some r :=
  descend?_of_height_le h (Nat.le_trans (height_le_of_descend? h) hmore)

theorem descend?_eq_ite (h : descend? visit levels n = some r) (others : Nat) :
    descend? visit others n = if r.value.height ≤ others then some r else none := by
  split
  · rename_i henough
    exact descend?_of_height_le h henough
  · rename_i hfew
    cases hother : descend? visit others n with
    | none => rfl
    | some other =>
      -- with as many levels as the first walk had, the two end alike
      have hheight := height_le_of_descend? h
      have hsame : descend? visit levels n = some other := descend?_mono hother (by omega)
      rw [h] at hsame
      obtain rfl := Option.some.inj hsame
      exact absurd (height_le_of_descend? hother) hfew

theorem isSome_descend?_succ_iff :
    (descend? visit (levels + 1) n).isSome ↔
      ∀ c ∈ (visit n).value.children, (descend? visit levels c).isSome := by
  constructor
  · intro h c hc
    obtain ⟨r, hr⟩ := Option.isSome_iff_exists.mp h
    obtain ⟨walk, hwalk, _⟩ := exists_walk_of_descend? hr
    rw [hwalk c hc]
    rfl
  · exact isSome_descend?_succ

/-! ### Endings -/

/-- The walk over the second node goes on with a walk over the first. -/
def GoesOnWith (visit : Node → Logged ε Node) (c n : Node) : Prop := c ∈ (visit n).value.children

theorem exists_levels {cs : List Node}
    (h : ∀ c ∈ cs, ∃ levels, (descend? visit levels c).isSome) :
    ∃ levels, ∀ c ∈ cs, (descend? visit levels c).isSome := by
  have hmono {c : Node} {few many : Nat} (hfew : (descend? visit few c).isSome)
      (hle : few ≤ many) : (descend? visit many c).isSome := by
    obtain ⟨r, hr⟩ := Option.isSome_iff_exists.mp hfew
    rw [descend?_mono hr hle]
    rfl
  induction cs with
  | nil => exact ⟨0, by simp⟩
  | cons c cs ih =>
    rw [List.forall_mem_cons] at h
    obtain ⟨first, hfirst⟩ := h.1
    obtain ⟨others, hothers⟩ := ih h.2
    refine ⟨max first others, List.forall_mem_cons.mpr ⟨?_, ?_⟩⟩
    · exact hmono hfirst (Nat.le_max_left first others)
    · exact fun d hd => hmono (hothers d hd) (Nat.le_max_right first others)

/-- Some number of levels is enough for a walk exactly when it cannot go on without end. -/
theorem acc_goesOnWith_iff :
    Acc (GoesOnWith visit) n ↔ ∃ levels, (descend? visit levels n).isSome := by
  constructor
  · intro h
    induction h with
    | intro n _ ih =>
      obtain ⟨levels, hlevels⟩ := exists_levels ih
      exact ⟨levels + 1, isSome_descend?_succ_iff.mpr hlevels⟩
  · rintro ⟨levels, h⟩
    induction levels generalizing n with
    | zero => simp [descend?] at h
    | succ levels ih => exact .intro n fun c hc => ih (isSome_descend?_succ_iff.mp h c hc)

/-- A visit function that returns a node above the one it was handed is handed it again. -/
theorem descend?_eq_none_of_self (h : GoesOnWith visit n n) (levels : Nat) :
    descend? visit levels n = none := by
  induction levels with
  | zero => rfl
  | succ levels ih =>
    rw [← Option.not_isSome_iff_eq_none] at ih ⊢
    exact fun hends => ih (isSome_descend?_succ_iff.mp hends n h)

end Node

theorem Descent.wellFounded_goesOnWith {ε : Type} (v : Descent ε) :
    WellFounded (Node.GoesOnWith v.visit) := by
  refine .intro fun n => Node.acc_goesOnWith_iff.mpr ⟨v.weight n + 1, ?_⟩
  exact v.isSome_descend? (Nat.lt_succ_self _)

/-! ### What the rule adds -/

theorem Node.total_addComment {value : Kind → Int} (comment : Comment) (n : Node) :
    (n.addComment comment).total value = n.total value := by
  rw [total_eq, total_eq value n]
  rfl

namespace EntryRecord

variable {value : Kind → Int}

theorem total_enclose (record : EntryRecord) (n : Node) :
    (record.enclose n).total value = n.total value +
      if n.kind = .block then value .block + record.statement.total value else 0 := by
  unfold enclose
  split
  · rw [Node.block, Node.total_ofForm]
    simp only [Form.kind, Form.children, List.map_cons, List.map_nil, List.sum_cons, List.sum_nil]
    ring
  · rw [add_zero]

/-- Each part of the function that is a block gets a block and a log statement. -/
theorem total_instrument (record : EntryRecord) (n : Node) :
    (record.instrument n).total value = n.total value +
      n.children.countP (fun c => c.kind = .block) *
        (value .block + record.statement.total value) := by
  have hparts (ns : List Node) : (ns.map fun c =>
      if c.kind = .block then value .block + record.statement.total value else 0).sum =
      ns.countP (fun c => c.kind = .block) *
        (value .block + record.statement.total value) := by
    induction ns with
    | nil => simp
    | cons c ns ih =>
      rw [List.map_cons, List.sum_cons, ih, List.countP_cons]
      by_cases h : c.kind = .block
      · simp only [h, ↓reduceIte, decide_true, Nat.cast_add, Nat.cast_one]
        ring
      · simp [h]
  rw [instrument, Node.total_mapChildren (fun c _ => record.total_enclose c),
    Node.total_addComment, ← hparts n.children]
  rfl

end EntryRecord

namespace Definition

/-- The number of parts that are blocks. -/
def blockCount (d : Definition) : Nat := d.toNode.children.countP fun c => c.kind = .block

theorem blockCount_pos {d : Definition} (h : d.body.kind = .block) : 0 < d.blockCount := by
  unfold blockCount
  rw [List.countP_pos_iff]
  exact ⟨d.body, by simp [Node.children, toNode, Form.children], by simpa using h⟩

theorem size_statement (d : Definition) :
    (d.record.statement.size : Int) = 22 + 2 * d.plainCount := by
  have harguments : ∀ a ∈ d.record.arguments, a.kind = .identifier :=
    fun a ha => kind_of_mem_plainParameters ha
  have hcount : d.record.arguments.length = d.plainCount := length_plainParameters d.parameters
  rw [Node.size_eq_total, EntryRecord.total_statement harguments, hcount]
  split <;> ring

theorem size_instrument (d : Definition) :
    (d.record.instrument d.toNode).size =
      d.toNode.size + d.blockCount * (23 + 2 * d.plainCount) := by
  have hsize : (d.record.instrument d.toNode).total (fun _ => 1) = d.toNode.total (fun _ => 1) +
      d.blockCount * (1 + d.record.statement.total fun _ => 1) :=
    d.record.total_instrument d.toNode
  have hsum : (1 + (22 + 2 * d.plainCount) : Int) = 23 + 2 * d.plainCount := by ring
  rw [← Node.size_eq_total, ← Node.size_eq_total, ← Node.size_eq_total, size_statement,
    hsum] at hsize
  exact_mod_cast hsize

end Definition

theorem Node.size_of_request {guarded : Bool} {n : Node} {d : Definition}
    (h : n.request? guarded = some d) (hlabel : n.hasPlainLabel = true) :
    n.size = 2 + d.toNode.size := by
  have htotal : n.total (fun _ => 1) = 1 + 1 + d.toNode.total fun _ => 1 :=
    total_of_request h hlabel
  rw [← size_eq_total, ← size_eq_total] at htotal
  omega

/-! ### The pass -/

theorem Setting.height_traced_le (s : Setting) (n : Node) : (s.traced n).height ≤ n.weight := by
  induction n using s.descent.wellFounded_goesOnWith.induction with
  | h n ih =>
    obtain ⟨bound, hbound⟩ : ∃ bound, n.weight = bound + 1 := by
      refine ⟨n.weight - 1, ?_⟩
      rw [Node.weight_eq]
      split <;> omega
    rw [traced_eq, hbound, Node.height_le_succ_iff, Node.forall_children_mapChildren]
    intro c hc
    have hlight := s.weight_visit_lt n c hc
    have hheight := ih c hc
    omega

/-- The walk of the pass ends on every tree, and the weight of the tree is enough levels for it. Yet
each function that the rule traces grows with every part of it that is a block. -/
theorem Pass.traceFile_ends (s : Setting) :
    WellFounded (Node.GoesOnWith s.visit) ∧
    ∀ n : Node,
      (traceFile s.config s.file n).value.height ≤ n.weight ∧
      (∀ levels,
        (Node.descend? s.visit levels n).map (Logged.mapLog fun event => ⟨event, [⟨s.file⟩]⟩) =
          if (traceFile s.config s.file n).value.height ≤ levels
          then some (traceFile s.config s.file n) else none) ∧
      ∀ d, n.request? s.config.skipMarked = some d →
        (s.visit n).value.size = d.toNode.size + d.blockCount * (23 + 2 * d.plainCount) ∧
        (d.body.kind = .block → d.toNode.size < (s.visit n).value.size ∧
          (n.hasPlainLabel = true → n.size < (s.visit n).value.size)) := by
  refine ⟨s.descent.wellFounded_goesOnWith, fun n => ⟨s.height_traced_le n, ?_, ?_⟩⟩
  · intro levels
    have hends : Node.descend? s.visit (n.weight + 1) n = some (s.descent.run n) :=
      s.descent.descend?_eq_run (Nat.lt_succ_self n.weight)
    rw [Node.descend?_eq_ite hends levels, apply_ite (Option.map _)]
    rfl
  · intro d hrequest
    rw [Setting.visit_of_request hrequest]
    refine ⟨d.size_instrument, fun hbody => ?_⟩
    have hadded : 23 ≤ d.blockCount * (23 + 2 * d.plainCount) :=
      Nat.le_trans (Nat.le_add_right 23 _) (Nat.le_mul_of_pos_left _ (d.blockCount_pos hbody))
    rw [d.size_instrument]
    refine ⟨by omega, fun hlabel => ?_⟩
    rw [Node.size_of_request hrequest hlabel]
    omega

/-- A labeled function with a block for a parameter, so that two of its parts are enclosed. -/
def Node.blockParameter : Node :=
  .labeled "outer" (.function (some "f")
    [.ofForm (.parameter (.identifier "a") none), .block []] (some (.block [])))

theorem Pass.traceFile_ends_blockParameter :
    let s : Setting := ⟨"unit.ts", ⟨false⟩⟩
    Node.blockParameter.size = 8 ∧ (s.visit Node.blockParameter).value.size = 56 ∧
      Node.blockParameter.weight = 13 ∧
      ∀ levels, (Node.descend? s.visit levels Node.blockParameter).isSome ↔ 10 ≤ levels := by
  intro s
  obtain ⟨_, hlevels, hgrowth⟩ := (traceFile_ends s).2 Node.blockParameter
  have hheight : (traceFile ⟨false⟩ "unit.ts" Node.blockParameter).value.height = 10 := by decide
  refine ⟨by decide, (hgrowth _ rfl).1.trans (by decide), by decide, fun levels => ?_⟩
  rw [← Option.isSome_map, hlevels levels, hheight]
  by_cases henough : 10 ≤ levels <;> simp [henough]

end EntryTrace
