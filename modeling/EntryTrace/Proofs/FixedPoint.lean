import EntryTrace.Proofs.Structural
import Mathlib.Logic.Function.Iterate

/-!
# Fixed points of the pass

The pass leaves a tree as it is exactly when nothing in it is requested. Without the guard, every
pass takes the innermost label off each chain of labels that ends in a function with a body, and it
makes no new chain. So the longest chain in a tree says how many passes the tree needs until the
next one leaves it as it is.
-/

namespace EntryTrace

set_option autoImplicit false

/-! ### Trees that stay as they are -/

namespace Setting

variable {s : Setting} {n : Node}

theorem request?_of_traced_eq (h : s.traced n = n) : n.request? s.config.skipMarked = none := by
  cases hrequest : n.request? s.config.skipMarked with
  | none => rfl
  | some d =>
    -- a labeled statement would have become a function
    have hkind := s.kind_traced n
    rw [h, hrequest, Node.kind_of_request hrequest] at hkind
    simp at hkind

theorem traced_child_eq (h : s.traced n = n) : ∀ c ∈ n.children, s.traced c = c := by
  have hchildren : n.children.map s.traced = n.children.map id := by
    rw [← Node.children_mapChildren, ← traced_of_none (request?_of_traced_eq h), h, List.map_id]
  exact List.map_inj_left.mp hchildren

theorem quiet_of_traced_eq (h : s.traced n = n) :
    n.Everywhere fun m => m.request? s.config.skipMarked = none := by
  induction n using Node.induction with
  | step n ih =>
    refine Node.everywhere_iff.mpr ⟨request?_of_traced_eq h, ?_⟩
    intro c hc
    exact ih c hc (traced_child_eq h c hc)

end Setting

theorem Pass.traceFile_eq_self_iff (config : Config) (file : String) (n : Node) :
    (traceFile config file n).value = n ↔
      n.Everywhere fun m => m.request? config.skipMarked = none :=
  ⟨Setting.quiet_of_traced_eq (s := ⟨file, config⟩), Setting.traced_of_quiet (s := ⟨file, config⟩)⟩

/-! ### Chains of labels -/

namespace Node

/-- The length of the chain of labels that starts at the node and ends in a function with a body,
none if there is no such chain. -/
def chain? (n : Node) : Option Nat :=
  n.fold fun (_ : Node) (form : Form (Option Nat)) =>
    match form with
    | .labeledStatement _ statement => statement.map (· + 1)
    | .functionDeclaration _ _ (some _) => some 0
    | _ => none

/-- The length of the longest chain in the tree, 0 if there is none. -/
def longestChain (n : Node) : Nat :=
  n.fold fun (own : Node) (form : Form Nat) =>
    max (own.chain?.getD 0) (form.children.foldr max 0)

/-- The length of the longest chain that starts below the node. -/
def longestBelow (n : Node) : Nat := (n.children.map longestChain).foldr max 0

/-- Whether the label of a labeled statement is an identifier. -/
def hasPlainLabel (n : Node) : Bool :=
  match n.form with
  | .labeledStatement label _ => label.kind == .identifier
  | _ => true

variable {n m : Node} {d : Definition}

theorem chain?_labeled (label m : Node) (span : Span) (comments : List Comment) :
    (⟨.labeledStatement label m, span, comments⟩ : Node).chain? = m.chain?.map (· + 1) := by
  unfold chain?
  rw [fold_eq]
  rfl

theorem chain?_definition (d : Definition) : d.toNode.chain? = some 0 := by
  unfold chain?
  rw [fold_eq]
  rfl

theorem chain?_of_plain (h : n.kind.isPlain = true) : n.chain? = none := by
  rcases n with ⟨form, span, comments⟩
  cases form with
  | labeledStatement | functionDeclaration => exact absurd h Bool.false_ne_true
  | _ => rfl

theorem definition_of_chain?_eq_zero (h : n.chain? = some 0) : ∃ d : Definition, n = d.toNode := by
  rcases n with ⟨form, span, comments⟩
  cases form with
  | labeledStatement label m =>
    rw [chain?_labeled] at h
    simp at h
  | functionDeclaration name parameters body =>
    cases body with
    | none => exact absurd h (Option.some_ne_none 0).symm
    | some body => exact ⟨⟨name, parameters, body, span, comments⟩, rfl⟩
  | _ => exact absurd h (Option.some_ne_none 0).symm

theorem chain?_of_request (h : n.request? false = some d) : n.chain? = some 1 := by
  rcases n with ⟨form, span, comments⟩
  obtain ⟨label, rfl⟩ := exists_label_of_request h
  rw [chain?_labeled, chain?_definition]
  rfl

theorem hasPlainLabel_of_plain (h : n.kind.isPlain = true) : n.hasPlainLabel = true := by
  unfold hasPlainLabel
  split
  · rename_i hform
    rw [kind, hform] at h
    exact absurd h Bool.false_ne_true
  · rfl

theorem longestChain_eq (n : Node) : n.longestChain = max (n.chain?.getD 0) n.longestBelow := by
  unfold longestBelow longestChain
  rw [fold_eq]
  simp [children]

theorem longestChain_le_longestBelow (h : m ∈ n.children) : m.longestChain ≤ n.longestBelow :=
  le_foldr_max (List.mem_map.mpr ⟨m, h, rfl⟩)

theorem longestChain_eq_zero (h : n.Everywhere fun m => m.chain? = none) : n.longestChain = 0 := by
  induction n using Node.induction with
  | step n ih =>
    have hbelow : n.longestBelow ≤ 0 := by
      apply foldr_max_le
      intro k hk
      obtain ⟨c, hc, rfl⟩ := List.mem_map.mp hk
      exact Nat.le_of_eq (ih c hc (h.child hc))
    rw [longestChain_eq, h.root]
    exact Nat.le_zero.mp hbelow

theorem longestChain_identifier (h : n.kind = .identifier) : n.longestChain = 0 := by
  apply longestChain_eq_zero
  rw [everywhere_of_kind_identifier h]
  exact chain?_of_plain (by rw [h]; rfl)

theorem longestChain_of_request (h : n.request? false = some d) (hlabel : n.hasPlainLabel = true) :
    n.longestChain = max 1 d.toNode.longestBelow := by
  rcases n with ⟨form, span, comments⟩
  obtain ⟨label, rfl⟩ := exists_label_of_request h
  have hidentifier : label.longestChain = 0 := longestChain_identifier (beq_iff_eq.mp hlabel)
  rw [longestChain_eq, chain?_of_request h]
  simp [longestBelow, children, Form.children, hidentifier, longestChain_eq d.toNode,
    chain?_definition]

theorem quiet_of_longestChain (h : n.longestChain = 0) :
    n.Everywhere fun m => m.request? false = none := by
  induction n using Node.induction with
  | step n ih =>
    rw [longestChain_eq] at h
    refine everywhere_iff.mpr ⟨?_, ?_⟩
    · cases hrequest : n.request? false with
      | none => rfl
      | some d =>
        rw [chain?_of_request hrequest, Option.getD_some] at h
        omega
    · intro c hc
      have hle := longestChain_le_longestBelow hc
      exact ih c hc (by omega)

theorem foldr_max_pred (ks : List Nat) : (ks.map (· - 1)).foldr max 0 = ks.foldr max 0 - 1 := by
  induction ks with
  | nil => rfl
  | cons k ks ih =>
    simp only [List.map_cons, List.foldr_cons, ih]
    omega

theorem longestBelow_mapChildren {f : Node → Node}
    (h : ∀ c ∈ n.children, (f c).longestChain = c.longestChain - 1) :
    (n.mapChildren f).longestBelow = n.longestBelow - 1 := by
  unfold longestBelow
  rw [← foldr_max_pred, children_mapChildren, List.map_map, List.map_map]
  exact congrArg _ (List.map_congr_left h)

end Node

theorem Definition.longestChain_enclose (d : Definition) (n : Node) :
    (d.record.enclose n).longestChain = n.longestChain := by
  have hstatement : d.record.statement.longestChain = 0 :=
    Node.longestChain_eq_zero (d.everywhere_statement fun _ => Node.chain?_of_plain)
  unfold EntryRecord.enclose
  split
  · have hblock : (Node.block [d.record.statement, n]).chain? = none := Node.chain?_of_plain rfl
    rw [Node.longestChain_eq, hblock]
    simp [Node.longestBelow, Node.block, Node.ofForm, Node.children, Form.children, hstatement]
  · rfl

namespace Setting

variable {s : Setting} {n : Node}

theorem chain?_traced (hguard : s.config.skipMarked = false) (n : Node) :
    (s.traced n).chain? = n.chain?.map (· - 1) := by
  induction n using Node.request_induction s.config.skipMarked with
  | kept n hrequest ih =>
    rw [traced_of_none hrequest]
    rcases n with ⟨form, span, comments⟩
    cases form with
    | labeledStatement label m =>
      have hm := ih m (by simp [Node.children, Form.children])
      rw [Node.chain?_labeled label, Node.mapChildren, Form.map, Node.chain?_labeled, hm]
      cases hchain : m.chain? with
      | none => rfl
      | some k =>
        cases k with
        | zero =>
          -- a label on a function with a body is a request
          obtain ⟨d, rfl⟩ := Node.definition_of_chain?_eq_zero hchain
          rw [hguard] at hrequest
          simp [Node.request?, Node.labeledFunction?, Definition.toNode] at hrequest
        | succ k => rfl
    | functionDeclaration name parameters body => cases body <;> rfl
    | _ => rfl
  | requested n d hrequest _ =>
    rw [traced_of_request hrequest]
    rw [hguard] at hrequest
    rw [Node.chain?_of_request hrequest]
    exact Node.chain?_definition (Definition.map _ { d with comments := d.comments ++ [marker] })

theorem getD_chain?_traced (hguard : s.config.skipMarked = false) (n : Node) :
    (s.traced n).chain?.getD 0 = n.chain?.getD 0 - 1 := by
  rw [chain?_traced hguard]
  cases n.chain? <;> rfl

theorem longestChain_traced (hguard : s.config.skipMarked = false)
    (h : n.Everywhere fun m => m.hasPlainLabel = true) :
    (s.traced n).longestChain = n.longestChain - 1 := by
  induction n using Node.request_induction s.config.skipMarked with
  | kept n hrequest ih =>
    have hbelow : (n.mapChildren s.traced).longestBelow = n.longestBelow - 1 :=
      Node.longestBelow_mapChildren fun c hc => ih c hc (h.child hc)
    rw [Node.longestChain_eq, getD_chain?_traced hguard, traced_of_none hrequest, hbelow,
      Node.longestChain_eq n]
    omega
  | requested n d hrequest ih =>
    have hbelow : ((d.toNode.addComment marker).mapChildren fun c =>
        d.record.enclose (s.traced c)).longestBelow = d.toNode.longestBelow - 1 := by
      apply Node.longestBelow_mapChildren
      intro c hc
      rw [d.longestChain_enclose]
      exact ih c hc ((h.definition hrequest).child hc)
    rw [Node.longestChain_eq, getD_chain?_traced hguard, traced_of_request hrequest, hbelow]
    rw [hguard] at hrequest
    rw [Node.longestChain_of_request hrequest h.root, Node.chain?_of_request hrequest,
      Option.getD_some]
    omega

theorem hasPlainLabel_traced (h : n.hasPlainLabel = true) :
    (s.traced n).hasPlainLabel = true := by
  cases hrequest : n.request? s.config.skipMarked with
  | some d =>
    rw [traced_of_request hrequest]
    rfl
  | none =>
    rw [traced_of_none hrequest]
    rcases n with ⟨form, span, comments⟩
    cases form with
    | labeledStatement label m =>
      have hlabel : (s.traced label).kind = .identifier :=
        (kind_traced_eq_iff rfl).mpr (beq_iff_eq.mp h)
      exact beq_iff_eq.mpr hlabel
    | _ => rfl

theorem everywhere_hasPlainLabel_traced (h : n.Everywhere fun m => m.hasPlainLabel = true) :
    (s.traced n).Everywhere fun m => m.hasPlainLabel = true := by
  refine everywhere_traced (fun m hm => hasPlainLabel_traced hm.root) ?_ ?_ h
  · intro d m _
    rfl
  · intro d
    exact d.everywhere_statement fun _ => Node.hasPlainLabel_of_plain

/-! ### Pass after pass -/

theorem everywhere_hasPlainLabel_iterate (h : n.Everywhere fun m => m.hasPlainLabel = true)
    (k : Nat) : (s.traced^[k] n).Everywhere fun m => m.hasPlainLabel = true := by
  induction k with
  | zero => exact h
  | succ k ih =>
    rw [Function.iterate_succ_apply']
    exact everywhere_hasPlainLabel_traced ih

theorem longestChain_iterate (hguard : s.config.skipMarked = false)
    (h : n.Everywhere fun m => m.hasPlainLabel = true) (k : Nat) :
    (s.traced^[k] n).longestChain = n.longestChain - k := by
  induction k with
  | zero => rfl
  | succ k ih =>
    rw [Function.iterate_succ_apply',
      longestChain_traced hguard (everywhere_hasPlainLabel_iterate h k), ih]
    omega

theorem traced_eq_self_iff_longestChain (hguard : s.config.skipMarked = false)
    (h : n.Everywhere fun m => m.hasPlainLabel = true) :
    s.traced n = n ↔ n.longestChain = 0 := by
  constructor
  · intro hsame
    have hdrop := longestChain_traced hguard h
    rw [hsame] at hdrop
    omega
  · intro hzero
    apply traced_of_quiet
    rw [hguard]
    exact Node.quiet_of_longestChain hzero

end Setting

theorem Pass.iterate_traceFile_eq_iff (file : String) {n : Node}
    (h : n.Everywhere fun m => m.hasPlainLabel = true) :
    let pass := fun m => (traceFile ⟨false⟩ file m).value
    (∀ k, pass^[k + 1] n = pass^[k] n ↔ n.longestChain ≤ k) ∧
      ∀ k, 0 < (pass^[k] n).longestChain →
        (pass^[k + 1] n).longestChain + 1 = (pass^[k] n).longestChain := by
  let s : Setting := ⟨file, ⟨false⟩⟩
  have hlength : ∀ k, (s.traced^[k] n).longestChain = n.longestChain - k :=
    Setting.longestChain_iterate rfl h
  refine ⟨fun k => ?_, fun k hpositive => ?_⟩
  · change s.traced^[k + 1] n = s.traced^[k] n ↔ n.longestChain ≤ k
    rw [Function.iterate_succ_apply', Setting.traced_eq_self_iff_longestChain rfl
      (Setting.everywhere_hasPlainLabel_iterate h k), hlength]
    omega
  · change 0 < (s.traced^[k] n).longestChain at hpositive
    change (s.traced^[k + 1] n).longestChain + 1 = (s.traced^[k] n).longestChain
    rw [hlength] at hpositive
    rw [hlength, hlength]
    omega

theorem Pass.iterate_traceFile_chainedLabels :
    (Node.chainedLabels.Everywhere fun m => m.hasPlainLabel = true) ∧
      let pass := fun m => (traceFile ⟨false⟩ "unit.ts" m).value
      pass^[2] Node.chainedLabels ≠ pass^[1] Node.chainedLabels ∧
        pass^[3] Node.chainedLabels = pass^[2] Node.chainedLabels :=
  have h : Node.chainedLabels.Everywhere fun m => m.hasPlainLabel = true := by decide
  have hpasses := iterate_traceFile_eq_iff "unit.ts" h
  ⟨h, (hpasses.1 1).not.mpr (by decide), (hpasses.1 2).mpr (by decide)⟩

end EntryTrace
