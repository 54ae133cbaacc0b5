import EntryTrace.Proofs.StatementReader

/-!
# What the text of a tree says

Of a tree without comments, with names and numbers that cannot be taken for anything else, the text
says everything but the grouping: two trees have the same text exactly when they are the same after
regrouping. Grouped trees are told apart, others are not.
-/

namespace EntryTrace

set_option autoImplicit false

namespace Kind

/-- The kinds that regrouping may turn into one another. -/
def isCompound : Kind → Bool
  | callExpression | propertyAccess | binaryExpression => true
  | _ => false

/-- The same kind, or both compound. -/
def Alike (new old : Kind) : Prop := new = old ∨ new.isCompound = true ∧ old.isCompound = true

variable {new old : Kind}

theorem sort_of_isCompound {k : Kind} (h : k.isCompound = true) :
    ∀ q ∈ sorts, q k = q .binaryExpression := by
  cases k <;> first | decide | cases h

theorem Alike.keeps (h : new.Alike old) : ∀ q ∈ sorts, q old = true → q new = true := by
  intro q hq hold
  rcases h with rfl | ⟨hnew, holdc⟩
  · exact hold
  · rw [sort_of_isCompound hnew q hq, ← sort_of_isCompound holdc q hq, hold]

end Kind

namespace Node

variable {n : Node}

/-- The node has only such children as may stand there, no comments, and names and numbers that
cannot be taken for anything else. -/
def isReadable (n : Node) : Bool := n.fits && n.comments.isEmpty && n.form.hasPlainWords

def Readable (n : Node) : Prop := n.Everywhere fun m => m.isReadable = true

instance (n : Node) : Decidable n.Readable :=
  inferInstanceAs (Decidable (n.Everywhere fun m => m.isReadable = true))

/-- A node as the reader makes them. -/
structure Canonical (n : Node) : Prop where
  plain : Reader.Plain n
  bare : n = ofForm n.form

theorem bare_of_canonical (h : n.Everywhere Canonical) : n.bare = n :=
  bare_eq_self (h.imp fun _ hm => hm.bare)

theorem Canonical.comments (h : Canonical n) : n.comments = [] := by
  rw [h.bare]
  rfl

theorem canonical_ofForm {form : Form Node} (hfits : (form.map kind).fits = true)
    (hgrouped : (ofForm form).isGrouped = true) (hwords : form.hasPlainWords = true)
    (h : ∀ c ∈ form.children, c.Everywhere Canonical) : (ofForm form).Everywhere Canonical :=
  everywhere_ofForm.mpr ⟨⟨⟨hfits, hgrouped, hwords⟩, rfl⟩, h⟩

/-! ### Regrouped trees are canonical -/

theorem canonical_binary {left right : Node} (operator : Operator)
    (hleft : left.Everywhere Canonical) (hright : right.Everywhere Canonical)
    (hleftKind : left.kind.isExpression = true) (hrightKind : right.kind.isExpression = true)
    (hbinary : right.kind ≠ .binaryExpression) :
    (ofForm (.binaryExpression left operator right)).Everywhere Canonical := by
  refine canonical_ofForm ?_ (bne_iff_ne.mpr hbinary) rfl ?_
  · simp [Form.map, Form.fits, hleftKind, hrightKind]
  · simp [Form.children, hleft, hright]

theorem canonical_onLast {f : Node → Node}
    (hf : ∀ m : Node, m.Everywhere Canonical → m.kind.isExpression = true →
      m.kind ≠ .binaryExpression → (f m).Everywhere Canonical)
    (hkind : ∀ m, (f m).kind.isExpression = true ∧ (f m).kind ≠ .binaryExpression)
    (h : n.Everywhere Canonical) (hn : n.kind.isExpression = true) :
    (n.onLast f).Everywhere Canonical := by
  by_cases hbinary : n.kind = .binaryExpression
  · obtain ⟨hfits, hgrouped, _⟩ := h.root.plain
    rcases n with ⟨form, span, comments⟩
    cases form with
    | binaryExpression left operator right =>
      simp only [fits, Form.map, Form.fits, Bool.and_eq_true] at hfits
      have hleft := h.child (c := left) (by simp [children, Form.children])
      have hright := h.child (c := right) (by simp [children, Form.children])
      exact canonical_binary operator hleft (hf right hright hfits.2 (bne_iff_ne.mp hgrouped))
        hfits.1 (hkind right).1 (hkind right).2
    | _ => cases hbinary
  · rw [onLast_of_kind_ne f hbinary]
    exact hf n h hn hbinary

theorem isCompound_kind_onLast {f : Node → Node} (hf : ∀ m, (f m).kind.isCompound = true)
    (n : Node) : (n.onLast f).kind.isCompound = true := by
  unfold onLast
  split
  · rfl
  · exact hf n

theorem kind_chain (left : Node) (operator : Operator) (n : Node) :
    (chain left operator n).kind = .binaryExpression := by
  fun_cases chain left operator n <;> rfl

theorem canonical_chain {left : Node} (operator : Operator) (hleft : left.Everywhere Canonical)
    (hleftKind : left.kind.isExpression = true) (h : n.Everywhere Canonical)
    (hn : n.kind.isExpression = true) : (chain left operator n).Everywhere Canonical := by
  fun_induction chain left operator n with
  | case1 middle second right span comments ih =>
    obtain ⟨hfits, hgrouped, _⟩ := h.root.plain
    simp only [fits, Form.map, Form.fits, Bool.and_eq_true] at hfits
    have hmiddle := ih (h.child (by simp [children, Form.children])) hfits.1
    have hright := h.child (c := right) (by simp [children, Form.children])
    exact canonical_binary second hmiddle hright (by rw [kind_chain]; rfl) hfits.2
      (bne_iff_ne.mp hgrouped)
  | case2 right hbinary =>
    have hkind : right.kind ≠ .binaryExpression := by
      intro hkind
      rcases right with ⟨form, span, comments⟩
      cases form with
      | binaryExpression => exact hbinary _ _ _ _ _ rfl
      | _ => cases hkind
    exact canonical_binary operator hleft h hleftKind hn hkind

theorem kind_giveElse (alternative n : Node) : (giveElse alternative n).kind = n.kind := by
  fun_cases giveElse alternative n <;> rfl

/-- The `else` ends up after a statement that cannot take it, so the new branch is grouped. -/
theorem canonical_giveElse {alternative : Node} (halternative : alternative.Everywhere Canonical)
    (hkind : alternative.kind.isStatement = true) (h : n.Everywhere Canonical) :
    (giveElse alternative n).Everywhere Canonical := by
  fun_induction giveElse alternative n with
  | case1 label statement _ _ ih | case2 label statement _ _ ih =>
    have hfits := h.root.plain.fits
    have hlabel := h.child (c := label) (by simp [children, Form.children])
    have hstatement := ih (h.child (by simp [children, Form.children]))
    refine canonical_ofForm ?_ rfl rfl ?_
    · simp only [Form.map, kind_giveElse]
      exact hfits
    · simp [Form.children, hlabel, hstatement]
  | case3 condition consequent _ _ hopen ih =>
    have hfits := h.root.plain.fits
    have hcondition := h.child (c := condition) (by simp [children, Form.children])
    have hconsequent := ih (h.child (by simp [children, Form.children]))
    refine canonical_ofForm ?_ rfl rfl ?_
    · simp only [Form.map, kind_giveElse]
      exact hfits
    · simp [Form.children, hcondition, hconsequent]
  | case4 condition consequent _ _ hopen =>
    have hfits := h.root.plain.fits
    have hcondition := h.child (c := condition) (by simp [children, Form.children])
    have hconsequent := h.child (c := consequent) (by simp [children, Form.children])
    refine canonical_ofForm ?_ ?_ rfl ?_
    · simp only [fits, Form.map, Option.map_none, Form.fits, Option.all_none, Bool.and_true,
        Bool.and_eq_true] at hfits
      simp [Form.map, Form.fits, hfits, hkind]
    · simpa [isGrouped, ofForm] using hopen
    · simp [Form.children, hcondition, hconsequent, halternative]
  | case5 condition consequent other _ _ ih =>
    obtain ⟨hfits, hgrouped, _⟩ := h.root.plain
    have hcondition := h.child (c := condition) (by simp [children, Form.children])
    have hconsequent := h.child (c := consequent) (by simp [children, Form.children])
    have hother := ih (h.child (by simp [children, Form.children]))
    refine canonical_ofForm ?_ hgrouped rfl ?_
    · simp only [Form.map, Option.map_some, kind_giveElse]
      exact hfits
    · simp [Form.children, hcondition, hconsequent, hother]
  | case6 => exact h

end Node

/-- The one step of regrouping: over canonical children it gives a canonical node of the same kind,
or another compound one. -/
theorem Form.canonical_regroup {form : Form Node} (hfits : (form.map Node.kind).fits = true)
    (hwords : form.hasPlainWords = true)
    (h : ∀ c ∈ form.children, c.Everywhere Node.Canonical) :
    form.regroup.Everywhere Node.Canonical ∧ form.regroup.kind.Alike form.kind := by
  cases form with
  | callExpression callee arguments =>
    simp only [map, fits, Bool.and_eq_true, List.all_map] at hfits
    have hcall (m : Node) (hm : m.Everywhere Node.Canonical) (hkind : m.kind.isExpression = true)
        (hbinary : m.kind ≠ .binaryExpression) :
        (Node.ofForm (.callExpression m arguments)).Everywhere Node.Canonical := by
      refine Node.canonical_ofForm ?_ (bne_iff_ne.mpr hbinary) rfl ?_
      · simp only [map, fits, hkind, List.all_map, hfits.2, Bool.and_self]
      · intro c hc
        rcases List.mem_cons.mp hc with rfl | hc
        · exact hm
        · exact h c (List.mem_cons_of_mem callee hc)
    exact ⟨Node.canonical_onLast hcall (fun m => ⟨rfl, Kind.noConfusion⟩)
        (h callee List.mem_cons_self) hfits.1,
      .inr ⟨Node.isCompound_kind_onLast (fun m => rfl) callee, rfl⟩⟩
  | propertyAccess object property =>
    simp only [map, fits, Bool.and_eq_true] at hfits
    have haccess (m : Node) (hm : m.Everywhere Node.Canonical) (hkind : m.kind.isExpression = true)
        (hbinary : m.kind ≠ .binaryExpression) :
        (Node.ofForm (.propertyAccess m property)).Everywhere Node.Canonical := by
      refine Node.canonical_ofForm ?_ (bne_iff_ne.mpr hbinary) rfl ?_
      · simp only [map, fits, hkind, hfits.2, Bool.and_self]
      · simp [children, hm, h property (by simp [children])]
    exact ⟨Node.canonical_onLast haccess (fun m => ⟨rfl, Kind.noConfusion⟩)
        (h object List.mem_cons_self) hfits.1,
      .inr ⟨Node.isCompound_kind_onLast (fun m => rfl) object, rfl⟩⟩
  | binaryExpression left operator right =>
    simp only [map, fits, Bool.and_eq_true] at hfits
    exact ⟨Node.canonical_chain operator (h left List.mem_cons_self) hfits.1
      (h right (by simp [children])) hfits.2, .inl (Node.kind_chain left operator right)⟩
  | ifStatement condition consequent alternative =>
    cases alternative with
    | none => exact ⟨Node.canonical_ofForm hfits rfl hwords h, .inl rfl⟩
    | some alternative =>
      rw [regroup]
      split
      · simp only [map, fits, Option.map_some, Option.all_some, Bool.and_eq_true] at hfits
        have hgiven := Node.canonical_giveElse (h alternative (by simp [children])) hfits.2
          (h consequent (by simp [children]))
        refine ⟨Node.canonical_ofForm ?_ rfl rfl ?_, .inl rfl⟩
        · simp [map, fits, Node.kind_giveElse, hfits]
        · simp [children, hgiven, h condition (by simp [children])]
      · rename_i hclosed
        exact ⟨Node.canonical_ofForm hfits (by simpa [Node.isGrouped, Node.ofForm] using hclosed)
          hwords h, .inl rfl⟩
  | _ => exact ⟨Node.canonical_ofForm hfits rfl hwords h, .inl rfl⟩

namespace Node

variable {n a b : Node}

theorem canonical_regrouped (h : n.Readable) :
    n.regrouped.Everywhere Canonical ∧ n.regrouped.kind.Alike n.kind := by
  induction n using Node.induction with
  | step n ih =>
    have hroot := h.root
    simp only [isReadable, Bool.and_eq_true] at hroot
    have hfits : ((n.form.map regrouped).map kind).fits = true := by
      rw [Form.map_map]
      exact Form.fits_map_of_sorts (fun c hc => (ih c hc (h.child hc)).2.keeps) hroot.1.1
    have hwords : (n.form.map regrouped).hasPlainWords = true := by
      rw [Form.hasPlainWords_map]
      exact hroot.2
    have hchildren : ∀ c ∈ (n.form.map regrouped).children, c.Everywhere Canonical := by
      rw [Form.children_map]
      exact List.forall_mem_map.mpr fun c hc => (ih c hc (h.child hc)).1
    have hstep := Form.canonical_regroup hfits hwords hchildren
    rw [Form.kind_map] at hstep
    rw [regrouped_eq]
    exact hstep

theorem render_regrouped (h : n.Readable) (layout : Layout) (level : Nat) :
    n.regrouped.render layout level = n.render layout level := by
  induction n using Node.induction generalizing level with
  | step n ih =>
    have hroot := h.root
    simp only [isReadable, Bool.and_eq_true, List.isEmpty_iff] at hroot
    have hchildren : ∀ c ∈ (n.form.map regrouped).children,
        c.Everywhere fun m => m.comments = [] := by
      rw [Form.children_map]
      exact List.forall_mem_map.mpr fun c hc =>
        (canonical_regrouped (h.child hc)).1.imp fun _ hm => hm.comments
    have htext : ∀ c ∈ n.form.children, render layout c.regrouped = render layout c :=
      fun c hc => funext (ih c hc (h.child hc))
    rw [regrouped_eq, Form.render_regroup layout hchildren, Form.map_map, Form.map_congr htext,
      render_of_comments layout hroot.1.2]

/-! ### Texts that are read back -/

theorem isLexical_of_canonical (h : n.Everywhere Canonical) :
    n.Everywhere fun m => m.isLexical = true := by
  refine h.imp fun m hm => ?_
  unfold isLexical
  rw [hm.comments, Form.hasWords_of_hasPlainWords hm.plain.words]
  rfl

/-- Both are statements, or both are expressions. -/
def SameSort (a b : Node) : Prop :=
  a.kind.isStatement = true ∧ b.kind.isStatement = true ∨
    a.kind.isExpression = true ∧ b.kind.isExpression = true

instance (a b : Node) : Decidable (SameSort a b) := inferInstanceAs (Decidable (_ ∨ _))

theorem eq_of_print_eq (ha : a.Everywhere Canonical) (hb : b.Everywhere Canonical)
    (hsort : SameSort a b) {layout : Layout} (h : a.print layout = b.print layout) : a = b := by
  have htokens := tokens_eq_of_print_eq (isLexical_of_canonical ha) (isLexical_of_canonical hb) h
  have haplain : a.Everywhere Reader.Plain := ha.imp fun _ hm => hm.plain
  have hbplain : b.Everywhere Reader.Plain := hb.imp fun _ hm => hm.plain
  rw [← bare_of_canonical ha, ← bare_of_canonical hb]
  rcases hsort with ⟨hakind, hbkind⟩ | ⟨hakind, hbkind⟩
  · exact Reader.bare_eq_of_statement_tokens haplain hbplain hakind hbkind htokens
  · exact Reader.bare_eq_of_tokens (haplain.imp fun _ hm => hm.legible)
      (hbplain.imp fun _ hm => hm.legible) hakind hbkind htokens

theorem print_regrouped (h : n.Readable) (layout : Layout) :
    n.regrouped.print layout = n.print layout :=
  congrArg String.ofList (render_regrouped h layout 0)

theorem readable_regrouped (h : n.Readable) : n.regrouped.Readable := by
  refine (canonical_regrouped h).1.imp fun m hm => ?_
  unfold isReadable
  rw [hm.plain.fits, hm.plain.words, hm.comments]
  rfl

theorem grouped_regrouped (h : n.Readable) : n.regrouped.Grouped :=
  (canonical_regrouped h).1.imp fun _ hm => hm.plain.grouped

theorem SameSort.regrouped_right (h : SameSort a b) (hb : b.Readable) :
    SameSort a b.regrouped := by
  have hkeeps := (canonical_regrouped hb).2.keeps
  rcases h with ⟨hakind, hbkind⟩ | ⟨hakind, hbkind⟩
  · exact .inl ⟨hakind, hkeeps Kind.isStatement (by simp [Kind.sorts]) hbkind⟩
  · exact .inr ⟨hakind, hkeeps Kind.isExpression (by simp [Kind.sorts]) hbkind⟩

theorem SameSort.symm (h : SameSort a b) : SameSort b a := Or.imp And.symm And.symm h

/-- The grouped tree with the same text is another tree, unless the tree is grouped itself. -/
theorem bare_regrouped_ne (h : n.Readable) (hgrouped : ¬ n.Grouped) :
    n.regrouped.bare ≠ n.bare := by
  intro heq
  rw [bare_of_canonical (canonical_regrouped h).1] at heq
  apply hgrouped
  apply grouped_of_bare
  rw [← heq]
  exact grouped_regrouped h

theorem print_eq_iff_regrouped_eq (layout : Layout) {a b : Node} (ha : a.Readable)
    (hb : b.Readable) (hsort : SameSort a b) :
    (a.print layout = b.print layout ↔ a.regrouped = b.regrouped) ∧
      (a.Grouped → b.Grouped → a.print layout = b.print layout → a.bare = b.bare) ∧
      (¬ a.Grouped → ∃ c : Node, c.Readable ∧ c.Grouped ∧ SameSort a c ∧
        a.print layout = c.print layout ∧ a.bare ≠ c.bare) := by
  have hiff : a.print layout = b.print layout ↔ a.regrouped = b.regrouped := by
    rw [← print_regrouped ha, ← print_regrouped hb]
    constructor
    · exact eq_of_print_eq (canonical_regrouped ha).1 (canonical_regrouped hb).1
        ((hsort.regrouped_right hb).symm.regrouped_right ha).symm
    · intro h
      rw [h]
  refine ⟨hiff, ?_, ?_⟩
  · intro hagrouped hbgrouped hprint
    rw [← regrouped_of_grouped hagrouped, ← regrouped_of_grouped hbgrouped]
    exact hiff.mp hprint
  · intro hagrouped
    have hself : SameSort a a := hsort.imp (fun h => ⟨h.1, h.1⟩) (fun h => ⟨h.1, h.1⟩)
    exact ⟨a.regrouped, readable_regrouped ha, grouped_regrouped ha, hself.regrouped_right ha,
      (print_regrouped ha layout).symm, (bare_regrouped_ne ha hagrouped).symm⟩

/-- A branch with an `else` after a loop, read from the given place. -/
def loopBranch (span : Span) : Node :=
  let method : Node := ofForm (.propertyAccess (identifier "b") (identifier "c"))
  let rest : Node :=
    ofForm (.binaryExpression (identifier "d") .subtract (ofForm (.numericLiteral "1")))
  let call : Node := ofForm (.callExpression method [rest])
  ⟨.ifStatement (identifier "a")
    (ofForm (.whileStatement (ofForm (.booleanLiteral true)) (ofForm (.expressionStatement call))))
    (some (ofForm (.returnStatement (some (ofForm (.stringLiteral "else ;")))))), span, []⟩

theorem print_loopBranch :
    let a := loopBranch Span.synthetic
    let b := loopBranch ⟨3, 40, 1, 4⟩
    a.Readable ∧ b.Readable ∧ SameSort a b ∧ a.Grouped ∧ b.Grouped ∧ a.print = b.print ∧
      a.regrouped = b.regrouped ∧ a.bare = b.bare :=
  have ha : (loopBranch Span.synthetic).Readable := by decide
  have hb : (loopBranch ⟨3, 40, 1, 4⟩).Readable := by decide
  have hsort : SameSort (loopBranch Span.synthetic) (loopBranch ⟨3, 40, 1, 4⟩) := by decide
  have hagrouped : (loopBranch Span.synthetic).Grouped := by decide
  have hbgrouped : (loopBranch ⟨3, 40, 1, 4⟩).Grouped := by decide
  have hprint : (loopBranch Span.synthetic).print = (loopBranch ⟨3, 40, 1, 4⟩).print := by decide
  have h := print_eq_iff_regrouped_eq {} ha hb hsort
  ⟨ha, hb, hsort, hagrouped, hbgrouped, hprint, h.1.mp hprint,
    h.2.1 hagrouped hbgrouped hprint⟩

/-- Two readable trees of one sort with the same text that are not the same tree. -/
def Collide (a b : Node) : Prop :=
  a.Readable ∧ b.Readable ∧ SameSort a b ∧ a.print = b.print ∧ a.bare ≠ b.bare

instance (a b : Node) : Decidable (Collide a b) := inferInstanceAs (Decidable (_ ∧ _))

/-- The text shows neither how operands are grouped, nor how much is called or has its member taken,
nor to which of two branches an `else` belongs. -/
theorem print_ungrouped :
    let a := identifier "a"
    let b := identifier "b"
    let c := identifier "c"
    let minus (left right : Node) : Node := ofForm (.binaryExpression left .subtract right)
    let call (n : Node) : Node := ofForm (.callExpression n [])
    let member (n : Node) : Node := ofForm (.propertyAccess n c)
    let empty := ofForm .emptyStatement
    let branch (condition consequent : Node) (alternative : Option Node) : Node :=
      ofForm (.ifStatement condition consequent alternative)
    Collide (minus a (minus b c)) (minus (minus a b) c) ∧
      Collide (call (minus a b)) (minus a (call b)) ∧
      Collide (member (minus a b)) (minus a (member b)) ∧
      Collide (branch a (branch b empty none) (some empty))
        (branch a (branch b empty (some empty)) none) := by
  decide

end Node

end EntryTrace
