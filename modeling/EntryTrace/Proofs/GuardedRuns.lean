import EntryTrace.Proofs.Structural
import EntryTrace.Session
import Mathlib.Data.List.Basic

/-!
# Guarded runs

A session with the guard set may apply the pass again and again, put labels on what it has, double
it and pick parts of it. No function is ever traced twice on the way: each carries no marker, or one
marker and a body that starts with the log statement made from its own name and parameters.
-/

namespace EntryTrace

set_option autoImplicit false

namespace Node

/-- One marker, and a body of two statements: the function's own log statement and a block. -/
def TracedOnce (n : Node) : Prop :=
  n.comments.countP (fun c => c.text == marker.text) = 1 ∧
    ∃ (d : Definition) (inner : Node), n = d.toNode ∧
      d.body.block? = some [d.record.statement, inner] ∧ inner.kind = .block

/-- What a guarded run keeps at every node. -/
structure Sound (n : Node) : Prop where
  regular : n.isRegular = true
  function : n.kind = .functionDeclaration → n.hasComment marker.text = false ∨ n.TracedOnce

theorem sound_of_kind_ne {n : Node} (h : n.kind ≠ .functionDeclaration) : n.Sound := by
  refine ⟨?_, fun hkind => absurd hkind h⟩
  unfold isRegular
  split
  · rename_i hform
    exact absurd (by rw [kind, hform]; rfl) h
  · rfl

theorem sound_of_plain {n : Node} (h : n.kind.isPlain = true) : n.Sound := by
  apply sound_of_kind_ne
  intro hkind
  rw [hkind] at h
  exact absurd h Bool.false_ne_true

theorem sound_block {statements : List Node} (h : ∀ c ∈ statements, c.Everywhere Sound) :
    (block statements).Everywhere Sound :=
  everywhere_ofForm.mpr ⟨sound_of_plain rfl, h⟩

theorem sound_labeled (label : String) {n : Node} (h : n.Everywhere Sound) :
    (labeled label n).Everywhere Sound := by
  have hroot : (labeled label n).Sound :=
    sound_of_kind_ne (show Kind.labeledStatement ≠ .functionDeclaration by decide)
  refine everywhere_ofForm.mpr ⟨hroot, ?_⟩
  intro c hc
  simp only [Form.children, List.mem_cons, List.not_mem_nil, or_false] at hc
  rcases hc with rfl | rfl
  · rw [everywhere_of_kind_identifier rfl]
    exact sound_of_plain rfl
  · exact h

theorem block?_mapChildren (f : Node → Node) (n : Node) :
    (n.mapChildren f).block? = n.block?.map (List.map f) := by
  unfold block? mapChildren
  cases n.form <;> rfl

theorem kind_of_block? {n : Node} {statements : List Node} (h : n.block? = some statements) :
    n.kind = .block := by
  unfold block? at h
  unfold kind
  split at h
  · rename_i hform
    rw [hform]
    rfl
  · simp at h

end Node

namespace Setting

variable {s : Setting} {n : Node} {d : Definition}

theorem kind_traced_beq {kind : Kind} (h : kind.isPlain = true) :
    ((s.traced n).kind == kind) = (n.kind == kind) := by
  rw [Bool.eq_iff_iff, beq_iff_eq, beq_iff_eq]
  exact kind_traced_eq_iff h

theorem isRegular_mapChildren_traced (s : Setting) (n : Node) :
    (n.mapChildren s.traced).isRegular = n.isRegular := by
  rcases n with ⟨form, span, comments⟩
  cases form with
  | functionDeclaration name parameters body =>
    have hname (a : Node) : ((s.traced a).kind == .identifier) = (a.kind == .identifier) :=
      kind_traced_beq rfl
    have hparameter (a : Node) : ((s.traced a).kind == .parameter) = (a.kind == .parameter) :=
      kind_traced_beq rfl
    have hbody (a : Node) : ((s.traced a).kind == .block) = (a.kind == .block) :=
      kind_traced_beq rfl
    simp [Node.isRegular, Node.mapChildren, Form.map, Option.all_map, List.all_map,
      Function.comp_def, hname, hparameter, hbody]
  | _ => rfl

/-- The pass changes neither plain names nor which parameters have one. -/
theorem plainParameter?_traced (h : n.kind = .parameter) :
    plainParameter? (s.traced n) = plainParameter? n := by
  rw [traced_of_none (Node.request?_of_plain (by rw [h]; rfl))]
  rcases n with ⟨form, span, comments⟩
  cases form with
  | parameter name initial =>
    unfold plainParameter? Node.mapChildren
    by_cases hname : name.kind = .identifier
    · simp [Form.map, traced_of_kind_identifier hname]
    · have htraced : (s.traced name).kind ≠ .identifier :=
        mt (kind_traced_eq_iff rfl).mp hname
      simp [Form.map, hname, htraced]
  | _ => simp [Node.kind, Form.kind] at h

theorem record_map_traced (hd : d.Regular) : (d.map s.traced).record = d.record := by
  have hname : (d.name.map s.traced).bind Node.identifier? = d.name.bind Node.identifier? := by
    cases h : d.name with
    | none => rfl
    | some a => rw [Option.map_some, traced_of_kind_identifier (hd.name a h)]
  have hparameters : plainParameters (d.parameters.map s.traced) = plainParameters d.parameters := by
    unfold plainParameters
    rw [List.filterMap_map]
    apply List.filterMap_congr
    intro a ha
    exact plainParameter?_traced (hd.parameters a ha)
  unfold Definition.record Definition.map
  rw [hname, hparameters]

theorem regular_map_traced (hd : d.Regular) : (d.map s.traced).Regular := by
  rw [← Definition.isRegular_toNode, ← Definition.mapChildren_toNode, isRegular_mapChildren_traced]
  exact d.isRegular_toNode.mpr hd

/-- A function traced before the pass starts with the same log statement after it. -/
theorem tracedOnce_mapChildren (hregular : n.isRegular = true) (h : n.TracedOnce) :
    (n.mapChildren s.traced).TracedOnce := by
  obtain ⟨hmarkers, d, inner, rfl, hbody, hinner⟩ := h
  have hd := d.isRegular_toNode.mp hregular
  refine ⟨hmarkers, d.map s.traced, s.traced inner, rfl, ?_, kind_traced_eq_block_iff.mpr hinner⟩
  have hnone : d.body.request? s.config.skipMarked = none :=
    Node.request?_of_plain (by rw [Node.kind_of_block? hbody]; rfl)
  rw [record_map_traced hd]
  change (s.traced d.body).block? = _
  rw [traced_of_none hnone, Node.block?_mapChildren, hbody]
  simp only [Option.map_some, List.map_cons, List.map_nil, traced_statement]

theorem tracedOnce_withLog (hd : d.Regular) (hmarked : d.toNode.hasComment marker.text = false) :
    ((d.map s.traced).withLog d.record).toNode.TracedOnce := by
  refine ⟨?_, (d.map s.traced).withLog d.record, s.traced d.body, rfl, ?_,
    kind_traced_eq_block_iff.mpr hd.body⟩
  · have hnone : d.comments.countP (fun c => c.text == marker.text) = 0 :=
      List.countP_eq_zero.mpr (List.any_eq_false.mp hmarked)
    change (d.comments ++ [marker]).countP _ = 1
    rw [List.countP_append, hnone]
    rfl
  · have hrecord : ((d.map s.traced).withLog d.record).record = d.record :=
      record_map_traced (s := s) hd
    rw [hrecord]
    rfl

theorem sound_traced (hguard : s.config.skipMarked = true) (h : n.Everywhere Node.Sound) :
    (s.traced n).Sound := by
  cases hrequest : n.request? s.config.skipMarked with
  | none =>
    rw [traced_of_none hrequest]
    refine ⟨?_, ?_⟩
    · rw [isRegular_mapChildren_traced]
      exact h.root.regular
    · intro hkind
      rw [Node.kind_mapChildren] at hkind
      rcases h.root.function hkind with hmarked | honce
      · exact .inl hmarked
      · exact .inr (tracedOnce_mapChildren h.root.regular honce)
  | some d =>
    have hd := d.isRegular_toNode.mp (h.child (Node.definition_mem_children hrequest)).root.regular
    have hmarked : d.toNode.hasComment marker.text = false := by
      have := (Node.request?_eq_some_iff.mp hrequest).2
      simpa [hguard] using this
    rw [traced_of_regular hrequest hd]
    refine ⟨?_, fun _ => .inr (tracedOnce_withLog hd hmarked)⟩
    rw [Definition.isRegular_toNode]
    have hparts := regular_map_traced (s := s) hd
    exact ⟨hparts.name, hparts.parameters, rfl⟩

theorem everywhere_sound_traced (hguard : s.config.skipMarked = true)
    (h : n.Everywhere Node.Sound) : (s.traced n).Everywhere Node.Sound := by
  refine everywhere_traced (fun m hm => sound_traced hguard hm) ?_ ?_ h
  · intro d m _
    exact Node.sound_of_plain rfl
  · intro d
    exact d.everywhere_statement fun _ => Node.sound_of_plain

end Setting

/-! ### Sessions -/

namespace Session

/-- The pass, a label on the whole tree, two copies of the tree in a block, and the choice of a
child. -/
def Step.isShaping : Step → Bool
  | .pass | .relabel _ | .double | .child _ => true
  | _ => false

/-- The invariant of a guarded run. -/
structure Guarded (s : Session) : Prop where
  guard : s.setting.config.skipMarked = true
  sound : s.node.Everywhere Node.Sound

variable {s : Session}

theorem setting_step {step : Step} (hstep : step.isShaping = true) :
    (s.step step).session.setting = s.setting := by
  cases step with
  | pass | relabel | double | child => rfl
  | _ => simp [Step.isShaping] at hstep

theorem guarded_step (h : s.Guarded) {step : Step} (hstep : step.isShaping = true) :
    (s.step step).session.Guarded := by
  refine ⟨?_, ?_⟩
  · rw [setting_step hstep]
    exact h.guard
  · cases step with
    | pass => exact Setting.everywhere_sound_traced h.guard h.sound
    | relabel label => exact Node.sound_labeled label h.sound
    | double =>
      apply Node.sound_block
      intro c hc
      simp only [List.mem_cons, List.not_mem_nil, or_false, or_self] at hc
      rw [hc]
      exact h.sound
    | child index =>
      change (s.node.children[index]?.getD s.node).Everywhere Node.Sound
      cases hchild : s.node.children[index]? with
      | none => exact h.sound
      | some c => exact h.sound.child (List.mem_of_getElem? hchild)
    | _ => simp [Step.isShaping] at hstep

theorem guarded_run (h : s.Guarded) {steps : List Step}
    (hsteps : ∀ step ∈ steps, step.isShaping = true) :
    ∀ outcome ∈ s.run steps, outcome.session.Guarded := by
  induction steps generalizing s with
  | nil => exact fun _ houtcome => absurd houtcome List.not_mem_nil
  | cons first others ih =>
    have hfirst := guarded_step h (hsteps first List.mem_cons_self)
    intro outcome houtcome
    rcases List.mem_cons.mp houtcome with rfl | houtcome
    · exact hfirst
    · exact ih hfirst (fun step hstep => hsteps step (List.mem_cons_of_mem first hstep)) outcome
        houtcome

/-- The session after steps taken one after another. -/
def after (s : Session) (steps : List Step) : Session :=
  (s.run steps).getLast?.elim s Outcome.session

theorem guarded_after (h : s.Guarded) {steps : List Step}
    (hsteps : ∀ step ∈ steps, step.isShaping = true) : (s.after steps).Guarded := by
  unfold after
  cases hlast : (s.run steps).getLast? with
  | none => exact h
  | some outcome => exact guarded_run h hsteps outcome (List.mem_of_getLast? hlast)

theorem after_tracedOnce (hguard : s.setting.config.skipMarked = true)
    (hregular : s.node.Everywhere fun m => m.isRegular = true)
    (hunmarked : s.node.Everywhere fun m =>
      m.kind = .functionDeclaration → m.hasComment marker.text = false)
    {steps : List Step} (hsteps : ∀ step ∈ steps, step.isShaping = true) :
    (s.after steps).node.Everywhere fun m =>
      m.kind = .functionDeclaration → m.hasComment marker.text = false ∨ m.TracedOnce := by
  have hstart : s.Guarded :=
    ⟨hguard, fun m hm => ⟨hregular m hm, fun hkind => .inl (hunmarked m hm hkind)⟩⟩
  exact (guarded_after hstart hsteps).sound.imp fun m hm => hm.function

/-- The run relabels a traced function, doubles it and picks a copy, with the pass in between. -/
theorem after_chainedLabels :
    ((⟨Node.chainedLabels, ⟨"unit.ts", ⟨true⟩⟩⟩ : Session).after
      [.pass, .child 0, .relabel "again", .pass, .double, .pass, .child 1]).node.Everywhere fun m =>
        m.kind = .functionDeclaration → m.hasComment marker.text = false ∨ m.TracedOnce :=
  after_tracedOnce rfl (by decide) (by decide) (by decide)

end Session

end EntryTrace
