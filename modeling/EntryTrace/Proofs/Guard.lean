import EntryTrace.Proofs.Labels

/-!
# What the guard decides

Two runs of the pass on one tree, with different settings, give the same tree exactly when they
agree on the request at every node. They never part silently: where one of them takes a labeled
statement for a request and the other does not, one result has a function in its place and the
other a label, and nothing around it hides the difference. The guard makes a run part from the
unguarded one only at a label on a marked function.
-/

namespace EntryTrace

set_option autoImplicit false

namespace Node

variable {n : Node} {d : Definition} {guarded : Bool}

theorem mapChildren_eq_iff {f g : Node → Node} :
    n.mapChildren f = n.mapChildren g ↔ ∀ c ∈ n.children, f c = g c := by
  constructor
  · intro h
    have hchildren := congrArg children h
    rw [children_mapChildren, children_mapChildren] at hchildren
    exact List.map_inj_left.mp hchildren
  · exact mapChildren_congr

/-- A property of all nodes that are no labeled statements holds everywhere at a request when it
holds of the request itself and everywhere in the parts of the definition. -/
theorem everywhere_of_request {p : Node → Prop} (h : n.request? guarded = some d)
    (hlabel : n.hasPlainLabel = true) (hother : ∀ m : Node, m.kind ≠ .labeledStatement → p m)
    (hroot : p n) (hparts : ∀ c ∈ d.toNode.children, c.Everywhere p) : n.Everywhere p := by
  rcases n with ⟨form, span, comments⟩
  obtain ⟨label, rfl⟩ := exists_label_of_request h
  have hidentifier : label.kind = .identifier := beq_iff_eq.mp hlabel
  refine everywhere_iff.mpr ⟨hroot, ?_⟩
  intro c hc
  simp only [children, Form.children, List.mem_cons, List.not_mem_nil, or_false] at hc
  rcases hc with rfl | rfl
  · rw [everywhere_of_kind_identifier hidentifier]
    apply hother
    rw [hidentifier]
    decide
  · exact everywhere_iff.mpr ⟨hother d.toNode d.kind_toNode_ne, hparts⟩

theorem eq_of_request {guarded' : Bool} {e : Definition} (hd : n.request? guarded = some d)
    (he : n.request? guarded' = some e) : d = e := by
  have hlabeled := (request?_eq_some_iff.mp hd).1
  rw [(request?_eq_some_iff.mp he).1] at hlabeled
  exact (Option.some.inj hlabeled).symm

/-- The guard is decisive at labels on marked functions only. -/
theorem request?_true_eq_false_iff :
    n.request? true = n.request? false ↔
      ∀ d ∈ n.labeledFunction?, d.toNode.hasComment marker.text = false := by
  unfold request?
  cases n.labeledFunction? with
  | none => simp
  | some d =>
    cases h : d.toNode.hasComment marker.text <;> simp [Option.filter, h]

end Node

theorem EntryRecord.enclose_injective (record : EntryRecord) : Function.Injective record.enclose := by
  intro m n h
  unfold enclose at h
  by_cases hm : m.kind = .block <;> by_cases hn : n.kind = .block
  · rw [if_pos hm, if_pos hn] at h
    simpa [Node.block, Node.ofForm] using h
  · rw [if_pos hm, if_neg hn] at h
    exact absurd (by rw [← h]; rfl) hn
  · rw [if_neg hm, if_pos hn] at h
    exact absurd (by rw [h]; rfl) hm
  · rw [if_neg hm, if_neg hn] at h
    exact h

namespace Setting

variable {s t : Setting} {n : Node}

theorem traced_eq_of_request?_eq
    (h : n.Everywhere fun m => m.request? s.config.skipMarked = m.request? t.config.skipMarked) :
    s.traced n = t.traced n := by
  induction n using Node.request_induction s.config.skipMarked with
  | kept n hrequest ih =>
    have hsame := h.root
    rw [hrequest] at hsame
    rw [traced_of_none hrequest, traced_of_none hsame.symm]
    exact Node.mapChildren_congr fun c hc => ih c hc (h.child hc)
  | requested n d hrequest ih =>
    have hsame := h.root
    rw [hrequest] at hsame
    rw [traced_of_request hrequest, traced_of_request hsame.symm]
    apply Node.mapChildren_congr
    intro c hc
    rw [ih c hc ((h.definition hrequest).child hc)]

/-- Of all that a setting holds, the tree depends on the guard alone. -/
theorem traced_congr (h : s.config.skipMarked = t.config.skipMarked) (n : Node) :
    s.traced n = t.traced n := by
  apply traced_eq_of_request?_eq
  intro m _
  rw [h]

/-- A request leaves a function behind, and a labeled statement that is none stays one. -/
theorem request?_eq_of_traced_eq (h : s.traced n = t.traced n) :
    n.request? s.config.skipMarked = n.request? t.config.skipMarked := by
  have hkind := congrArg Node.kind h
  rw [kind_traced, kind_traced] at hkind
  cases hs : n.request? s.config.skipMarked with
  | none =>
    cases ht : n.request? t.config.skipMarked with
    | none => rfl
    | some d =>
      -- a labeled statement here, a function there
      rw [hs, ht, Node.kind_of_request ht] at hkind
      simp at hkind
  | some d =>
    cases ht : n.request? t.config.skipMarked with
    | none =>
      rw [hs, ht, Node.kind_of_request hs] at hkind
      simp at hkind
    | some e => rw [Node.eq_of_request hs ht]

theorem everywhere_request?_eq (hlabels : n.Everywhere fun m => m.hasPlainLabel = true)
    (h : s.traced n = t.traced n) :
    n.Everywhere fun m => m.request? s.config.skipMarked = m.request? t.config.skipMarked := by
  induction n using Node.request_induction s.config.skipMarked with
  | kept n hrequest ih =>
    have hroot := request?_eq_of_traced_eq h
    rw [traced_of_none hrequest, traced_of_none (hroot.symm.trans hrequest),
      Node.mapChildren_eq_iff] at h
    refine Node.everywhere_iff.mpr ⟨hroot, ?_⟩
    intro c hc
    exact ih c hc (hlabels.child hc) (h c hc)
  | requested n d hrequest ih =>
    have hroot := request?_eq_of_traced_eq h
    rw [traced_of_request hrequest, traced_of_request (hroot.symm.trans hrequest),
      Node.mapChildren_eq_iff] at h
    refine Node.everywhere_of_request hrequest hlabels.root ?_ hroot ?_
    · intro m hm
      rw [Node.request?_of_kind_ne hm, Node.request?_of_kind_ne hm]
    · intro c hc
      have hpart : s.traced c = t.traced c := d.record.enclose_injective (h c hc)
      exact ih c hc ((hlabels.definition hrequest).child hc) hpart

end Setting

theorem Pass.traceFile_guard_eq_iff (file file' : String) {n : Node}
    (h : n.Everywhere fun m => m.hasPlainLabel = true) :
    (traceFile ⟨true⟩ file n).value = (traceFile ⟨false⟩ file' n).value ↔
      n.Everywhere fun m =>
        ∀ d ∈ m.labeledFunction?, d.toNode.hasComment marker.text = false := by
  simp only [← Node.request?_true_eq_false_iff]
  constructor
  · exact Setting.everywhere_request?_eq (s := ⟨file, ⟨true⟩⟩) (t := ⟨file', ⟨false⟩⟩) h
  · exact Setting.traced_eq_of_request?_eq (s := ⟨file, ⟨true⟩⟩) (t := ⟨file', ⟨false⟩⟩)

theorem Pass.traceFile_guard_repeatedLabels :
    (Node.repeatedLabels.Everywhere fun m => m.hasPlainLabel = true) ∧
      (traceFile ⟨true⟩ "unit.ts" Node.repeatedLabels).value ≠
        (traceFile ⟨false⟩ "unit.ts" Node.repeatedLabels).value ∧
      (Node.chainedLabels.Everywhere fun m => m.hasPlainLabel = true) ∧
      (traceFile ⟨true⟩ "unit.ts" Node.chainedLabels).value =
        (traceFile ⟨false⟩ "unit.ts" Node.chainedLabels).value :=
  have hrepeated : Node.repeatedLabels.Everywhere fun m => m.hasPlainLabel = true := by decide
  have hchained : Node.chainedLabels.Everywhere fun m => m.hasPlainLabel = true := by decide
  ⟨hrepeated, (traceFile_guard_eq_iff "unit.ts" "unit.ts" hrepeated).not.mpr (by decide),
    hchained, (traceFile_guard_eq_iff "unit.ts" "unit.ts" hchained).mpr (by decide)⟩

end EntryTrace
