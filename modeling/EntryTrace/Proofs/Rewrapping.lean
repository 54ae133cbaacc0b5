import EntryTrace.Proofs.FixedPoint
import EntryTrace.Proofs.GuardedRuns

/-!
# Labeling and tracing again

Without the guard, a function that is labeled again is traced again. Round after round the body goes
one block deeper, behind one more copy of the same log statement, and one more marker is added. What
the rounds before have put in stays as it is, since no label stands in it. The parameters are walked
over in every round too: a default value may hold a labeled function of its own.
-/

namespace EntryTrace

set_option autoImplicit false

namespace Definition

/-- The body behind so many log statements, each in front of a block of what was there before. -/
def nested (d : Definition) : Nat → Node
  | 0 => d.body
  | k + 1 => .block [d.record.statement, d.nested k]

/-- The definition after so many rounds, where one round makes `trace p` of a parameter `p`. -/
def rewrapped (trace : Node → Node) (k : Nat) (d : Definition) : Definition :=
  { d with
    parameters := d.parameters.map trace^[k]
    body := d.nested k
    comments := d.comments ++ List.replicate k marker }

theorem rewrapped_zero (trace : Node → Node) (d : Definition) : d.rewrapped trace 0 = d := by
  simp [rewrapped, nested]

theorem kind_nested {d : Definition} (h : d.body.kind = .block) (k : Nat) :
    (d.nested k).kind = .block := by
  cases k with
  | zero => exact h
  | succ k => rfl

/-- No label stands in what the rounds put around the body. -/
theorem quiet_nested {d : Definition} {guarded : Bool}
    (h : d.body.Everywhere fun m => m.request? guarded = none) (k : Nat) :
    (d.nested k).Everywhere fun m => m.request? guarded = none := by
  induction k with
  | zero => exact h
  | succ k ih =>
    refine Node.everywhere_ofForm.mpr ⟨rfl, ?_⟩
    intro c hc
    simp only [Form.children, List.mem_cons, List.not_mem_nil, or_false] at hc
    rcases hc with rfl | rfl
    · exact d.everywhere_statement fun _ => Node.request?_of_plain
    · exact ih

end Definition

theorem Node.request?_labeled (label : String) (d : Definition) :
    (labeled label d.toNode).request? false = some d :=
  rfl

namespace Setting

variable {s : Setting} {n : Node} {d : Definition}

/-! ### Pass after pass on a parameter -/

theorem kind_iterate_traced {kind : Kind} (hplain : kind.isPlain = true) (h : n.kind = kind)
    (k : Nat) : (s.traced^[k] n).kind = kind := by
  induction k with
  | zero => exact h
  | succ k ih =>
    rw [Function.iterate_succ_apply']
    exact (kind_traced_eq_iff hplain).mpr ih

theorem plainParameter?_iterate_traced (h : n.kind = .parameter) (k : Nat) :
    plainParameter? (s.traced^[k] n) = plainParameter? n := by
  induction k with
  | zero => rfl
  | succ k ih =>
    rw [Function.iterate_succ_apply', plainParameter?_traced (kind_iterate_traced rfl h k), ih]

theorem iterate_traced_of_quiet (h : n.Everywhere fun m => m.request? s.config.skipMarked = none)
    (k : Nat) : s.traced^[k] n = n :=
  Function.iterate_fixed (traced_of_quiet h) k

/-! ### Round after round on a function -/

theorem regular_rewrapped (hd : d.Regular) (k : Nat) : (d.rewrapped s.traced k).Regular := by
  refine ⟨hd.name, ?_, Definition.kind_nested hd.body k⟩
  intro p hp
  obtain ⟨q, hq, rfl⟩ := List.mem_map.mp hp
  exact kind_iterate_traced rfl (hd.parameters q hq) k

/-- Every round logs the same record. -/
theorem record_rewrapped (hd : d.Regular) (k : Nat) : (d.rewrapped s.traced k).record = d.record := by
  have hparameters : plainParameters (d.parameters.map s.traced^[k]) =
      plainParameters d.parameters := by
    unfold plainParameters
    rw [List.filterMap_map]
    apply List.filterMap_congr
    intro p hp
    exact plainParameter?_iterate_traced (hd.parameters p hp) k
  unfold Definition.record Definition.rewrapped
  rw [hparameters]

/-- One round more. -/
theorem traced_rewrapped (hguard : s.config.skipMarked = false) (hd : d.Regular)
    (hbody : d.body.Everywhere fun m => m.request? s.config.skipMarked = none) (label : String)
    (k : Nat) :
    s.traced (.labeled label (d.rewrapped s.traced k).toNode) =
      (d.rewrapped s.traced (k + 1)).toNode := by
  have hrequest : (Node.labeled label (d.rewrapped s.traced k).toNode).request?
      s.config.skipMarked = some (d.rewrapped s.traced k) := by
    rw [hguard]
    exact Node.request?_labeled label _
  have hname : d.name.map s.traced = d.name := by
    cases h : d.name with
    | none => rfl
    | some a => rw [Option.map_some, traced_of_kind_identifier (hd.name a h)]
  have hparameters : (d.parameters.map s.traced^[k]).map s.traced =
      d.parameters.map s.traced^[k + 1] := by
    rw [List.map_map, Function.iterate_succ']
  have hnested : s.traced (d.nested k) = d.nested k :=
    traced_of_quiet (Definition.quiet_nested hbody k)
  have hcomments : d.comments ++ List.replicate k marker ++ [marker] =
      d.comments ++ List.replicate (k + 1) marker := by
    rw [List.replicate_succ', List.append_assoc]
  rw [traced_of_regular hrequest (regular_rewrapped hd k), record_rewrapped hd k]
  simp only [Definition.withLog, Definition.map, Definition.rewrapped, Definition.nested, hname,
    hparameters, hnested, hcomments]

/-- All rounds, from wherever they start. -/
theorem foldl_rewrapped (hguard : s.config.skipMarked = false) (hd : d.Regular)
    (hbody : d.body.Everywhere fun m => m.request? s.config.skipMarked = none)
    (labels : List String) (k : Nat) :
    labels.foldl (fun n label => s.traced (.labeled label n)) (d.rewrapped s.traced k).toNode =
      (d.rewrapped s.traced (k + labels.length)).toNode := by
  induction labels generalizing k with
  | nil => rfl
  | cons label labels ih =>
    rw [List.foldl_cons, traced_rewrapped hguard hd hbody, ih, List.length_cons, Nat.add_right_comm,
      Nat.add_assoc]

theorem foldl_labeled (hguard : s.config.skipMarked = false) (hd : d.Regular)
    (hbody : d.body.Everywhere fun m => m.request? s.config.skipMarked = none)
    (labels : List String) :
    labels.foldl (fun n label => s.traced (.labeled label n)) d.toNode =
      (d.rewrapped s.traced labels.length).toNode := by
  have hrounds := foldl_rewrapped hguard hd hbody labels 0
  rwa [Definition.rewrapped_zero, Nat.zero_add] at hrounds

end Setting

theorem Pass.foldl_traceFile_labeled (file : String) {d : Definition} (hd : d.Regular)
    (hbody : d.body.Everywhere fun m => m.request? false = none) (labels : List String) :
    let pass := fun m => (traceFile ⟨false⟩ file m).value
    labels.foldl (fun n label => pass (.labeled label n)) d.toNode =
        (d.rewrapped pass labels.length).toNode ∧
      ∀ p ∈ d.parameters, (p.Everywhere fun m => m.request? false = none) →
        pass^[labels.length] p = p := by
  refine ⟨?_, ?_⟩
  · exact Setting.foldl_labeled (s := ⟨file, ⟨false⟩⟩) rfl hd hbody labels
  · intro p _ hp
    exact Setting.iterate_traced_of_quiet (s := ⟨file, ⟨false⟩⟩) hp labels.length

/-- A function with a comment of its own, a plain parameter and a pattern. -/
def Definition.commentedPair : Definition where
  name := some (.identifier "f")
  parameters := [.ofForm (.parameter (.identifier "a") none),
    .ofForm (.parameter (.ofForm (.arrayBindingPattern [.identifier "b"])) none)]
  body := .block [.ofForm (.returnStatement (some (.identifier "a")))]
  span := ⟨3, 40, 1, 4⟩
  comments := [⟨.line, " pure"⟩]

theorem Pass.foldl_traceFile_commentedPair :
    let pass := fun m => (traceFile ⟨false⟩ "unit.ts" m).value
    let d := Definition.commentedPair
    d.Regular ∧ (d.body.Everywhere fun m => m.request? false = none) ∧
      ["a", "b"].foldl (fun n label => pass (.labeled label n)) d.toNode =
        (d.rewrapped pass 2).toNode ∧
      (d.rewrapped pass 2).parameters = d.parameters ∧
      (d.rewrapped pass 2).comments = [⟨.line, " pure"⟩, marker, marker] ∧
      (d.rewrapped pass 2).body =
        .block [d.record.statement, .block [d.record.statement, d.body]] := by
  intro pass d
  have hd : d.Regular := d.isRegular_toNode.mp (by decide)
  have hbody : d.body.Everywhere fun m => m.request? false = none := by decide
  have hparameters : ∀ p ∈ d.parameters, p.Everywhere fun m => m.request? false = none := by decide
  obtain ⟨hrounds, hkept⟩ := foldl_traceFile_labeled "unit.ts" hd hbody ["a", "b"]
  refine ⟨hd, hbody, hrounds, ?_, rfl, rfl⟩
  exact (List.map_congr_left fun p hp => hkept p hp (hparameters p hp)).trans (List.map_id' _)

/-- A function whose parameter has a labeled function for its default value. -/
def Definition.labeledDefault : Definition where
  name := some (.identifier "f")
  parameters := [.ofForm (.parameter (.identifier "a")
    (some (.labeled "inner" (.function (some "g") [] (some (.block []))))))]
  body := .block []
  span := Span.synthetic
  comments := []

/-- One round does not leave this parameter as it was, although the body holds no label at all. -/
theorem Pass.traceFile_labeledDefault :
    let pass := fun m => (traceFile ⟨false⟩ "unit.ts" m).value
    let d := Definition.labeledDefault
    d.Regular ∧ (d.body.Everywhere fun m => m.request? false = none) ∧
      ∃ e : Definition,
        ["outer"].foldl (fun n label => pass (.labeled label n)) d.toNode = e.toNode ∧
          e.parameters ≠ d.parameters := by
  intro pass d
  have hd : d.Regular := d.isRegular_toNode.mp (by decide)
  have hbody : d.body.Everywhere fun m => m.request? false = none := by decide
  refine ⟨hd, hbody, d.rewrapped pass 1, ?_, ?_⟩
  · exact Setting.foldl_labeled (s := ⟨"unit.ts", ⟨false⟩⟩) rfl hd hbody ["outer"]
  · intro hsame
    -- a parameter that the pass leaves as it is holds no request
    have hfixed : (⟨"unit.ts", ⟨false⟩⟩ : Setting).traced (d.parameters.head (by decide)) =
        d.parameters.head (by decide) := (List.cons.inj hsame).1
    have hquiet := Setting.quiet_of_traced_eq hfixed
    revert hquiet
    decide

end EntryTrace
