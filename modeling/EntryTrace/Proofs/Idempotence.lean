import EntryTrace.Proofs.Layer

/-!
# The guarded pass is idempotent

With the guard set, the pass leaves no request behind. A label can come to stand directly over a
traced function, when that function stood under a label of its own; the marker then keeps it from
being asked for again.
-/

namespace EntryTrace

set_option autoImplicit false

theorem Definition.hasComment_of_append {d : Definition} {comments : List Comment}
    (h : d.comments = comments ++ [marker]) : d.toNode.hasComment marker.text = true := by
  unfold Node.hasComment toNode
  simp [h]

namespace Setting

variable {s : Setting}

/-- What becomes of a node is no request. -/
theorem request?_traced (hguard : s.config.skipMarked = true) (n : Node) :
    (s.traced n).request? true = none := by
  cases hresult : (s.traced n).request? true with
  | none => rfl
  | some d =>
    obtain ⟨hlabeled, hunmarked⟩ := Node.request?_eq_some_iff.mp hresult
    cases hrequest : n.request? s.config.skipMarked with
    | some e =>
      -- the result is a function, which never stands for a request
      have hkind := Node.kind_of_request hresult
      rw [kind_traced, hrequest] at hkind
      simp at hkind
    | none =>
      obtain ⟨label, hform⟩ := Node.labeledFunction?_eq_some_iff.mp hlabeled
      rw [traced_of_none hrequest] at hform
      obtain ⟨l, m, hn, hm⟩ := Node.labeled_of_mapChildren hform
      rcases definition_of_traced hm with ⟨e, _, hcomments⟩ | ⟨e, rfl, rfl⟩
      · exact absurd ⟨rfl, Definition.hasComment_of_append hcomments⟩ hunmarked
      · -- the function stood there before and had no marker
        have hbefore : n.request? true = some e :=
          Node.request?_eq_some_iff.mpr ⟨Node.labeledFunction?_eq_some_iff.mpr ⟨l, hn⟩, hunmarked⟩
        rw [hguard, hbefore] at hrequest
        simp at hrequest

theorem quiet_traced (hguard : s.config.skipMarked = true) (n : Node) :
    (s.traced n).Everywhere fun m => m.request? true = none := by
  refine everywhere_traced (q := fun _ => True) (fun m _ => request?_traced hguard m) ?_ ?_
    (fun _ _ => trivial)
  · intro d m _
    rfl
  · intro d
    exact d.everywhere_statement fun _ => Node.request?_of_plain

theorem traced_traced (hguard : s.config.skipMarked = true) {t : Setting}
    (ht : t.config.skipMarked = true) (n : Node) : t.traced (s.traced n) = s.traced n := by
  apply traced_of_quiet
  rw [ht]
  exact quiet_traced hguard n

end Setting

/-! ### Whole programs -/

namespace Pass

theorem value_traceProgram (pass : Pass) :
    pass.traceProgram.value =
      ⟨pass.program.units.map fun unit => (traceUnit pass.config unit).value⟩ := by
  unfold traceProgram
  rw [Logged.value_bind, Logged.value_pure, Logged.value_mapM]

theorem traceFile_traceFile (file file' : String) (n : Node) :
    (traceFile ⟨true⟩ file' (traceFile ⟨true⟩ file n).value).value =
      (traceFile ⟨true⟩ file n).value :=
  Setting.traced_traced (s := ⟨file, ⟨true⟩⟩) rfl (t := ⟨file', ⟨true⟩⟩) rfl n

theorem traceUnit_traceUnit (unit : ProgramUnit) :
    (traceUnit ⟨true⟩ (traceUnit ⟨true⟩ unit).value).value = (traceUnit ⟨true⟩ unit).value := by
  simp [traceUnit, traceFile_traceFile]

theorem guarded_idempotent :
    (∀ (file file' : String) (n : Node),
      (traceFile ⟨true⟩ file' (traceFile ⟨true⟩ file n).value).value =
        (traceFile ⟨true⟩ file n).value) ∧
    ∀ (program : Program) (diagnostics diagnostics' : Diagnostics),
      let result := (start program ⟨true⟩ diagnostics).value.1.traceProgram.value
      (start result ⟨true⟩ diagnostics').value.1.traceProgram.value = result := by
  refine ⟨traceFile_traceFile, ?_⟩
  intro program diagnostics diagnostics'
  have hstart : ∀ (p : Program) (ds : Diagnostics), (start p ⟨true⟩ ds).value.1 = ⟨p, ⟨true⟩⟩ :=
    fun _ _ => rfl
  simp only [hstart, value_traceProgram, List.map_map, Program.mk.injEq]
  apply List.map_congr_left
  intro unit _
  exact traceUnit_traceUnit unit

end Pass

end EntryTrace
