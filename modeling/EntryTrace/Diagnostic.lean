import EntryTrace.Event

/-!
# Diagnostics

The host hands over what its checker reported, in order. Entries are removed by index, which is
refused for an index that is out of bounds. To remove all entries with a code their indices are
collected first and then removed from the highest down, so that no removal moves an entry whose
turn is still to come (`eraseAll_indicesOf`).
-/

namespace EntryTrace

set_option autoImplicit false

inductive Severity where
  | error
  | warning
  | suggestion
  | message
  deriving DecidableEq, Repr

def Severity.word : Severity → String
  | error => "error"
  | warning => "warning"
  | suggestion => "suggestion"
  | message => "message"

/-- The stretch of a file that a diagnostic points to, in bytes. -/
structure Location where
  file : Option String
  start : Nat
  length : Nat
  deriving DecidableEq, Repr

structure Diagnostic where
  code : Nat
  severity : Severity
  message : String
  location : Option Location := none
  deriving DecidableEq, Repr

namespace Diagnostic

/-- The code for a label that no jump refers to. -/
def unusedLabelCode : Nat := 1344

def unusedLabel : Diagnostic := ⟨unusedLabelCode, .error, "Unused label.", none⟩

def atLocation (d : Diagnostic) (location : Location) : Diagnostic :=
  { d with location := some location }

def hasCode (d : Diagnostic) (code : Nat) : Bool := d.code == code

/-- The diagnostic in one line; its place is shown only when the file is known. -/
def describe (d : Diagnostic) : String :=
  let place := match d.location with
    | some ⟨some file, start, _⟩ => file ++ "@" ++ String.ofList (Nat.toDigits 10 start) ++ ": "
    | _ => ""
  place ++ d.severity.word ++ " TS" ++ String.ofList (Nat.toDigits 10 d.code) ++ ": " ++ d.message

end Diagnostic

/-- An index at which there is no entry to remove. -/
structure OutOfBounds where
  index : Nat
  length : Nat
  deriving DecidableEq, Repr

def OutOfBounds.message (e : OutOfBounds) : String :=
  "removal index (is " ++ String.ofList (Nat.toDigits 10 e.index) ++ ") should be < len (is " ++
    String.ofList (Nat.toDigits 10 e.length) ++ ")"

abbrev Diagnostics := List Diagnostic

namespace Diagnostics

/-- Removes the entry at an index; later entries move up. -/
def erase (ds : Diagnostics) (index : Nat) : Except OutOfBounds (Diagnostic × Diagnostics) :=
  match ds[index]? with
  | some d => .ok (d, ds.eraseIdx index)
  | none => .error ⟨index, ds.length⟩

/-- Removes the entries at the indices, one after another. -/
def eraseAll : List Nat → Diagnostics → Except OutOfBounds Diagnostics
  | [], ds => .ok ds
  | index :: indices, ds =>
    match erase ds index with
    | .ok (_, rest) => eraseAll indices rest
    | .error e => .error e

/-- The indices of the entries with a code, in order. -/
def indicesOf (code : Nat) (ds : Diagnostics) : List Nat :=
  (ds.zipIdx.filter fun entry => entry.1.hasCode code).map Prod.snd

theorem erase_append {ds rest others : Diagnostics} {index : Nat} {d : Diagnostic}
    (h : erase ds index = .ok (d, rest)) :
    erase (ds ++ others) index = .ok (d, rest ++ others) := by
  unfold erase at h ⊢
  split at h
  · rename_i found hfound
    have hlt : index < ds.length := (List.getElem?_eq_some_iff.mp hfound).1
    simp only [Except.ok.injEq, Prod.mk.injEq] at h
    rw [List.getElem?_append_left hlt, hfound]
    simp [← h.1, ← h.2, List.eraseIdx_append_of_lt_length hlt]
  · simp at h

theorem eraseAll_append {ds rest : Diagnostics} {indices : List Nat}
    (h : eraseAll indices ds = .ok rest) (others : Diagnostics) :
    eraseAll indices (ds ++ others) = .ok (rest ++ others) := by
  induction indices generalizing ds with
  | nil =>
    simp only [eraseAll, Except.ok.injEq] at h ⊢
    rw [h]
  | cons index indices ih =>
    simp only [eraseAll] at h ⊢
    split at h
    · rename_i d after hafter
      rw [erase_append hafter]
      exact ih h
    · simp at h

theorem erase_last (ds : Diagnostics) (d : Diagnostic) :
    erase (ds ++ [d]) ds.length = .ok (d, ds) := by
  simp [erase, List.eraseIdx_append_of_length_le (Nat.le_refl _)]

theorem indicesOf_append_singleton (code : Nat) (ds : Diagnostics) (d : Diagnostic) :
    indicesOf code (ds ++ [d]) =
      indicesOf code ds ++ (if d.hasCode code then [ds.length] else []) := by
  unfold indicesOf
  rw [List.zipIdx_append, List.filter_append, List.map_append]
  simp only [List.zipIdx_cons, List.zipIdx_nil, Nat.zero_add, List.filter_cons, List.filter_nil]
  split <;> simp

/-- Removing the entries with a code from the highest index down never leaves the bounds, and keeps
the other entries in order. -/
theorem eraseAll_indicesOf (code : Nat) (ds : Diagnostics) :
    eraseAll (indicesOf code ds).reverse ds = .ok (ds.filter fun d => !d.hasCode code) := by
  obtain ⟨rs, rfl⟩ : ∃ rs, ds = List.reverse rs := ⟨ds.reverse, by simp⟩
  induction rs with
  | nil => rfl
  | cons d rs ih =>
    rw [List.reverse_cons, indicesOf_append_singleton, List.reverse_append, List.filter_append]
    by_cases hcode : d.hasCode code
    · simp only [hcode, ↓reduceIte, List.reverse_singleton, List.singleton_append, eraseAll,
        erase_last, ih]
      simp [hcode]
    · simp only [hcode, Bool.false_eq_true, ↓reduceIte, List.reverse_nil, List.nil_append]
      rw [eraseAll_append ih]
      simp [hcode]

/-- Removes every entry with a code and reports the removal, if there was anything to remove. -/
def withoutCode (code : Nat) (ds : Diagnostics) : Logged Event Diagnostics :=
  match h : eraseAll (indicesOf code ds).reverse ds with
  | .ok rest => do
    if !(indicesOf code ds).isEmpty then
      Logged.emit (.diagnosticsRemoved code (indicesOf code ds).length rest.length)
    return rest
  | .error _ => by
    rw [eraseAll_indicesOf] at h
    exact nomatch h

/-- Removes every entry about an unused label. -/
def withoutUnusedLabels (ds : Diagnostics) : Logged Event Diagnostics :=
  withoutCode Diagnostic.unusedLabelCode ds

end Diagnostics

end EntryTrace
