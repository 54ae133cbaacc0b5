import EntryTrace.Instrument.Pass
import Mathlib.Data.List.Basic

/-!
# Removing diagnostics by index

The indices of the entries with a code are collected before the first removal, and every removal
moves the entries behind it. As the indices are worked off from the highest down, the entries in
front of the last removal are still where they were (`exists_eraseAll`), so each index is in bounds
when its turn comes and takes away the entry it was collected for. What is left is the plain filter.
-/

namespace EntryTrace

set_option autoImplicit false

namespace Diagnostics

variable {code : Nat} {ds : Diagnostics}

theorem erase_of_lt {index : Nat} (h : index < ds.length) :
    erase ds index = .ok (ds[index], ds.eraseIdx index) := by
  simp [erase, h]

/-- Removals at descending indices stay in bounds, and what stands in front of them all stays. -/
theorem exists_eraseAll {indices : List Nat} (horder : indices.Pairwise (· > ·))
    (hbounds : ∀ i ∈ indices, i < ds.length) :
    ∃ rest, eraseAll indices ds = .ok rest ∧ ∀ i, (∀ j ∈ indices, i < j) → rest[i]? = ds[i]? := by
  induction indices generalizing ds with
  | nil => exact ⟨ds, rfl, fun _ _ => rfl⟩
  | cons index indices ih =>
    obtain ⟨hbelow, hothers⟩ := List.pairwise_cons.mp horder
    have hindex := hbounds index List.mem_cons_self
    have hshorter : ∀ i ∈ indices, i < (ds.eraseIdx index).length := by
      intro i hi
      have hi' := hbelow i hi
      rw [List.length_eraseIdx_of_lt hindex]
      omega
    obtain ⟨rest, hrest, hfront⟩ := ih hothers hshorter
    refine ⟨rest, by simp only [eraseAll, erase_of_lt hindex, hrest], ?_⟩
    intro i hi
    have hlt := hi index List.mem_cons_self
    rw [hfront i fun j hj => hi j (List.mem_cons_of_mem index hj),
      List.getElem?_eraseIdx_of_lt hlt]

theorem mem_indicesOf {index : Nat} :
    index ∈ indicesOf code ds ↔ ∃ d, ds[index]? = some d ∧ d.code = code := by
  unfold indicesOf
  constructor
  · intro h
    obtain ⟨⟨d, i⟩, hentry, rfl⟩ := List.mem_map.mp h
    obtain ⟨hmem, hcode⟩ := List.mem_filter.mp hentry
    exact ⟨d, List.mem_zipIdx_iff_getElem?.mp hmem, beq_iff_eq.mp hcode⟩
  · rintro ⟨d, hd, hcode⟩
    refine List.mem_map.mpr ⟨(d, index), List.mem_filter.mpr ⟨?_, beq_iff_eq.mpr hcode⟩, rfl⟩
    exact List.mem_zipIdx_iff_getElem?.mpr hd

theorem indicesOf_ascending (code : Nat) (ds : Diagnostics) :
    (indicesOf code ds).Pairwise (· < ·) := by
  have hall : (ds.zipIdx.map Prod.snd).Pairwise (· < ·) := by
    rw [List.zipIdx_map_snd]
    exact List.pairwise_lt_range'
  exact hall.sublist ((List.filter_sublist).map Prod.snd)

/-- When the turn of an index comes, the entry it was collected for is still there. -/
theorem erase_in_turn {done later : List Nat} {index : Nat}
    (h : (indicesOf code ds).reverse = done ++ index :: later) :
    ∃ current d, eraseAll done ds = .ok current ∧
      erase current index = .ok (d, current.eraseIdx index) ∧ ds[index]? = some d ∧
      d.code = code := by
  have horder : (done ++ index :: later).Pairwise (· > ·) := by
    rw [← h, List.pairwise_reverse]
    exact indicesOf_ascending code ds
  have hmem : ∀ i ∈ done ++ index :: later, ∃ d, ds[i]? = some d ∧ d.code = code := by
    intro i hi
    rw [← h, List.mem_reverse] at hi
    exact mem_indicesOf.mp hi
  obtain ⟨hdone, -, hbefore⟩ := List.pairwise_append.mp horder
  have hbounds : ∀ i ∈ done, i < ds.length := by
    intro i hi
    obtain ⟨d, hd, -⟩ := hmem i (List.mem_append_left _ hi)
    exact (List.getElem?_eq_some_iff.mp hd).1
  obtain ⟨current, hcurrent, hfront⟩ := exists_eraseAll hdone hbounds
  obtain ⟨d, hd, hcode⟩ := hmem index (by simp)
  have hkept : current[index]? = some d := by
    rw [hfront index fun j hj => hbefore j hj index List.mem_cons_self, hd]
  refine ⟨current, d, hcurrent, ?_, hd, hcode⟩
  simp only [erase, hkept]

theorem length_indicesOf (code : Nat) (ds : Diagnostics) :
    (indicesOf code ds).length = ds.countP fun d => d.hasCode code := by
  have hentries : (ds.zipIdx.map Prod.fst).countP (fun d => d.hasCode code) =
      ds.zipIdx.countP fun entry => entry.1.hasCode code := List.countP_map
  rw [List.zipIdx_map_fst] at hentries
  rw [hentries, indicesOf, List.length_map, List.countP_eq_length_filter]

/-- How many entries have the code. -/
def occurrences (code : Nat) (ds : Diagnostics) : Nat := ds.countP fun d => d.hasCode code

theorem occurrences_add_length_filter (code : Nat) (ds : Diagnostics) :
    occurrences code ds + (ds.filter fun d => !d.hasCode code).length = ds.length := by
  unfold occurrences
  rw [List.countP_eq_length_filter]
  exact (List.length_eq_length_filter_add _).symm

theorem occurrences_filter (code : Nat) (ds : Diagnostics) :
    occurrences code (ds.filter fun d => !d.hasCode code) = 0 := by
  unfold occurrences
  rw [List.countP_eq_zero]
  intro d hd
  simpa using (List.mem_filter.mp hd).2

/-- The removal by indices is a filter that reports what it took away. -/
theorem withoutCode_eq (code : Nat) (ds : Diagnostics) :
    withoutCode code ds =
      ⟨ds.filter fun d => !d.hasCode code,
        if occurrences code ds = 0 then []
        else [.diagnosticsRemoved code (occurrences code ds)
          (ds.filter fun d => !d.hasCode code).length]⟩ := by
  have hlength : (indicesOf code ds).length = occurrences code ds := length_indicesOf code ds
  unfold withoutCode
  split
  · rename_i rest hrest
    rw [eraseAll_indicesOf] at hrest
    obtain rfl := Except.ok.inj hrest
    by_cases hnone : occurrences code ds = 0
    · rw [if_pos hnone, List.eq_nil_of_length_eq_zero (hlength.trans hnone)]
      rfl
    · have hsome : (indicesOf code ds).isEmpty = false := by
        rw [List.isEmpty_eq_false_iff, ← List.length_pos_iff]
        omega
      rw [if_neg hnone, hsome, hlength]
      rfl
  · rename_i e herror
    rw [eraseAll_indicesOf] at herror
    cases herror

/-- Removal of all entries with a code: every single removal is in bounds, the others are left as
they were, and the report adds up. It does not matter how often or in which order codes are removed,
nor for which program the pass is started. -/
theorem withoutCode_removes_exactly (code : Nat) (ds : Diagnostics) :
    let left := (withoutCode code ds).value
    (∀ done index later, (indicesOf code ds).reverse = done ++ index :: later →
      ∃ current d, eraseAll done ds = .ok current ∧
        erase current index = .ok (d, current.eraseIdx index) ∧ d.code = code) ∧
    eraseAll (indicesOf code ds).reverse ds = .ok left ∧
    left = ds.filter (fun d => d.code != code) ∧
    (withoutCode code ds).log =
      (if ∃ d ∈ ds, d.code = code then
        [.diagnosticsRemoved code (occurrences code ds) left.length] else []) ∧
    occurrences code ds + left.length = ds.length ∧
    withoutCode code left = ⟨left, []⟩ ∧
    (∀ other, (withoutCode other left).value =
      (withoutCode code (withoutCode other ds).value).value) ∧
    ∀ (program : Program) (config : Config),
      (Pass.start program config ds).value.2 =
        ds.filter fun d => d.code != Diagnostic.unusedLabelCode := by
  intro left
  have hleft : left = ds.filter fun d => !d.hasCode code :=
    congrArg Logged.value (withoutCode_eq code ds)
  refine ⟨?_, ?_, hleft, ?_, ?_, ?_, ?_, ?_⟩
  · intro done index later h
    obtain ⟨current, d, hcurrent, herase, -, hcode⟩ := erase_in_turn h
    exact ⟨current, d, hcurrent, herase, hcode⟩
  · rw [hleft]
    exact eraseAll_indicesOf code ds
  · have hsome : (∃ d ∈ ds, d.code = code) ↔ ¬ occurrences code ds = 0 := by
      simp [occurrences, Diagnostic.hasCode]
    rw [withoutCode_eq, hleft]
    simp only [hsome, ite_not]
  · rw [hleft]
    exact occurrences_add_length_filter code ds
  · rw [withoutCode_eq, hleft, occurrences_filter, List.filter_filter]
    simp
  · intro other
    rw [withoutCode_eq, withoutCode_eq, withoutCode_eq, hleft]
    exact List.filter_comm _ _ ds
  · intro program config
    exact congrArg Logged.value (withoutCode_eq Diagnostic.unusedLabelCode ds)

/-- Entries with the code at both ends and next to each other, with different severities. -/
def scattered : Diagnostics :=
  [.unusedLabel, ⟨2304, .error, "Cannot find name.", some ⟨some "a.ts", 20, 1⟩⟩,
    ⟨1344, .warning, "Unused label.", none⟩, .unusedLabel, ⟨7006, .suggestion, "", none⟩,
    Diagnostic.unusedLabel.atLocation ⟨none, 4, 2⟩]

/-- Of the indices 0, 2, 3 and 5 the third in turn is 2, when four entries are left. -/
theorem withoutCode_scattered :
    (indicesOf 1344 scattered).reverse = [5, 3] ++ 2 :: [0] ∧
      (∃ current d, eraseAll [5, 3] scattered = .ok current ∧
        erase current 2 = .ok (d, current.eraseIdx 2) ∧ d.code = 1344) ∧
      (withoutCode 1344 scattered).value =
        [⟨2304, .error, "Cannot find name.", some ⟨some "a.ts", 20, 1⟩⟩,
          ⟨7006, .suggestion, "", none⟩] ∧
      (withoutCode 1344 scattered).log = [.diagnosticsRemoved 1344 4 2] := by
  have hindices : (indicesOf 1344 scattered).reverse = [5, 3] ++ 2 :: [0] := by decide
  obtain ⟨hturn, -, hleft, hlog, -⟩ := withoutCode_removes_exactly 1344 scattered
  refine ⟨hindices, hturn [5, 3] 2 [0] hindices, hleft, ?_⟩
  rw [hlog, hleft]
  decide

end Diagnostics

end EntryTrace
