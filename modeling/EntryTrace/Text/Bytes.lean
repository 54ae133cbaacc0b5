/-!
# Text measured in bytes

Offsets into text count the bytes of its UTF-8 encoding, while the text itself is a list of
characters. An offset that falls inside a character cuts nothing.
-/

namespace EntryTrace.Text

set_option autoImplicit false

/-- The number of bytes that the characters take in UTF-8. -/
def byteLength (cs : List Char) : Nat := cs.foldr (fun c n => c.utf8Size + n) 0

@[simp] theorem byteLength_nil : byteLength [] = 0 := rfl

@[simp] theorem byteLength_cons (c : Char) (cs : List Char) :
    byteLength (c :: cs) = c.utf8Size + byteLength cs := rfl

theorem length_le_byteLength (cs : List Char) : cs.length ≤ byteLength cs := by
  induction cs with
  | nil => exact Nat.le_refl 0
  | cons c cs ih =>
    have hpos := c.utf8Size_pos
    rw [List.length_cons, byteLength_cons]
    omega

theorem byteLength_append (as bs : List Char) :
    byteLength (as ++ bs) = byteLength as + byteLength bs := by
  induction as with
  | nil => simp
  | cons a as ih =>
    simp only [List.cons_append, byteLength_cons, ih]
    omega

/-- Cuts after the first `n` bytes; `none` when there are fewer or when byte `n` is inside a character. -/
def splitBytes? (n : Nat) : List Char → Option (List Char × List Char)
  | [] => if n = 0 then some ([], []) else none
  | c :: cs =>
    if n = 0 then some ([], c :: cs)
    else if c.utf8Size ≤ n then
      (splitBytes? (n - c.utf8Size) cs).map fun cut => (c :: cut.1, cut.2)
    else none

theorem append_of_splitBytes? {n : Nat} {cs as bs : List Char}
    (h : splitBytes? n cs = some (as, bs)) : as ++ bs = cs ∧ byteLength as = n := by
  induction cs generalizing n as with
  | nil =>
    simp only [splitBytes?] at h
    split at h <;> simp_all
  | cons c cs ih =>
    simp only [splitBytes?] at h
    split at h
    · simp_all
    · split at h
      · obtain ⟨cut, hcut, heq⟩ := Option.map_eq_some_iff.mp h
        obtain ⟨rfl, rfl⟩ := Prod.mk.inj heq
        have hrest := ih hcut
        refine ⟨by simp [hrest.1], ?_⟩
        rw [byteLength_cons, hrest.2]
        omega
      · simp at h

end EntryTrace.Text
