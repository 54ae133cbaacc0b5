import EntryTrace.Span

/-!
# The text under a span

A span covers a text exactly when the source can be cut into a part that ends where the span starts,
the text, and a part that starts where the span ends, all in bytes of UTF-8. Such a cut exists when
both ends are boundaries of characters in the right order. Two covered texts that meet are covered
together by the span from the first through the second.
-/

namespace EntryTrace

set_option autoImplicit false

/-! ### Cutting -/

namespace Text

theorem byteLength_toList (text : String) : byteLength text.toList = text.utf8ByteSize := by
  rw [← String.ofList_toList (s := text), String.toList_ofList]
  induction text.toList with
  | nil => rfl
  | cons c cs ih =>
    rw [byteLength_cons, ih, String.ofList_cons, String.utf8ByteSize_append,
      String.utf8ByteSize_singleton]

theorem splitBytes?_append (as bs : List Char) :
    splitBytes? (byteLength as) (as ++ bs) = some (as, bs) := by
  induction as with
  | nil => cases bs <;> rfl
  | cons a as ih =>
    have hpos := a.utf8Size_pos
    rw [List.cons_append, byteLength_cons, splitBytes?, if_neg (by omega), if_pos (by omega),
      Nat.add_sub_cancel_left, ih]
    rfl

theorem splitBytes?_eq_some_iff {n : Nat} {cs as bs : List Char} :
    splitBytes? n cs = some (as, bs) ↔ cs = as ++ bs ∧ byteLength as = n := by
  constructor
  · intro h
    obtain ⟨happend, hlength⟩ := append_of_splitBytes? h
    exact ⟨happend.symm, hlength⟩
  · rintro ⟨rfl, rfl⟩
    exact splitBytes?_append as bs

/-- A character ends, or the text starts, at this index. -/
def IsBoundary (cs : List Char) (index : Nat) : Prop :=
  ∃ before after, cs = before ++ after ∧ byteLength before = index

theorem isBoundary_iff_isValid {source : String} {index : Nat} :
    IsBoundary source.toList index ↔ String.Pos.Raw.IsValid source ⟨index⟩ := by
  rw [String.Pos.Raw.isValid_iff_exists_append]
  constructor
  · rintro ⟨before, after, hcut, hlength⟩
    refine ⟨String.ofList before, String.ofList after, ?_, ?_⟩
    · rw [← String.ofList_append, ← hcut, String.ofList_toList]
    · rw [← hlength, ← String.toList_ofList (l := before), byteLength_toList, String.toList_ofList]
      rfl
  · rintro ⟨before, after, rfl, hlength⟩
    refine ⟨before.toList, after.toList, String.toList_append, ?_⟩
    rw [byteLength_toList]
    exact (congrArg String.Pos.Raw.byteIdx hlength).symm

/-- Of two beginnings of a text, the shorter one begins the longer one. -/
theorem append_of_byteLength_le {as bs as' bs' : List Char} (h : as ++ bs = as' ++ bs')
    (hle : byteLength as ≤ byteLength as') : ∃ middle, as' = as ++ middle ∧ bs = middle ++ bs' := by
  rcases List.append_eq_append_iff.mp h with ⟨middle, rfl, rfl⟩ | ⟨middle, rfl, rfl⟩
  · exact ⟨middle, rfl, rfl⟩
  · rw [byteLength_append] at hle
    have hlength := length_le_byteLength middle
    obtain rfl : middle = [] := List.length_eq_zero_iff.mp (by omega)
    exact ⟨[], by simp, by simp⟩

end Text

/-! ### Covered texts -/

namespace Span

open Text

variable {s a b : Span} {source t x y : List Char}

theorem text?_eq_some_iff :
    s.text? source = some t ↔
      ∃ p q, source = p ++ t ++ q ∧ byteLength p = s.start ∧ byteLength (p ++ t) = s.stop := by
  unfold text?
  constructor
  · intro h
    split at h
    · rename_i hle
      obtain ⟨⟨p, rest⟩, hstart, h⟩ := Option.bind_eq_some_iff.mp h
      obtain ⟨⟨covered, q⟩, hstop, rfl⟩ := Option.map_eq_some_iff.mp h
      obtain ⟨rfl, hp⟩ := splitBytes?_eq_some_iff.mp hstart
      obtain ⟨rfl, ht⟩ := splitBytes?_eq_some_iff.mp hstop
      refine ⟨p, q, (List.append_assoc ..).symm, hp, ?_⟩
      rw [byteLength_append, hp, ht]
      omega
    · simp at h
  · rintro ⟨p, q, rfl, hstart, hstop⟩
    rw [byteLength_append] at hstop
    have ht : byteLength t = s.stop - s.start := by omega
    rw [if_pos (by omega), List.append_assoc, ← hstart, splitBytes?_append, Option.bind_some, hstart,
      ← ht, splitBytes?_append]
    rfl

theorem byteLength_of_text? (h : s.text? source = some t) : byteLength t = s.length := by
  obtain ⟨p, q, _, hstart, hstop⟩ := text?_eq_some_iff.mp h
  rw [byteLength_append] at hstop
  unfold length
  omega

/-- A span covers some text exactly when its ends are boundaries in the right order. -/
theorem isSome_text?_iff :
    (s.text? source).isSome ↔
      s.start ≤ s.stop ∧ IsBoundary source s.start ∧ IsBoundary source s.stop := by
  rw [Option.isSome_iff_exists]
  constructor
  · rintro ⟨t, h⟩
    obtain ⟨p, q, rfl, hstart, hstop⟩ := text?_eq_some_iff.mp h
    refine ⟨?_, ⟨p, t ++ q, List.append_assoc .., hstart⟩, ⟨p ++ t, q, rfl, hstop⟩⟩
    rw [byteLength_append] at hstop
    omega
  · rintro ⟨hle, ⟨p, rest, rfl, hstart⟩, ⟨front, q, hcut, hstop⟩⟩
    obtain ⟨t, rfl, rfl⟩ := append_of_byteLength_le hcut (by omega)
    exact ⟨t, text?_eq_some_iff.mpr ⟨p, q, (List.append_assoc ..).symm, hstart, hstop⟩⟩

/-- Texts that meet are covered together. -/
theorem text?_through_of_meet (hx : a.text? source = some x) (hy : b.text? source = some y)
    (hmeet : a.stop = b.start) : (a.through b).text? source = some (x ++ y) := by
  obtain ⟨p, q, rfl, hstart, hstop⟩ := text?_eq_some_iff.mp hx
  obtain ⟨p', q', hcut, hstart', hstop'⟩ := text?_eq_some_iff.mp hy
  -- the second text starts where the first one ends, so it is the front of what follows
  rw [List.append_assoc p' y q'] at hcut
  obtain ⟨middle, rfl, rfl⟩ := append_of_byteLength_le hcut (by omega)
  have hmiddle : middle = [] := by
    have hlength := length_le_byteLength middle
    rw [byteLength_append] at hstart'
    exact List.length_eq_zero_iff.mp (by omega)
  subst hmiddle
  refine text?_eq_some_iff.mpr ⟨p, q', by simp, hstart, ?_⟩
  rw [List.append_nil] at hstop'
  rw [← List.append_assoc]
  exact hstop'

theorem isSome_text?_through (hx : a.text? source = some x) (hy : b.text? source = some y)
    (hle : a.start ≤ b.stop) : ((a.through b).text? source).isSome := by
  have ha := isSome_text?_iff.mp (Option.isSome_of_eq_some hx)
  have hb := isSome_text?_iff.mp (Option.isSome_of_eq_some hy)
  exact isSome_text?_iff.mpr ⟨hle, ha.2.1, hb.2.2⟩

end Span

/-- The text under a span is its range of bytes; a span that is reversed, leaves the source or starts
or ends inside a character covers none. -/
theorem Span.text?_byte_range (source : String) :
    (∀ (s : Span) (t : String), s.text? source.toList = some t.toList ↔
      ∃ p q : String, source = p ++ t ++ q ∧ p.utf8ByteSize = s.start ∧
        (p ++ t).utf8ByteSize = s.stop) ∧
    (∀ (s : Span) (t : String), s.text? source.toList = some t.toList →
      t.utf8ByteSize = s.length) ∧
    (∀ s : Span, s.text? source.toList = none ↔
      s.stop < s.start ∨ source.utf8ByteSize < s.stop ∨
        ¬ String.Pos.Raw.IsValid source ⟨s.start⟩ ∨ ¬ String.Pos.Raw.IsValid source ⟨s.stop⟩) ∧
    (∀ (a b : Span) (x y : String), a.text? source.toList = some x.toList →
      b.text? source.toList = some y.toList →
        (a.stop = b.start → (a.through b).text? source.toList = some (x ++ y).toList) ∧
        (a.start ≤ b.stop → ((a.through b).text? source.toList).isSome)) := by
  refine ⟨?_, ?_, ?_, ?_⟩
  · intro s t
    rw [text?_eq_some_iff]
    constructor
    · rintro ⟨p, q, hcut, hstart, hstop⟩
      refine ⟨String.ofList p, String.ofList q, ?_, ?_, ?_⟩
      · rw [← String.toList_inj, hcut]
        simp
      · rw [← Text.byteLength_toList, String.toList_ofList, hstart]
      · rw [← Text.byteLength_toList, String.toList_append, String.toList_ofList, hstop]
    · rintro ⟨p, q, rfl, hstart, hstop⟩
      refine ⟨p.toList, q.toList, by simp, ?_, ?_⟩
      · rw [Text.byteLength_toList, hstart]
      · rw [← String.toList_append, Text.byteLength_toList, hstop]
  · intro s t h
    rw [← Text.byteLength_toList]
    exact byteLength_of_text? h
  · intro s
    have hinside (hvalid : String.Pos.Raw.IsValid source ⟨s.stop⟩) :
        s.stop ≤ source.utf8ByteSize := hvalid.le_rawEndPos
    rw [← Option.not_isSome_iff_eq_none, isSome_text?_iff, Text.isBoundary_iff_isValid,
      Text.isBoundary_iff_isValid]
    grind
  · intro a b x y hx hy
    refine ⟨?_, isSome_text?_through hx hy⟩
    intro hmeet
    rw [String.toList_append]
    exact text?_through_of_meet hx hy hmeet

/-- Two texts that meet behind a character of two bytes, and a span that starts inside it. -/
theorem Span.text?_accented :
    let a : Span := ⟨0, 2, 1, 1⟩
    let b : Span := ⟨2, 4, 1, 2⟩
    a.text? "état".toList = some "é".toList ∧ b.text? "état".toList = some "ta".toList ∧
      (a.through b).text? "état".toList = some ("é" ++ "ta").toList ∧
      (⟨1, 4, 1, 1⟩ : Span).text? "état".toList = none := by
  intro a b
  have ha : a.text? "état".toList = some "é".toList := by decide
  have hb : b.text? "état".toList = some "ta".toList := by decide
  exact ⟨ha, hb, ((text?_byte_range "état").2.2.2 a b "é" "ta" ha hb).1 rfl, by decide⟩

end EntryTrace
