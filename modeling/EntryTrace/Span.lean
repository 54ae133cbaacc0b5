import EntryTrace.Text.Bytes

/-!
# Spans of source text

A parsed node carries the byte range it was read from and the line and column where the range
starts. A node that a transformation made has no source text and carries the synthetic span,
which is told apart by its line alone: real lines count from one.
-/

namespace EntryTrace

set_option autoImplicit false

structure Span where
  start : Nat
  stop : Nat
  line : Nat
  column : Nat
  deriving DecidableEq, Repr

namespace Span

def synthetic : Span := ⟨0, 0, 0, 0⟩

def isSynthetic (s : Span) : Bool := s.line == 0

/-- From the start of `s` to the end of `t`, at the line and column of `s`. -/
def through (s t : Span) : Span := { s with stop := t.stop }

/-- Length in bytes; a reversed span has length zero. -/
def length (s : Span) : Nat := s.stop - s.start

def isEmpty (s : Span) : Bool := s.start == s.stop

/-- The text that the span covers; `none` for a reversed range, for one that leaves the source, and
for one that starts or ends inside a character. -/
def text? (s : Span) (source : List Char) : Option (List Char) :=
  if s.start ≤ s.stop then
    (Text.splitBytes? s.start source).bind fun cut =>
      (Text.splitBytes? (s.stop - s.start) cut.2).map Prod.fst
  else none

end Span

end EntryTrace
