/-!
# Lines and columns

A place in text is a byte index. Its line counts the line feeds before it, from one; its column
counts the bytes since the last of them, from zero.
-/

namespace EntryTrace.Text

set_option autoImplicit false

structure Position where
  line : Nat
  column : Nat
  deriving DecidableEq, Repr

/-- The position behind the first `index` bytes. -/
def Position.ofIndex (bytes : List UInt8) (index : Nat) : Position :=
  let passed := bytes.take index
  ⟨1 + passed.count 10, (passed.reverse.takeWhile (· != 10)).length⟩

/-- The bytes of the text in UTF-8. -/
def bytes (cs : List Char) : List UInt8 := cs.flatMap String.utf8EncodeChar

end EntryTrace.Text
