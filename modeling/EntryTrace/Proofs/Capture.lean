import EntryTrace.Proofs.Labels

/-!
# What the names in the log statement refer to

The log statement is put at the top of a function, where the parameters are in scope. It refers to
the plain parameters, and its calls are headed by two names that stand for globals. The rule writes
these two names whatever the parameters are called, and the pass keeps what the parameters bind. So
a parameter hides a global from the log statement exactly when it binds the global's name, be it
deep inside a pattern. All of this is about the parameters: names that are declared in the body,
which may hide a global as well, are not looked at.
-/

namespace EntryTrace

set_option autoImplicit false

namespace Node

variable {n : Node}

/-! ### Names bound, names referred to, names at the head of calls -/

end Node

/-! ### The log statement -/

namespace EntryRecord

variable {record : EntryRecord}

end EntryRecord

namespace Definition

end Definition

/-! ### The pass -/

namespace Setting

variable {s : Setting} {n : Node} {d : Definition}

/-- The function that the pass makes of the definition a request is for. -/
def instrumented (s : Setting) (d : Definition) : Definition :=
  { d.map fun c => d.record.enclose (s.traced c) with comments := d.comments ++ [marker] }

end Setting

end EntryTrace
