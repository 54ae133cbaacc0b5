/-!
# Values with a log

A computation that reports what it does returns its value together with the items it logged, in
order. Running one computation after another joins their logs.
-/

namespace EntryTrace

set_option autoImplicit false

structure Logged (ε α : Type) where
  value : α
  log : List ε
  deriving DecidableEq, Repr

namespace Logged

variable {ε ε' α β : Type}

instance : Monad (Logged ε) where
  pure a := ⟨a, []⟩
  bind x f := ⟨(f x.value).value, x.log ++ (f x.value).log⟩

/-- Logs one item. -/
def emit (item : ε) : Logged ε Unit := ⟨(), [item]⟩

/-- Replaces every item of the log. -/
def mapLog (f : ε → ε') (x : Logged ε α) : Logged ε' α := ⟨x.value, x.log.map f⟩

@[ext] theorem ext {x y : Logged ε α} (hvalue : x.value = y.value) (hlog : x.log = y.log) :
    x = y := by
  cases x
  cases y
  simp_all

@[simp] theorem value_pure (a : α) : (pure a : Logged ε α).value = a := rfl

@[simp] theorem log_pure (a : α) : (pure a : Logged ε α).log = [] := rfl

@[simp] theorem value_bind (x : Logged ε α) (f : α → Logged ε β) :
    (x >>= f).value = (f x.value).value := rfl

@[simp] theorem log_bind (x : Logged ε α) (f : α → Logged ε β) :
    (x >>= f).log = x.log ++ (f x.value).log := rfl

instance : LawfulMonad (Logged ε) := LawfulMonad.mk' (Logged ε)
  (fun x => by
    apply Logged.ext
    · rfl
    · exact List.append_nil x.log)
  (fun _ _ => rfl)
  (fun x f g => by
    apply Logged.ext
    · rfl
    · exact List.append_assoc x.log (f x.value).log (g (f x.value).value).log)

end Logged

end EntryTrace
