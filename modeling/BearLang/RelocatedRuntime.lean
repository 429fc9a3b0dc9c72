import BearLang.RelocatedCode

/-!
# Runs on relocated states

The builtin operators, the evaluator and the compiler do the same on cells at other
addresses, so a run has a run beside it from every state that agrees with its own under a
relocation.
-/

namespace BearLang.RelocatedCode

open CallPrograms Program

set_option autoImplicit false

section Builtins

variable {r : Relocation} {W : World}

end Builtins

section Evaluator

variable {r : Relocation} {W : World}

end Evaluator

section Runs

variable {r : Relocation} {W : World} {α β : Type} {g : α → β} {s t s' t' : State}

end Runs

end BearLang.RelocatedCode
