import BearLang.Assignments

/-!
# Activations of functions and opers

A function has one context for its parameters and local bindings, made where the function
is, and every call binds its parameters there; an oper has a new one for every call. The
record below numbers the calls. It notes for every binding the call that stored it, and for
every call the calls around it: the one in which the value that is called was made, the one
in which the value called there was made, and so on.
-/

namespace BearLang.ActivationIsolation

open CallPrograms ContextRefinement Assignments

set_option autoImplicit false

section Contexts

variable {s t : State} {op : Op} {p q : Ptr} {c : Ctx}

/-- A store keeps the parent, and moves no other binding. -/
theorem store_keeps {old new : Ctx} {id : Nat} {key val : Ptr}
    (stores : old.store id key val = some new) : new.parent = old.parent ∧
      ∀ i, i ≠ id → new.vals.getD i .null ≠ .null →
        new.vals.getD i .null = old.vals.getD i .null := by
  have elsewhere {slots : List Ptr} {i : Nat} (other : i ≠ id) :
      (slots.set id val).getD i .null = slots.getD i .null := by
    rw [List.getD_eq_getElem?_getD, List.getElem?_set_ne other.symm, ← List.getD_eq_getElem?_getD]
  by_cases inside : id < old.valsCount
  · simp only [Ctx.store, if_pos inside, Option.ite_none_right_eq_some, Option.some.injEq] at stores
    obtain ⟨_, rfl⟩ := stores
    exact ⟨rfl, fun i other _ => elsewhere other⟩
  · simp only [Ctx.store, if_neg inside, Option.ite_none_right_eq_some, Option.some.injEq] at stores
    obtain ⟨_, rfl⟩ := stores
    refine ⟨rfl, fun i other filled => ?_⟩
    have grown : ((old.grow (id + 8)).vals.set id val).getD i .null =
        (old.grow (id + 8)).vals.getD i .null := elsewhere other
    have copied : (old.grow (id + 8)).vals.getD i .null =
        if i < old.valsCount then old.vals.getD i .null else
          (List.replicate (id + 8) Ptr.null).getD i .null :=
      get_copy_slots (by rw [List.length_replicate]; omega) i
    rw [get_replicate_null] at copied
    split at copied
    · exact grown.trans copied
    · exact absurd (grown.trans copied) filled

/-- What an operation makes of a context that was there: its parent stays, and a binding is
the old one or the one stored. -/
theorem context_step {answer : op.Answer} (stepped : step op s = some (answer, t))
    (away : Away [] s p) (known : ctxAt t p = some c) :
    ∃ old, ctxAt s p = some old ∧ c.parent = old.parent ∧
      ∀ i, c.vals.getD i .null ≠ .null → c.vals.getD i .null = old.vals.getD i .null ∨
        ∃ key val, op = .ctxStore p i key val := by
  obtain ⟨cell, found, member⟩ := Option.bind_eq_some_iff.1 known
  obtain ⟨a, rfl⟩ := State.ref_of_cell found
  obtain ⟨old, before⟩ : ∃ old, s.cell (.ref a) = some old :=
    ⟨_, List.getElem?_eq_getElem (away a rfl).1⟩
  obtain ⟨new, found', change⟩ := step_cell stepped before
  obtain rfl := Option.some.inj (found.symm.trans found')
  have at_ {ctx : Ctx} (member : old.asCtx = some ctx) : ctxAt s (.ref a) = some ctx :=
    Option.bind_eq_some_iff.2 ⟨old, before, member⟩
  cases change with
  | same => exact ⟨c, at_ member, rfl, fun _ _ => .inl rfl⟩
  | cdr => exact ⟨c, at_ member, rfl, fun _ _ => .inl rfl⟩
  | number => exact ⟨c, at_ member, rfl, fun _ _ => .inl rfl⟩
  | invoked => exact ⟨c, at_ member, rfl, fun _ _ => .inl rfl⟩
  | line => exact ⟨c, at_ member, rfl, fun _ _ => .inl rfl⟩
  | inner => cases member
  | mark ctx _ tail =>
      cases member
      exact ⟨ctx, at_ (by rw [Cell.asCtx, tail]), rfl, fun _ _ => .inl rfl⟩
  | store id key val ctx stored _ tail stores =>
      cases member
      obtain ⟨parent, vals⟩ := store_keeps stores
      refine ⟨ctx, at_ (by rw [Cell.asCtx, tail]), parent, fun i filled => ?_⟩
      by_cases here : i = id
      · subst here
        exact .inr ⟨key, val, rfl⟩
      · exact .inl (vals i here filled)

end Contexts

section Records

/-- The number of a call and those of the calls around it. Code outside of calls has none. -/
abbrev Activation := List Nat

/-- An activation that has begun, and the context that is its own. -/
structure Frame where
  ctx : Ptr
  activation : Activation
  oper : Bool
deriving DecidableEq, Repr

/-- What is known of the calls up to a point of a run: how many there were; the running ones,
innermost first; the call of a function whose parameters are being bound; the call that a
context was last entered by; the call that stored a binding; and the call that was running
when a cell was made. -/
structure Record where
  count : Nat
  running : List Frame
  pending : Option Frame
  owner : Ptr → Activation
  made : Ptr → Nat → Activation
  born : Ptr → Activation

def Record.start : Record := ⟨0, [], none, fun _ => [], fun _ _ => [], fun _ => []⟩

/-- The next call, of a value that was made in the call `r.born value`. -/
def Record.next (r : Record) (value : Ptr) : Activation := (r.count + 1) :: r.born value

/-- The next call is of this value and enters the context `p`. -/
def Record.enter (r : Record) (value p : Ptr) : Record :=
  { r with
    count := r.count + 1
    owner := fun q => if q = p then r.next value else r.owner q }

/-- The context of an activation and those around it, each with the activation that it has to
belong to: behind a context that is entered by calls comes the next activation outwards, other
contexts (those of modules) belong to none. -/
inductive Encloses (s : State) (r : Record) (p : Ptr) (a : Activation) : Ptr → Activation → Prop
  | self : Encloses s r p a p a
  | called {q : Ptr} {m : Activation} {c : Ctx} (inside : Encloses s r p a q m)
      (known : ctxAt s q = some c) (entered : r.owner c.parent ≠ []) :
      Encloses s r p a c.parent m.tail
  | plain {q : Ptr} {m : Activation} {c : Ctx} (inside : Encloses s r p a q m)
      (known : ctxAt s q = some c) (never : r.owner c.parent = []) : Encloses s r p a c.parent m

/-- The bindings in the context were stored by the activation, and the contexts around it were
last entered by the activations around that. -/
structure Settled (s : State) (r : Record) (p : Ptr) (a : Activation) : Prop where
  own : ∀ id, boundTo s p id ≠ .null → r.made p id = a
  around : ∀ q m, Encloses s r p a q m → r.owner q ≠ [] → r.owner q = m

/-- No activation runs in the context or inside it. -/
def Apart (s : State) (r : Record) (p : Ptr) : Prop :=
  ∀ frame ∈ r.running, ∀ m, ¬ Encloses s r frame.ctx frame.activation p m

end Records

section Isolation

variable {W : World} {s t : State} {r r' : Record} {op : Op} {p q : Ptr} {a m : Activation}
  {frame : Frame}

/-- A running activation: the contexts around its own were last entered by the activations
around it, and no parameters are being bound in them. -/
structure Stands (s : State) (r : Record) (frame : Frame) : Prop where
  there : Away [] s frame.ctx
  around : ∀ q m, Encloses s r frame.ctx frame.activation q m → r.owner q ≠ [] → r.owner q = m
  bound : ∀ next m, r.pending = some next → ¬ Encloses s r frame.ctx frame.activation next.ctx m

end Isolation

section Runs

variable {W : World} {s t : State} {r : Record} {op : Op}

/-- The operations that have to be orderly. -/
def watched : Op → State × Record → List (Op × State × Record)
  | .ctxVal p id, (s, r) => if r.owner p = [] then [] else [(.ctxVal p id, s, r)]
  | .ctxStore p id key val, u => [(.ctxStore p id key val, u)]
  | .enterFunc func, u => [(.enterFunc func, u)]
  | .startBody func, u => [(.startBody func, u)]
  | .enterOper oper, u => [(.enterOper oper, u)]
  | _, _ => []

end Runs

end BearLang.ActivationIsolation
