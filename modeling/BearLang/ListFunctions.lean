import BearLang.ListContents

/-!
# The list operators as functions on lists

The operators on one list evaluate the list of their operands, and `rest` and
`reverse` evaluate what they find in it once more, so that the elements decide what they
give. `append` and `prepend` link a cell to whatever the operand is, a list or `None`.
-/

namespace BearLang.ListFunctions

open CallPrograms OperatorCalls EvaluatedValues ListContents

set_option autoImplicit false

section Cells

variable {W : World} {s t : State}

theorem list_at_last {x p : Ptr} {xs : List Ptr} (list : ListAt s (x :: xs) p) :
    ∃ a c, (runtime W).Runs (call (.lastCell p)) s (.ref a) s ∧ s.cell (.ref a) = some c ∧
      c.cdr = .null ∧ ∀ u q ys, Extends s u →
        ListAt (u.put a { c with w1 := .ofPtr q }) ys q →
        ListAt (u.put a { c with w1 := .ofPtr q }) (x :: xs ++ ys) p := by
  induction xs generalizing x p with
  | nil =>
      obtain ⟨a, c, rfl, known, type, car, rest⟩ := list
      have none_ : c.cdr = .null := rest
      refine ⟨a, c, runs_call (c := .lastCell (.ref a)) ?_, known, none_, ?_⟩
      · change (runtime W).Runs (lastCellLoop (.ref a)) s (.ref a) s
        rw [lastCellLoop, runs_after (runs_load known), if_pos none_]
        exact runs_pure_self _ _
      · intro u q ys extended behind
        have bound := State.ref_lt_fresh (extended _ c known)
        refine ⟨a, _, rfl, State.cell_put_same bound _, type, car, ?_⟩
        rw [Cell.cdr, word_ptr_of_ptr]
        exact behind
  | cons y xs ih =>
      obtain ⟨b, d, rfl, known, type, car, rest⟩ := list
      obtain ⟨a, c, run, last, none_, linked⟩ := ih rest
      have inside : d.cdr ≠ .null := by
        obtain ⟨_, _, isRef, _⟩ := rest
        rw [isRef]
        simp
      refine ⟨a, c, runs_call (c := .lastCell (.ref b)) ?_, last, none_, ?_⟩
      · change (runtime W).Runs (lastCellLoop (.ref b)) s (.ref a) s
        rw [lastCellLoop, runs_after (runs_load known), if_neg inside]
        exact run
      · intro u q ys extended behind
        have other : Ptr.ref b ≠ .ref a := by
          intro same
          rw [same, last] at known
          cases known
          exact inside none_
        refine ⟨b, d, rfl, ?_, type, car, linked u q ys extended behind⟩
        rw [State.cell_put_other other]
        exact extended _ d known

end Cells

section Operand

variable {W : World} {s t : State} {ctx key v : Ptr} {n k id : Nat}

end Operand

section Elements

variable {W : World} {s : State} {xs : List Ptr} {p v : Ptr}

theorem first_of_value (list : ListValue s xs v) :
    (runtime W).Runs (blListFirst v) s (xs.headD .null) s := by
  rcases list with ⟨rfl, c, known, _, none_, _⟩ | ⟨_, _, list⟩
  · rw [blListFirst, if_neg (cell_ne_null known), runs_after (runs_load known), none_]
    exact runs_pure_self _ _
  · exact first_of_list list

end Elements

section Operators

variable {W : World} {s m : State} {ctx expr v x : Ptr} {xs : List Ptr} {op : Builtin}

/-- The value is a list with the elements `xs` had in `s`, or with the same contents. -/
def ListLike (s t : State) (xs : List Ptr) (r : Ptr) : Prop :=
  ∃ ys, ListValue t ys r ∧ List.Forall₂ (Like s t) xs ys

/-- What the operator is to give for the list and, where it takes one, the value. -/
def Gives (op : Builtin) (xs : List Ptr) (x : Ptr) (s t : State) (r : Ptr) : Prop :=
  match op with
  | .first => ∀ y, xs[0]? = some y → r = y
  | .second => ∀ y, xs[1]? = some y → r = y
  | .third => ∀ y, xs[2]? = some y → r = y
  | .rest => ListLike s t xs.tail r
  | .reverse => ListLike s t xs.reverse r
  | .append => ListLike s t (xs ++ [x]) r
  | .prepend => ListLike s t (x :: xs) r
  | _ => True

/-- The list calls nothing when it is evaluated as an expression. -/
def Quiet (W : World) (s : State) (ctx v : Ptr) : Prop :=
  Settles W s ctx v ∨ ∃ w, Fails W s ctx v w

/-- When it does. `rest` and `reverse` evaluate the list as an expression: it is to be no
call, without an error in it, and its elements (for `rest`, those behind the first) are to
have themselves for their values. An error has no number behind its kind where the rest of
a list of one element would be. `append` and `prepend` are to get a list with an element. -/
def Suits (W : World) (op : Builtin) (s : State) (ctx v : Ptr) (xs : List Ptr) : Prop :=
  match op with
  | .rest => xs = [] ∨ (Settles W s ctx v ∧ ∀ y ∈ xs.tail, Inert W s ctx y) ∨
      (xs.length = 1 ∧ ∃ w, Fails W s ctx v w ∧ w.ptr = .null)
  | .reverse => xs = [] ∨ Inert W s ctx v
  | .append => xs ≠ []
  | .prepend => xs ≠ []
  | _ => True

variable {n k id : Nat} {key q : Ptr} {t : State}

end Operators

section Elements

variable {W : World} {s t u : State} {ctx v r : Ptr} {xs : List Ptr}

end Elements

section Calls

variable {W : World} {s t : State} {ctx expr v : Ptr} {xs es : List Ptr} {op : Builtin}

end Calls

section Correctness

variable {W : World} {s m : State} {ctx expr v x : Ptr} {xs : List Ptr} {op : Builtin}

/-- The value is its own value as an expression, and no operator. -/
def Plain (s : State) (x : Ptr) : Prop :=
  ∃ c, s.cell x = some c ∧ c.type ∈ [ValType.null, .string, .number, .bool]

theorem plain_inert {y : Ptr} (plain : Plain s y) : Inert W s ctx y := by
  rcases plain with ⟨c, known, type⟩
  refine .atom known fun code => ?_
  simp only [List.mem_cons, List.not_mem_nil, or_false] at type code
  rcases type with type | type | type | type <;> simp [type] at code

/-- A list of inert elements is inert, with such a value at its head. -/
theorem inert_of_plain {y : Ptr} {ys : List Ptr} (list : ListAt s (y :: ys) v) (plain : Plain s y)
    (inert : ∀ z ∈ ys, Inert W s ctx z) : Inert W s ctx v := by
  rcases id plain with ⟨c, known, type⟩
  have atom : c.type ≠ .symbol ∧ c.type ∉ applied := by
    simp only [List.mem_cons, List.not_mem_nil, or_false] at type
    rcases type with type | type | type | type <;> simp [type, applied]
  exact .list list ⟨c, known, .inr ⟨atom.1, rfl⟩⟩ known atom.2
    (List.forall_mem_cons.2 ⟨plain_inert plain, inert⟩)

/-- Lists of numbers, strings and truth values suit `rest` and `reverse`. -/
theorem suits_of_plain {y : Ptr} {ys : List Ptr} (list : ListAt s (y :: ys) v)
    (plain : ∀ z ∈ y :: ys, Plain s z) (takes : op = .rest ∨ op = .reverse) :
    Suits W op s ctx v (y :: ys) := by
  have inside : ∀ z ∈ ys, Inert W s ctx z :=
    fun z mem => plain_inert (plain z (List.mem_cons_of_mem _ mem))
  have inert := inert_of_plain list (plain y List.mem_cons_self) inside
  rcases takes with rfl | rfl
  · exact .inr (.inl ⟨settled_of_inert inert, inside⟩)
  · exact .inr inert

end Correctness

end BearLang.ListFunctions
