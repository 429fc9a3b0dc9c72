import BearLang.Runtime

/-!
# Programs that read and allocate

Many functions of the runtime only read cells, make new ones and walk along lists.
Any contract that allows that much allows them. The serialisation of values calls
itself besides.
-/

namespace BearLang.ReadingPrograms

open CallPrograms

set_option autoImplicit false

/-- The contract allows to read, to allocate and to walk along a list. -/
class Reading (K : Contract bearLang) : Prop where
  load : ∀ p, K.op (.load p)
  alloc : ∀ c, K.op (.alloc c)
  trap : K.op .trap
  listLen : ∀ i count, K.call (.listLen i count)
  reverseLoop : ∀ L retval, K.call (.reverseLoop L retval)

/-- The program keeps to the contract, whatever it gives. -/
abbrev Allows (K : Contract bearLang) {α : Type} (program : Prog α) : Prop :=
  program.Meets K fun _ => True

section Statements

variable {K : Contract bearLang} {α β : Type}

theorem allows_seq {program : Prog α} {f : α → Prog β} (first : Allows K program)
    (rest : ∀ v, Allows K (f v)) : Allows K (program >>= f) := by
  rw [Allows, meets_bind]
  exact meets_mono first fun v _ => rest v

theorem allows_pure (v : α) : Allows K (pure v : Prog α) := trivial

theorem allows_op (op : Op) (allowed : K.op op) : Allows K (.perform op .done : Prog op.Answer) :=
  ⟨allowed, fun _ _ => trivial⟩

theorem allows_call {c : Call} (allowed : K.call c) : Allows K (call c) :=
  ⟨allowed, fun _ _ => trivial⟩

theorem allows_ite {c : Prop} [Decidable c] {yes no : Prog α} (first : Allows K yes)
    (second : Allows K no) : Allows K (if c then yes else no) := by
  split
  · exact first
  · exact second

theorem allows_branch {c : Prop} [Decidable c] {yes no : Prog α} {f : α → Prog β}
    (first : Allows K yes) (second : Allows K no) (rest : ∀ v, Allows K (f v)) :
    Allows K (if c then yes >>= f else no >>= f) :=
  allows_ite (allows_seq first rest) (allows_seq second rest)

variable [Reading K]

theorem allows_load (p : Ptr) : Allows K (load p) := allows_op (.load p) (Reading.load p)

theorem allows_alloc (c : Cell) : Allows K (alloc c) := allows_op (.alloc c) (Reading.alloc c)

theorem allows_trap : Allows K (trap : Prog α) := ⟨Reading.trap, fun answer => nomatch answer⟩

theorem allows_member (value : Option α) : Allows K (member value) := by
  cases value with
  | none => exact allows_trap
  | some v => exact allows_pure v

theorem allows_type_of (p : Ptr) : Allows K (typeOf p) :=
  allows_seq (allows_load p) fun c => allows_pure c.type

theorem allows_int_of (p : Ptr) : Allows K (intOf p) :=
  allows_seq (allows_load p) fun c => allows_member c.iVal

theorem allows_bool_of (p : Ptr) : Allows K (boolOf p) :=
  allows_seq (allows_load p) fun c => allows_member c.bVal

theorem allows_str_of (p : Ptr) : Allows K (strOf p) :=
  allows_seq (allows_load p) fun c => allows_member c.sVal

end Statements

section Lists

variable {K : Contract bearLang} [Reading K]

theorem allows_list_first (L : Ptr) : Allows K (blListFirst L) := by
  refine allows_ite (allows_pure _) ?_
  exact allows_seq (allows_load L) fun c => allows_pure c.car

theorem allows_list_rest (L : Ptr) : Allows K (blListRest L) := by
  refine allows_ite (allows_pure _) ?_
  exact allows_seq (allows_load L) fun c => allows_pure c.cdr

theorem allows_list_second (L : Ptr) : Allows K (blListSecond L) := by
  refine allows_ite (allows_pure _) ?_
  exact allows_seq (allows_list_rest L) allows_list_first

theorem allows_list_third (L : Ptr) : Allows K (blListThird L) :=
  allows_seq (allows_list_rest L) allows_list_second

theorem allows_list_len (L : Ptr) : Allows K (blListLen L) := by
  refine allows_ite (allows_pure _) (allows_seq (allows_load L) fun c => ?_)
  refine allows_ite (allows_pure _) (allows_ite (allows_pure _) ?_)
  exact allows_call (c := .listLen L 0) (Reading.listLen L 0)

theorem allows_reverse (L : Ptr) : Allows K (blListReverse L) :=
  allows_call (c := .reverseLoop L .null) (Reading.reverseLoop L .null)

theorem allows_mk_list (vals : List Ptr) : Allows K (blMkList vals) := by
  refine allows_ite (allows_alloc _) (allows_seq ?_ allows_reverse)
  generalize Ptr.null = retval
  induction vals generalizing retval with
  | nil => exact allows_pure _
  | cons val vals ih => exact allows_seq (allows_alloc _) fun p => ih p

theorem allows_errif_invalid_len (L : Ptr) (min max : Nat) :
    Allows K (blErrifInvalidLen L min max) := by
  refine allows_seq (allows_type_of L) fun kind => allows_ite (allows_pure _) ?_
  refine allows_seq (allows_list_len L) fun len => allows_ite (allows_pure _) ?_
  exact allows_ite (allows_alloc _) (allows_alloc _)

theorem allows_check_args (expected : List ValType) (i : Ptr) (isGood : Bool) :
    Allows K (checkArgs expected i isGood) := by
  induction expected generalizing i isGood with
  | nil => exact allows_pure _
  | cons kind rest ih =>
      refine allows_seq (allows_load i) fun c => ?_
      refine allows_seq (allows_type_of c.car) fun found => ?_
      exact allows_ite (allows_pure _) (allows_ite (ih _ _) (ih _ _))

theorem allows_arg_types (expected : List ValType) (i : Ptr) : Allows K (argTypes expected i) := by
  induction expected generalizing i with
  | nil => exact allows_pure _
  | cons kind rest ih =>
      refine allows_seq (allows_load i) fun c => ?_
      refine allows_seq (allows_type_of c.car) fun found => ?_
      exact allows_seq (ih _) fun types => allows_pure _

theorem allows_fixed_args (params : Ptr) (expected : List ValType) :
    Allows K (blErrifInvalidFixedArgs params expected) := by
  refine allows_seq (allows_errif_invalid_len params _ _) fun invalid => ?_
  refine allows_ite (allows_pure _) (allows_seq (allows_check_args _ _ _) fun checked => ?_)
  obtain ⟨found, isGood⟩ := checked
  refine allows_ite (allows_pure _) (allows_ite (allows_pure _) ?_)
  exact allows_seq (allows_arg_types _ _) fun provided => allows_alloc _

end Lists

section Texts

/-- The contract allows to serialise as well. -/
class Printing (K : Contract bearLang) : Prop extends Reading K where
  serSexp : ∀ expr, K.call (.serSexp expr)
  serLoop : ∀ L retval, K.call (.serLoop L retval)

variable {K : Contract bearLang} [Printing K]

theorem allows_ser (expr : Ptr) : Allows K (blSerSexp expr) :=
  allows_call (c := .serSexp expr) (Printing.serSexp expr)

theorem allows_errmsg (E : Ptr) : Allows K (blErrmsg E) := by
  refine allows_seq (allows_load E) fun c => ?_
  refine allows_seq (allows_member _) fun code => ?_
  have custom : Allows K (load c.err.errSym >>= fun sym => member sym.sVal >>= fun name =>
      blSerSexp c.err.errVal >>= fun val => pure (snprintf 1023 (name ++ text ": " ++ val))) :=
    allows_seq (allows_load _) fun sym => allows_seq (allows_member _) fun name =>
      allows_seq (allows_ser _) fun val => allows_pure _
  dsimp only
  repeat' apply allows_ite
  all_goals first
    | exact custom
    | exact allows_trap
    | exact allows_pure _

theorem allows_ser_sexp (expr : Ptr) : Allows K (serSexpBody expr) := by
  refine allows_ite (allows_pure _) (allows_seq (allows_load expr) fun c => ?_)
  cases c.type with
  | error => exact allows_errmsg expr
  | symbol => exact allows_member _
  | string => exact allows_seq (allows_member _) fun s => allows_pure _
  | number => exact allows_seq (allows_member _) fun i => allows_pure _
  | bool => exact allows_seq (allows_member _) fun b => allows_pure _
  | funcBl =>
      exact allows_seq (allows_ser _) fun args => allows_seq (allows_ser _) fun body => allows_pure _
  | operBl => exact allows_seq (allows_ser _) fun body => allows_pure _
  | cons =>
      refine allows_ite (allows_pure _) (allows_seq ?_ fun s => allows_pure _)
      exact allows_call (c := .serLoop expr (text "(")) (Printing.serLoop expr (text "("))
  | _ => exact allows_pure _

theorem allows_ser_loop (L : Ptr) (retval : CStr) : Allows K (serLoop L retval) := by
  refine allows_ite (allows_pure _) (allows_seq (allows_load L) fun c => ?_)
  refine allows_seq (allows_ser c.car) fun newval => ?_
  exact allows_call (c := .serLoop c.cdr (retval ++ newval ++ text " ")) (Printing.serLoop _ _)

end Texts

end BearLang.ReadingPrograms
