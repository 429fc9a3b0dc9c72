import BearLang.ListFunctions

/-!
# Argument checks

`bl_errif_invalid_fixed_args` and `bl_errif_invalid_firstarg` compare the types of
arguments with those expected, and fill an error with the types they found.
-/

namespace BearLang.ArgumentChecks

open CallPrograms OperatorCalls ListFunctions

set_option autoImplicit false

section Arguments

variable {W : World} {s t : State} {L i v : Ptr} {xs : List Ptr} {expected : List ValType}

/-- The value is the list of these arguments, each of which is a value. -/
structure Arguments (s : State) (xs : List Ptr) (L : Ptr) : Prop where
  list : ListValue s xs L
  values : ∀ x ∈ xs, ∃ c, s.cell x = some c

def isError (s : State) (x : Ptr) : Bool := s.typeOf x == some .error

/-- The type of an argument is the one expected, if it is not left open. -/
def suits (s : State) (T : ValType) (x : Ptr) : Bool := T == .any || s.typeOf x == some T

theorem suits_iff {T : ValType} {x : Ptr} : suits s T x = true ↔ s.typeOf x = some T ∨ T = .any := by
  rw [suits, Bool.or_eq_true, beq_iff_eq, beq_iff_eq]
  exact or_comm

/-- A new error of this kind, and nothing else. -/
def NewError (s t : State) (v : Ptr) (kind : ErrType) : Prop :=
  v = .ref s.fresh ∧ ∃ c, t = s.allocated c ∧ c.type = .error ∧ c.errType = some kind.code

theorem err_type_mk_err (kind : ErrType) (n : Nat) (e : ErrInfo) :
    (Cell.mkErr kind n e).errType = some kind.code := by
  cases kind <;> rfl

theorem new_error_alloc (kind : ErrType) (n : Nat) (e : ErrInfo) :
    (runtime W).Runs (alloc (.mkErr kind n e)) s (.ref s.fresh) (s.allocated (.mkErr kind n e)) ∧
      NewError s (s.allocated (.mkErr kind n e)) (.ref s.fresh) kind :=
  ⟨runs_alloc _ s, rfl, _, rfl, rfl, err_type_mk_err kind n e⟩

theorem list_value_length_runs (list : ListValue s xs L) :
    (runtime W).Runs (blListLen L) s xs.length s := by
  rcases list with ⟨rfl, c, known, kind, noElement, _⟩ | ⟨some_, filled, listed⟩
  · rw [blListLen, if_neg (cell_ne_null known), runs_after (runs_load known)]
    rw [if_pos noElement, ite_self]
    exact runs_pure_self _ _
  · obtain ⟨x, xs, rfl⟩ := List.exists_cons_of_ne_nil some_
    exact list_len_runs listed (filled x List.mem_cons_self)

theorem list_value_no_error (list : ListValue s xs L) :
    ∃ c, s.cell L = some c ∧ c.type ≠ .error := by
  rcases list with ⟨_, c, known, kind, _⟩ | ⟨some_, _, listed⟩
  · refine ⟨c, known, ?_⟩
    rcases kind with same | same
    all_goals
      rw [same]
      decide
  · obtain ⟨x, xs, rfl⟩ := List.exists_cons_of_ne_nil some_
    obtain ⟨a, c, rfl, known, type, _⟩ := listed
    refine ⟨c, known, ?_⟩
    rw [type]
    decide

theorem invalid_len_runs (list : ListValue s xs L) (min max : Nat) :
    (min ≤ xs.length ∧ xs.length ≤ max →
      (runtime W).Runs (blErrifInvalidLen L min max) s .null s) ∧
    (xs.length < min → ∃ v t, (runtime W).Runs (blErrifInvalidLen L min max) s v t ∧
      NewError s t v .insufficientArgs) ∧
    (min ≤ xs.length → max < xs.length →
      ∃ v t, (runtime W).Runs (blErrifInvalidLen L min max) s v t ∧ NewError s t v .tooManyArgs) := by
  have length := list_value_length_runs (W := W) list
  obtain ⟨c, known, noError⟩ := list_value_no_error list
  rw [blErrifInvalidLen, runs_after (runs_type_of known), if_neg noError, runs_after length]
  refine ⟨fun bounds => ?_, fun short => ?_, fun enough long => ?_⟩
  · rw [if_pos bounds]
    exact runs_pure_self _ _
  · have outside : ¬ (min ≤ xs.length ∧ xs.length ≤ max) := by omega
    simp only [runs_after (runs_type_of known), if_neg noError, runs_after length, if_neg outside,
      if_pos short]
    exact ⟨_, _, new_error_alloc _ _ _⟩
  · have outside : ¬ (min ≤ xs.length ∧ xs.length ≤ max) := by omega
    have enough' : ¬ xs.length < min := by omega
    simp only [runs_after (runs_type_of known), if_neg noError, runs_after length, if_neg outside,
      if_neg enough']
    exact ⟨_, _, new_error_alloc _ _ _⟩

/-- The loop finds the first argument that is an error, or else sees whether the types are
as expected. -/
theorem check_args_runs (list : ListAt s xs i) (values : ∀ x ∈ xs, ∃ c, s.cell x = some c)
    (same : xs.length = expected.length) (good : Bool) : ∃ good',
      (runtime W).Runs (checkArgs expected i good) s ((xs.find? (isError s)).getD .null, good') s ∧
        (xs.find? (isError s) = none →
          good' = (good && (expected.zip xs).all fun pair => suits s pair.1 pair.2)) := by
  induction expected generalizing xs i good with
  | nil =>
      obtain rfl : xs = [] := List.length_eq_zero_iff.1 same
      refine ⟨good, runs_pure_self _ _, fun _ => ?_⟩
      simp
  | cons T expected ih =>
      cases xs with
      | nil => cases same
      | cons x xs =>
          obtain ⟨a, c, rfl, known, _, rfl, rest⟩ := list
          obtain ⟨d, held⟩ := values c.car List.mem_cons_self
          have type : s.typeOf c.car = some d.type := by rw [State.typeOf, held, Option.map_some]
          have later := fun good => ih rest (fun y mem => values y (List.mem_cons_of_mem _ mem))
            (Nat.succ.inj same) good
          rw [checkArgs]
          simp only [runs_after (runs_load known), runs_after (runs_type_of held)]
          by_cases error : d.type = .error
          · have found : isError s c.car = true := by rw [isError, type, error, beq_self_eq_true]
            rw [if_pos error, List.find?_cons_of_pos found]
            exact ⟨good, runs_pure_self _ _, fun none_ => by cases none_⟩
          · have passed : isError s c.car = false := by
              rw [isError, type]
              exact beq_false_of_ne fun same => error (Option.some.inj same)
            rw [if_neg error, List.find?_cons_of_neg (by rw [passed]; decide)]
            by_cases wrong : T ≠ d.type ∧ T ≠ .any
            · obtain ⟨good', run, checked⟩ := later false
              rw [if_pos wrong]
              refine ⟨good', run, fun none_ => ?_⟩
              have unsuited : suits s T c.car = false := by
                rw [← Bool.not_eq_true, suits_iff, type]
                rintro (same | open_)
                · exact wrong.1 (Option.some.inj same).symm
                · exact wrong.2 open_
              rw [checked none_, List.zip_cons_cons, List.all_cons, unsuited]
              simp
            · obtain ⟨good', run, checked⟩ := later good
              rw [if_neg wrong]
              refine ⟨good', run, fun none_ => ?_⟩
              have suited : suits s T c.car = true := by
                rw [suits_iff, type]
                by_cases same : T = d.type
                · exact .inl (congrArg some same.symm)
                · exact .inr (not_not.1 fun closed => wrong ⟨same, closed⟩)
              rw [checked none_, List.zip_cons_cons, List.all_cons, suited, Bool.true_and]

theorem arg_types_runs (list : ListAt s xs i) (values : ∀ x ∈ xs, ∃ c, s.cell x = some c)
    (same : xs.length = expected.length) : ∃ types,
      (runtime W).Runs (argTypes expected i) s types s ∧ types.map some = xs.map s.typeOf := by
  induction expected generalizing xs i with
  | nil =>
      obtain rfl : xs = [] := List.length_eq_zero_iff.1 same
      exact ⟨[], runs_pure_self _ _, rfl⟩
  | cons T expected ih =>
      cases xs with
      | nil => cases same
      | cons x xs =>
          obtain ⟨a, c, rfl, known, _, rfl, rest⟩ := list
          obtain ⟨d, held⟩ := values c.car List.mem_cons_self
          obtain ⟨types, run, found⟩ := ih rest (fun y mem => values y (List.mem_cons_of_mem _ mem))
            (Nat.succ.inj same)
          refine ⟨d.type :: types, ?_, ?_⟩
          · rw [argTypes, runs_after (runs_load known), runs_after (runs_type_of held), runs_after run]
            exact runs_pure_self _ _
          · rw [List.map_cons, List.map_cons, found, State.typeOf, held, Option.map_some]

/-- What the two loops do with a list value of as many arguments as types, the empty one
included, whose first cell need not be one of a list. -/
theorem walked (args : Arguments s xs L) (same : xs.length = expected.length) (good : Bool) :
    ∃ good', (runtime W).Runs (checkArgs expected L good) s
        ((xs.find? (isError s)).getD .null, good') s ∧
      (xs.find? (isError s) = none →
        good' = (good && (expected.zip xs).all fun pair => suits s pair.1 pair.2)) := by
  rcases args.list with ⟨rfl, _⟩ | ⟨_, _, listed⟩
  · obtain rfl : expected = [] := List.length_eq_zero_iff.1 same.symm
    exact ⟨good, runs_pure_self _ _, fun _ => (Bool.and_true good).symm⟩
  · exact check_args_runs listed args.values same good

theorem typed (args : Arguments s xs L) (same : xs.length = expected.length) : ∃ types,
    (runtime W).Runs (argTypes expected L) s types s ∧ types.map some = xs.map s.typeOf := by
  rcases args.list with ⟨rfl, _⟩ | ⟨_, _, listed⟩
  · obtain rfl : expected = [] := List.length_eq_zero_iff.1 same.symm
    exact ⟨[], runs_pure_self _ _, rfl⟩
  · exact arg_types_runs listed args.values same

/-- The arguments are as many as the types, none is an error, and all have the type that is
expected at their position. -/
structure Accepted (s : State) (xs : List Ptr) (expected : List ValType) : Prop where
  length : xs.length = expected.length
  noError : ∀ x ∈ xs, s.typeOf x ≠ some .error
  types : ∀ (k : Nat) (x : Ptr) (T : ValType), xs[k]? = some x → expected[k]? = some T →
    s.typeOf x = some T ∨ T = .any

theorem accepted_iff (same : xs.length = expected.length) : Accepted s xs expected ↔
    xs.find? (isError s) = none ∧
      ((expected.zip xs).all fun pair => suits s pair.1 pair.2) = true := by
  have none_ : (∀ x ∈ xs, s.typeOf x ≠ some .error) ↔ xs.find? (isError s) = none := by
    simp only [List.find?_eq_none, isError, beq_iff_eq]
  constructor
  · intro accepted
    refine ⟨none_.1 accepted.noError, List.all_eq_true.2 fun pair mem => suits_iff.2 ?_⟩
    obtain ⟨k, at_⟩ := List.getElem?_of_mem mem
    obtain ⟨first, second⟩ := List.getElem?_zip_eq_some.1 at_
    exact accepted.types k pair.2 pair.1 second first
  · rintro ⟨noError, suited⟩
    refine ⟨same, none_.2 noError, fun k x T arg type => suits_iff.1 ?_⟩
    exact List.all_eq_true.1 suited (T, x)
      (List.mem_of_getElem? (List.getElem?_zip_eq_some.2 ⟨type, arg⟩))

inductive Checked (s t : State) (xs : List Ptr) (expected : List ValType) (v : Ptr) : Prop
  | short (less : xs.length < expected.length) (made : NewError s t v .insufficientArgs)
  | long (more : expected.length < xs.length) (made : NewError s t v .tooManyArgs)
  | spoiled (same : xs.length = expected.length) (found : xs.find? (isError s) = some v) (kept : t = s)
  | accepted (fine : Accepted s xs expected) (none_ : v = .null) (kept : t = s)
  | mistyped (same : xs.length = expected.length) (noError : xs.find? (isError s) = none)
      (wrong : ¬ Accepted s xs expected) (types : List ValType) (here : v = .ref s.fresh)
      (made : t = s.allocated (.mkErr .invalidArgType expected.length
        { maxArgs := expected.length, providedArgs := expected.length
          expectedTypes := expected, providedTypes := types }))
      (found : types.map some = xs.map s.typeOf)

theorem new_error_filled {kind : ErrType} (made : NewError s t v kind) : v ≠ .null := by
  rw [made.1]
  simp

theorem fixed_args_runs (args : Arguments s xs L) (expected : List ValType) : ∃ v t,
    (runtime W).Runs (blErrifInvalidFixedArgs L expected) s v t ∧ Checked s t xs expected v := by
  obtain ⟨enough, short, long⟩ := invalid_len_runs (W := W) args.list expected.length expected.length
  rw [blErrifInvalidFixedArgs]
  rcases Nat.lt_trichotomy xs.length expected.length with less | same | more
  · obtain ⟨v, t, run, made⟩ := short less
    refine ⟨v, t, ?_, .short less made⟩
    rw [runs_after run, if_pos (new_error_filled made)]
    exact runs_pure_self _ _
  · have inBounds := enough ⟨Nat.le_of_eq same.symm, Nat.le_of_eq same⟩
    simp only [runs_after inBounds, ne_eq, not_true_eq_false, if_false]
    obtain ⟨good, run, checked⟩ := walked (W := W) args same true
    cases found : xs.find? (isError s) with
    | some x =>
        obtain ⟨d, held⟩ := args.values x (List.mem_of_find?_eq_some found)
        have filled : x ≠ .null := cell_ne_null held
        rw [found, Option.getD_some] at run
        refine ⟨x, s, ?_, .spoiled same found rfl⟩
        rw [runs_after run]
        simp only [filled, not_false_eq_true, if_true]
        exact runs_pure_self _ _
    | none =>
        rw [found, Option.getD_none, checked found, Bool.true_and] at run
        cases suited : (expected.zip xs).all fun pair => suits s pair.1 pair.2 with
        | true =>
            rw [suited] at run
            refine ⟨.null, s, ?_, .accepted ((accepted_iff same).2 ⟨found, suited⟩) rfl rfl⟩
            rw [runs_after run]
            exact runs_pure_self _ _
        | false =>
            rw [suited] at run
            obtain ⟨types, filling, listed⟩ := typed (W := W) args same
            refine ⟨.ref s.fresh, _, ?_, .mistyped same found (fun fine => ?_) types rfl rfl listed⟩
            · rw [runs_after run]
              simp only [not_true_eq_false, if_false, Bool.false_eq_true]
              rw [runs_after filling]
              exact runs_alloc _ s
            · have all := ((accepted_iff same).1 fine).2
              rw [suited] at all
              cases all
  · obtain ⟨v, t, run, made⟩ := long (Nat.le_of_lt more) more
    refine ⟨v, t, ?_, .long more made⟩
    rw [runs_after run, if_pos (new_error_filled made)]
    exact runs_pure_self _ _

/-- The checker of fixed arguments gives nothing exactly for the arguments that are to be
accepted, and otherwise the error that says what is wrong with them. -/
theorem fixed_args_checked (args : Arguments s xs L) (expected : List ValType) : ∃ v t,
    (runtime W).Runs (blErrifInvalidFixedArgs L expected) s v t ∧
      (v = .null ↔ Accepted s xs expected) ∧ (v = .null → t = s) ∧
      (xs.length < expected.length → NewError s t v .insufficientArgs) ∧
      (expected.length < xs.length → NewError s t v .tooManyArgs) ∧
      (xs.length = expected.length → (∀ x, xs.find? (isError s) = some x → v = x ∧ t = s) ∧
        (xs.find? (isError s) = none → v ≠ .null → NewError s t v .invalidArgType)) := by
  obtain ⟨v, t, run, outcome⟩ := fixed_args_runs (W := W) args expected
  refine ⟨v, t, run, ?_⟩
  cases outcome with
  | short less made =>
      have filled := new_error_filled made
      refine ⟨⟨fun none_ => absurd none_ filled, fun fine => ?_⟩, fun none_ => absurd none_ filled,
        fun _ => made, fun more => ?_, fun same => ?_⟩
      · exact absurd fine.length (Nat.ne_of_lt less)
      · omega
      · omega
  | long more made =>
      have filled := new_error_filled made
      refine ⟨⟨fun none_ => absurd none_ filled, fun fine => ?_⟩, fun none_ => absurd none_ filled,
        fun less => ?_, fun _ => made, fun same => ?_⟩
      · exact absurd fine.length (Nat.ne_of_gt more)
      · omega
      · omega
  | spoiled same found kept =>
      obtain ⟨d, held⟩ := args.values v (List.mem_of_find?_eq_some found)
      have filled : v ≠ .null := cell_ne_null held
      refine ⟨⟨fun none_ => absurd none_ filled, fun fine => ?_⟩, fun none_ => absurd none_ filled,
        fun less => ?_, fun more => ?_, fun _ => ⟨fun x found' => ?_, fun none_ => ?_⟩⟩
      · have noError := ((accepted_iff same).1 fine).1
        rw [found] at noError
        cases noError
      · omega
      · omega
      · rw [found] at found'
        exact ⟨Option.some.inj found', kept⟩
      · rw [found] at none_
        cases none_
  | accepted fine none_ kept =>
      have same := fine.length
      have noError := ((accepted_iff same).1 fine).1
      refine ⟨⟨fun _ => fine, fun _ => none_⟩, fun _ => kept, fun less => ?_, fun more => ?_,
        fun _ => ⟨fun x found => ?_, fun _ filled => absurd none_ filled⟩⟩
      · omega
      · omega
      · rw [noError] at found
        cases found
  | mistyped same noError wrong types here made listed =>
      have made' : NewError s t v .invalidArgType := ⟨here, _, made, rfl, err_type_mk_err _ _ _⟩
      have filled := new_error_filled made'
      refine ⟨⟨fun none_ => absurd none_ filled, fun fine => absurd fine wrong⟩,
        fun none_ => absurd none_ filled, fun less => ?_, fun more => ?_,
        fun _ => ⟨fun x found => ?_, fun _ _ => made'⟩⟩
      · omega
      · omega
      · rw [noError] at found
        cases found

def mixedArguments : State :=
  { cells := staticCells ++ [.mkStr [], .mkNumber 1, .mkStr [],
      .mkCons (.ref 7) (.ref 11), .mkCons (.ref 8) (.ref 12), .mkCons (.ref 9) .null] }

theorem mixed_arguments : Arguments mixedArguments [.ref 7, .ref 8, .ref 9] (.ref 10) := by
  refine ⟨.inr ⟨nofun, by simp, ?_⟩, ?_⟩
  · exact ⟨10, _, rfl, rfl, rfl, rfl, 11, _, rfl, rfl, rfl, rfl, 12, _, rfl, rfl, rfl, rfl, rfl⟩
  · rintro x (_ | ⟨_, _ | ⟨_, _ | ⟨_, ⟨⟩⟩⟩⟩)
    all_goals exact ⟨_, rfl⟩

theorem fixed_args_checked_mixed : ∃ v t, (runtime World.bare).Runs
    (blErrifInvalidFixedArgs (.ref 10) [.string, .any, .cptr]) mixedArguments v t ∧
      NewError mixedArguments t v .invalidArgType := by
  obtain ⟨v, t, run, good, _, _, _, bad⟩ :=
    fixed_args_checked (W := World.bare) mixed_arguments [.string, .any, .cptr]
  refine ⟨v, t, run, (bad rfl).2 rfl fun none_ => ?_⟩
  exact nomatch (good.1 none_).types 2 (.ref 9) .cptr rfl rfl

/-- The error in this cell records how many arguments there were, and the type of each. -/
def Reports (s t : State) (xs : List Ptr) (v : Ptr) : Prop :=
  ∃ c e, t.cell v = some c ∧ c.tail = .err e ∧ e.providedArgs = xs.length ∧
    ∀ (k : Nat) (x : Ptr), xs[k]? = some x → e.providedTypes[k]? = s.typeOf x

theorem new_error_kind {kind kind' : ErrType} (made : NewError s t v kind)
    (made' : NewError s t v kind') : kind.code = kind'.code := by
  obtain ⟨rfl, c, rfl, _, code⟩ := made
  obtain ⟨_, d, same, _, code'⟩ := made'
  have known : (s.allocated c).cell (.ref s.fresh) = some c := State.cell_allocated_new s c
  rw [same, State.cell_allocated_new] at known
  cases known
  exact Option.some.inj (code.symm.trans code')

theorem other_types_run {p : Ptr} {c d : Cell} (known : s.cell p = some c)
    (held : s.cell c.car = some d) (n : Nat) :
    (runtime W).Runs (otherArgTypes n p) s (List.replicate n d.type) s := by
  induction n with
  | zero => exact runs_pure_self _ _
  | succ n ih =>
      rw [otherArgTypes, runs_after (runs_load known), runs_after (runs_type_of held), runs_after ih]
      exact runs_pure_self _ _

/-- The error of the first argument's type, which takes the second argument's type for that of
all later ones. -/
theorem first_arg_runs (args : Arguments s xs L) (T : ValType) : ∃ v t,
    (runtime W).Runs (blErrifInvalidFirstarg L T) s v t ∧
      (NewError s t v .invalidArgType → ∃ (x : Ptr) (ys : List Ptr) (first second : ValType)
        (expected : List ValType), xs = x :: ys ∧ s.typeOf x = some first ∧
          (∀ y ∈ ys.head?, s.typeOf y = some second) ∧
          v = .ref s.fresh ∧ t = s.allocated (.mkErr .invalidArgType 1
            { maxArgs := longestList, providedArgs := xs.length, expectedTypes := expected
              providedTypes := first :: List.replicate (xs.length - 1) second })) := by
  obtain ⟨enough, short, long⟩ := invalid_len_runs (W := W) args.list 1 longestList
  rw [blErrifInvalidFirstarg]
  by_cases some_ : xs.length < 1
  · obtain ⟨v, t, run, made⟩ := short some_
    refine ⟨v, t, ?_, fun made' => by cases new_error_kind made made'⟩
    rw [runs_after run, if_pos (new_error_filled made)]
    exact runs_pure_self _ _
  by_cases many : longestList < xs.length
  · obtain ⟨v, t, run, made⟩ := long (by omega) many
    refine ⟨v, t, ?_, fun made' => by cases new_error_kind made made'⟩
    rw [runs_after run, if_pos (new_error_filled made)]
    exact runs_pure_self _ _
  simp only [runs_after (enough ⟨by omega, by omega⟩), ne_eq, not_true_eq_false, if_false]
  have firstRun := first_of_value (W := W) args.list
  have lengthRun := list_value_length_runs (W := W) args.list
  rcases args.list with ⟨rfl, _⟩ | ⟨_, _, list⟩
  · exact absurd Nat.zero_lt_one some_
  cases xs with
  | nil => exact absurd Nat.zero_lt_one some_
  | cons x ys =>
      obtain ⟨d, held⟩ := args.values x List.mem_cons_self
      have type : s.typeOf x = some d.type := by rw [State.typeOf, held, Option.map_some]
      simp only [runs_after firstRun, List.headD_cons, runs_after (runs_type_of held)]
      by_cases right : d.type = T
      · refine ⟨.null, s, ?_, fun made => absurd rfl (new_error_filled made)⟩
        rw [if_pos right]
        exact runs_pure_self _ _
      · obtain ⟨a, c, rfl, known, _, _, rest⟩ := list
        simp only [if_neg right, runs_after lengthRun, runs_after (runs_load known)]
        cases ys with
        | nil =>
            refine ⟨_, _, ?_, fun _ => ⟨x, [], d.type, .null, [T], rfl, type, ?_, rfl, rfl⟩⟩
            · exact runs_alloc _ s
            · rintro z ⟨⟩
        | cons y ys =>
            obtain ⟨b, c', here, known', _, rfl, _⟩ := rest
            obtain ⟨d', held'⟩ := args.values c'.car (List.mem_cons_of_mem _ List.mem_cons_self)
            have filling := other_types_run (W := W) known' held' ((x :: c'.car :: ys).length - 1)
            refine ⟨_, _, ?_, fun _ =>
              ⟨x, c'.car :: ys, d.type, d'.type, T :: List.replicate (ys.length + 1) .any, rfl, type, ?_,
                rfl, rfl⟩⟩
            · rw [runs_after filling]
              exact runs_alloc _ s
            · rintro z ⟨⟩
              rw [State.typeOf, held', Option.map_some]

/-- The error of the fixed arguments' check reports all types, and that of the first argument's
check exactly where no argument after the second has another type than the second. -/
theorem type_errors_report_iff (args : Arguments s xs L) (expected : List ValType) (T : ValType) :
    (∃ v t, (runtime W).Runs (blErrifInvalidFixedArgs L expected) s v t ∧
      (NewError s t v .invalidArgType → Reports s t xs v)) ∧
    ∃ v t, (runtime W).Runs (blErrifInvalidFirstarg L T) s v t ∧
      (NewError s t v .invalidArgType →
        (Reports s t xs v ↔ ∀ x ∈ xs.drop 2, s.typeOf x = s.typeOf (xs.getD 1 .null))) := by
  constructor
  · obtain ⟨v, t, run, outcome⟩ := fixed_args_runs (W := W) args expected
    refine ⟨v, t, run, fun made => ?_⟩
    cases outcome with
    | short _ made' => exact nomatch new_error_kind made made'
    | long _ made' => exact nomatch new_error_kind made made'
    | spoiled _ _ kept =>
        obtain ⟨_, c, made, _⟩ := made
        have fresh := congrArg State.fresh (kept.symm.trans made)
        rw [State.fresh_allocated] at fresh
        omega
    | accepted _ none_ _ => exact absurd none_ (new_error_filled made)
    | mistyped same _ _ types here made' listed =>
        subst here made'
        refine ⟨_, _, State.cell_allocated_new _ _, rfl, same.symm, fun k x at_ => ?_⟩
        have there := congrArg (fun types => types[k]?) listed
        simp only [List.getElem?_map, at_, Option.map_some] at there
        obtain ⟨T', provided, type⟩ := Option.map_eq_some_iff.1 there
        exact provided.trans type
  · obtain ⟨v, t, run, outcome⟩ := first_arg_runs (W := W) args T
    refine ⟨v, t, run, fun made => ?_⟩
    obtain ⟨x, ys, first, second, wanted, rfl, type, other, rfl, rfl⟩ := outcome made
    have reports : Reports s (s.allocated (.mkErr .invalidArgType 1
        { maxArgs := longestList, providedArgs := (x :: ys).length, expectedTypes := wanted
          providedTypes := first :: List.replicate ((x :: ys).length - 1) second })) (x :: ys)
          (.ref s.fresh) ↔ ∀ y ∈ ys, s.typeOf y = some second := by
      constructor
      · rintro ⟨c, e, known, info, _, all⟩ y mem
        rw [State.cell_allocated_new] at known
        cases known
        cases info
        obtain ⟨k, at_⟩ := List.getElem?_of_mem mem
        rw [← all (k + 1) y at_, List.getElem?_cons_succ, List.getElem?_replicate]
        exact if_pos (List.getElem?_eq_some_iff.1 at_).1
      · intro all
        refine ⟨_, _, State.cell_allocated_new _ _, rfl, rfl, fun k y at_ => ?_⟩
        cases k with
        | zero =>
            cases at_
            exact type.symm
        | succ k =>
            have inside := (List.getElem?_eq_some_iff.1 at_).1
            rw [List.length_cons, Nat.succ_lt_succ_iff] at inside
            rw [List.getElem?_cons_succ, List.getElem?_replicate]
            exact (if_pos inside).trans (all y (List.mem_of_getElem? at_)).symm
    rw [reports]
    cases ys with
    | nil => exact ⟨nofun, nofun⟩
    | cons y zs =>
        have second_ : s.typeOf y = some second := other y rfl
        simp only [List.forall_mem_cons, second_, true_and, List.drop_succ_cons, List.drop_zero,
          List.getD_cons_succ, List.getD_cons_zero]

theorem type_errors_report_iff_mixed : ∃ v t, (runtime World.bare).Runs
    (blErrifInvalidFirstarg (.ref 10) .cptr) mixedArguments v t ∧
      (NewError mixedArguments t v .invalidArgType →
        ¬ Reports mixedArguments t [.ref 7, .ref 8, .ref 9] v) := by
  obtain ⟨_, v, t, run, reports⟩ :=
    type_errors_report_iff (W := World.bare) mixed_arguments [.cptr] .cptr
  refine ⟨v, t, run, fun made reported => ?_⟩
  exact absurd ((reports made).1 reported (.ref 9) (by simp)) (by decide)

/-- The third of three arguments is reported with the second's type. -/
theorem type_error_misreports : ∃ (s t : State) (xs : List Ptr) (L v : Ptr) (T : ValType),
    Arguments s xs L ∧ (runtime World.bare).Runs (blErrifInvalidFirstarg L T) s v t ∧
      NewError s t v .invalidArgType ∧ ¬ Reports s t xs v := by
  refine ⟨mixedArguments, _, _, .ref 10, _, .cptr, mixed_arguments, ⟨8, rfl⟩,
    ⟨rfl, _, rfl, rfl, rfl⟩, ?_⟩
  rintro ⟨c, e, known, info, _, all⟩
  cases known
  cases info
  exact absurd (all 2 (.ref 9) rfl) (by decide)

end Arguments

end BearLang.ArgumentChecks
