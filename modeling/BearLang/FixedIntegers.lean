import BearLang.EvaluatedValues
import BearLang.StateInvariants

/-!
# The two representations of a number

A number has a bignum `i_val` and a 64-bit `fix_int`. The literals and the arithmetic
operators compute the first and leave the second as it was allocated.
-/

namespace BearLang.FixedIntegers

open CallPrograms EvaluatedValues

set_option autoImplicit false

/-- `fix_int`: the first word, read as a signed number; an address in its place is not
determined. -/
def fixInt (c : Cell) : Option Int :=
  match c.w0 with
  | .zero => some 0
  | .int n => some (BitVec.ofNat 64 n).toInt
  | _ => none

def fixIntOf (p : Ptr) : Prog Int := do
  let c ← load p
  member (fixInt c)

def FitsInt64 (i : Int) : Prop := -2 ^ 63 ≤ i ∧ i < 2 ^ 63

instance (i : Int) : Decidable (FitsInt64 i) := by
  unfold FitsInt64
  infer_instance

def arithmetic : List Builtin := [.add, .sub, .mult, .div, .mod]

def counting : List Builtin := [.inc, .dec]

/-- The number values of a program: literals and results of arithmetic, with whatever runs
after them. -/
inductive Obtained (W : World) : Ptr → State → Prop
  | literal {s t : State} {v : Ptr} {text : CStr}
      (run : (runtime W).Runs (blMkInteger text) s v t) : Obtained W v t
  | computed {s t : State} {v ctx params : Ptr} {op : Builtin} (takes : op ∈ arithmetic)
      (run : (runtime W).Runs (call (.native (.builtin op) ctx params)) s v t)
      (number : t.typeOf v = some .number) : Obtained W v t
  | counted {s t : State} {v ctx params : Ptr} {op : Builtin} (takes : op ∈ counting)
      (before : Obtained W v s)
      (run : (runtime W).Runs (call (.native (.builtin op) ctx params)) s v t) : Obtained W v t
  | kept {α : Type} {program : Prog α} {r : α} {s t : State} {v : Ptr} (before : Obtained W v s)
      (run : (runtime W).Runs program s r t) : Obtained W v t

/-- A number that fits is the one that the readers of `fix_int` see. -/
def Agrees (W : World) (v : Ptr) (t : State) : Prop :=
  ∀ i, (runtime W).Runs (intOf v) t i t → FitsInt64 i → (runtime W).Runs (fixIntOf v) t i t

section Results

variable {W : World} {α : Type} {s t : State} {v : Ptr}

/-- A number whose `fix_int` was never set. -/
def Unset (t : State) (v : Ptr) : Prop := ∃ c, t.cell v = some c ∧ c.type = .number ∧ c.w0 = .zero

/-- The numbers that the program answers with are new ones. -/
def NewNumbers (W : World) (program : Prog Ptr) : Prop :=
  ∀ s v t, (runtime W).Runs program s v t → t.typeOf v = some .number → Unset t v

theorem unset_grows (unset : Unset s v) (grown : Grows s t) : Unset t v := by
  obtain ⟨c, known, number, word⟩ := unset
  obtain ⟨d, found, type, same⟩ := grown v c known
  exact ⟨d, found, type.trans number, same.trans word⟩

theorem new_bind {program : Prog α} {f : α → Prog Ptr} (rest : ∀ a, NewNumbers W (f a)) :
    NewNumbers W (program >>= f) := by
  intro s v t run number
  obtain ⟨a, m, _, later⟩ := runs_bind.1 run
  exact rest a m v t later number

theorem new_alloc {c : Cell} (zero : c.type = .number → c.w0 = .zero) : NewNumbers W (alloc c) := by
  intro s v t run number
  obtain ⟨rfl, rfl⟩ := runs_functional run (runs_alloc c s)
  obtain ⟨d, known, type⟩ := Option.map_eq_some_iff.1 number
  rw [State.cell_allocated_new] at known
  cases known
  exact ⟨c, State.cell_allocated_new s c, type, zero type⟩

theorem new_number (i : Int) : NewNumbers W (alloc (.mkNumber i)) := new_alloc fun _ => rfl

theorem new_error (kind : ErrType) (n : Nat) (e : ErrInfo) : NewNumbers W (alloc (.mkErr kind n e)) :=
  new_alloc fun number => nomatch number

theorem new_trap : NewNumbers W trap := by
  intro s v t run
  obtain ⟨answer, _⟩ := runs_perform.1 run
  exact nomatch answer

theorem invalid_len_error {L : Ptr} {min max : Nat}
    (run : (runtime W).Runs (blErrifInvalidLen L min max) s v t) (filled : v ≠ .null) :
    t.typeOf v = some .error := by
  obtain ⟨T, m, typed, run⟩ := runs_bind.1 run
  obtain ⟨c, known, same⟩ := runs_load_iff.1 typed
  obtain ⟨rfl, rfl⟩ := runs_pure.1 same
  split at run
  · rename_i error
    obtain ⟨rfl, rfl⟩ := runs_pure.1 run
    rw [State.typeOf, known, Option.map_some, error]
  · obtain ⟨n, m, _, run⟩ := runs_bind.1 run
    split at run
    · obtain ⟨rfl, _⟩ := runs_pure.1 run
      exact absurd rfl filled
    · dsimp only at run
      split at run
      all_goals
        obtain ⟨rfl, rfl⟩ := runs_functional run (runs_alloc _ m)
        rw [State.typeOf, State.cell_allocated_new]
        rfl

theorem check_args_error {expected : List ValType} {i found : Ptr} {good good' : Bool}
    (run : (runtime W).Runs (checkArgs expected i good) s (found, good') t) (filled : found ≠ .null) :
    t.typeOf found = some .error := by
  induction expected generalizing i good s with
  | nil =>
      obtain ⟨same, _⟩ := runs_pure.1 run
      cases same
      exact absurd rfl filled
  | cons T expected ih =>
      obtain ⟨c, known, run⟩ := runs_load_iff.1 run
      obtain ⟨T', m, typed, run⟩ := runs_bind.1 run
      obtain ⟨d, held, same⟩ := runs_load_iff.1 typed
      obtain ⟨rfl, rfl⟩ := runs_pure.1 same
      split at run
      · rename_i error
        obtain ⟨same, rfl⟩ := runs_pure.1 run
        cases same
        rw [State.typeOf, held, Option.map_some, error]
      · split at run
        · exact ih run
        · exact ih run

theorem fixed_args_error {L : Ptr} {expected : List ValType}
    (run : (runtime W).Runs (blErrifInvalidFixedArgs L expected) s v t) (filled : v ≠ .null) :
    t.typeOf v = some .error := by
  obtain ⟨r, m, checked, run⟩ := runs_bind.1 run
  split at run
  · rename_i refused
    obtain ⟨rfl, rfl⟩ := runs_pure.1 run
    exact invalid_len_error checked refused
  · obtain ⟨⟨found, good⟩, m, checked, run⟩ := runs_bind.1 run
    dsimp only at run
    split at run
    · rename_i refused
      obtain ⟨rfl, rfl⟩ := runs_pure.1 run
      exact check_args_error checked refused
    · split at run
      · obtain ⟨rfl, _⟩ := runs_pure.1 run
        exact absurd rfl filled
      · obtain ⟨types, m, _, run⟩ := runs_bind.1 run
        obtain ⟨rfl, rfl⟩ := runs_functional run (runs_alloc _ m)
        rw [State.typeOf, State.cell_allocated_new]
        rfl

theorem new_checked {check rest : Prog Ptr}
    (errors : ∀ s v t, (runtime W).Runs check s v t → v ≠ .null → t.typeOf v = some .error)
    (good : NewNumbers W rest) :
    NewNumbers W (check >>= fun retval => if retval ≠ .null then pure retval else rest) := by
  intro s v t run number
  obtain ⟨r, m, checked, run⟩ := runs_bind.1 run
  split at run
  · rename_i refused
    obtain ⟨rfl, rfl⟩ := runs_pure.1 run
    have error := errors s r m checked refused
    rw [number] at error
    cases error
  · exact good m v t run number

theorem sub_new (ctx params : Ptr) : NewNumbers W (blOperSub ctx params) := by
  refine new_bind fun params => new_checked (fun _ _ _ => fixed_args_error) ?_
  exact new_bind fun first => new_bind fun second => new_bind fun a => new_bind fun b => new_number _

theorem mult_new (ctx params : Ptr) : NewNumbers W (blOperMult ctx params) := by
  refine new_bind fun params => new_checked (fun _ _ _ => fixed_args_error) ?_
  exact new_bind fun first => new_bind fun second => new_bind fun a => new_bind fun b => new_number _

theorem div_new (ctx params : Ptr) : NewNumbers W (blOperDiv ctx params) := by
  refine new_bind fun params => new_checked (fun _ _ _ => fixed_args_error) ?_
  refine new_bind fun first => new_bind fun second => new_bind fun b => ?_
  split
  · exact new_error .divideByZero 0 {}
  · exact new_bind fun a => new_number _

theorem mod_new (ctx params : Ptr) : NewNumbers W (blOperMod ctx params) := by
  refine new_bind fun first => new_bind fun second => new_bind fun a => new_bind fun b => ?_
  split
  · exact new_trap
  · exact new_number _

/-- A reversed list is what it is linked to, or a list cell. -/
theorem reverse_loop_new {L R : Ptr} (run : (runtime W).Runs (call (.reverseLoop L R)) s v t) :
    v = R ∨ t.typeOf v = some .cons := by
  have each (fuel : Nat) : ∀ L R s, (runtime W).exec fuel (.reverseLoop L R) s = .returned v t →
      v = R ∨ t.typeOf v = some .cons := by
    induction fuel with
    | zero => exact fun L R s run => nomatch run
    | succ fuel ih =>
        intro L R s run
        have body : runWith (runtime W).step ((runtime W).exec fuel) (reverseLoop L R) s =
            .returned v t := run
        rw [reverseLoop] at body
        split at body
        · cases body
          exact .inl rfl
        · obtain ⟨c, m, _, body⟩ := returned_bind.1 body
          obtain ⟨R', n, made, body⟩ := returned_bind.1 body
          obtain ⟨rfl, rfl⟩ := runs_functional ⟨fuel, made⟩ (runs_alloc (.mkCons c.car R) m)
          rcases ih _ _ _ (exec_of_returned body) with rfl | isCons
          · refine .inr (type_of_grows (runs_grows ⟨fuel, body⟩) ?_)
            rw [State.typeOf, State.cell_allocated_new]
            rfl
          · exact .inr isCons
  obtain ⟨fuel, run⟩ := run
  exact each fuel L R s (exec_of_returned run)

theorem add_lists_new {ctx L R : Ptr} (run : (runtime W).Runs (call (.addLists ctx L R)) s v t) :
    v = .null ∨ t.typeOf v = some .cons := by
  have each (fuel : Nat) : ∀ L R s, (runtime W).exec fuel (.addLists ctx L R) s = .returned v t →
      v = .null ∨ t.typeOf v = some .cons := by
    induction fuel with
    | zero => exact fun L R s run => nomatch run
    | succ fuel ih =>
        intro L R s run
        have body : runWith (runtime W).step ((runtime W).exec fuel) (addLists ctx L R) s =
            .returned v t := run
        rw [addLists] at body
        split at body
        · exact reverse_loop_new ⟨fuel, body⟩
        · obtain ⟨c, _, _, body⟩ := returned_bind.1 body
          obtain ⟨x, _, _, body⟩ := returned_bind.1 body
          obtain ⟨kind, _, _, body⟩ := returned_bind.1 body
          dsimp only at body
          split at body
          all_goals
            obtain ⟨retval, _, _, body⟩ := returned_bind.1 body
            obtain ⟨c, _, _, body⟩ := returned_bind.1 body
            exact ih _ _ _ (exec_of_returned body)
  obtain ⟨fuel, run⟩ := run
  exact each fuel L R s (exec_of_returned run)

theorem add_mode_new (ctx params first : Ptr) : NewNumbers W (addMode ctx params first) := by
  refine new_bind fun kind => ?_
  split
  · exact new_bind fun sum => new_number sum
  · intro s v t run number
    rcases add_lists_new run with rfl | isCons
    · cases number
    · rw [number] at isCons
      cases isCons
  · exact new_bind fun str => new_alloc fun number => nomatch number

theorem new_unless_error {L : Ptr} {rest : Prog Ptr} (good : NewNumbers W rest) :
    NewNumbers W (typeOf L >>= fun kind => if kind = .error then pure L else rest) := by
  intro s v t run number
  obtain ⟨kind, m, typed, run⟩ := runs_bind.1 run
  obtain ⟨c, known, same⟩ := runs_load_iff.1 typed
  obtain ⟨rfl, rfl⟩ := runs_pure.1 same
  split at run
  · rename_i error
    obtain ⟨rfl, rfl⟩ := runs_pure.1 run
    rw [State.typeOf, known, Option.map_some, error] at number
    cases number
  · exact good _ _ _ run number

theorem add_new (ctx params : Ptr) : NewNumbers W (blOperAdd ctx params) := by
  refine new_bind fun kind => ?_
  split
  · intro s v t run number
    by_cases filled : v = .null
    · subst filled
      cases number
    · rw [invalid_len_error run filled] at number
      cases number
  · refine new_bind fun L => new_unless_error (new_checked (fun _ _ _ => invalid_len_error) ?_)
    refine new_bind fun first => new_bind fun kind => ?_
    split
    · refine new_bind fun n => ?_
      split
      · exact new_bind fun second => add_mode_new ctx first second
      · exact add_mode_new ctx params first
    · exact add_mode_new ctx params first

theorem arithmetic_new {op : Builtin} (takes : op ∈ arithmetic) (ctx params : Ptr) :
    NewNumbers W (call (.native (.builtin op) ctx params)) := by
  intro s v t run number
  have code : (runtime W).Runs (builtinCode W op ctx params) s v t := runs_call_iff.1 run
  simp only [arithmetic, List.mem_cons, List.not_mem_nil, or_false] at takes
  rcases takes with rfl | rfl | rfl | rfl | rfl
  · exact add_new ctx params s v t code number
  · exact sub_new ctx params s v t code number
  · exact mult_new ctx params s v t code number
  · exact div_new ctx params s v t code number
  · exact mod_new ctx params s v t code number

/-- No producer sets `fix_int`, and nothing that runs later does. -/
theorem obtained_unset (obtained : Obtained W v t) : Unset t v := by
  induction obtained with
  | literal run =>
      obtain ⟨rfl, rfl⟩ := runs_functional run (runs_alloc _ _)
      exact ⟨_, State.cell_allocated_new _ _, rfl, rfl⟩
  | computed takes run number => exact arithmetic_new takes _ _ _ _ _ run number
  | counted _ _ run unset => exact unset_grows unset (runs_grows run)
  | kept _ run unset => exact unset_grows unset (runs_grows run)

theorem fix_int_unset (unset : Unset t v) : (runtime W).Runs (fixIntOf v) t 0 t := by
  obtain ⟨c, known, _, word⟩ := unset
  rw [fixIntOf, runs_after (runs_load known)]
  exact runs_member (by rw [fixInt, word]) t

/-- The number that the readers of `fix_int` see is the computed one exactly where this is 0,
or does not fit. -/
theorem fix_int_agrees_iff (obtained : Obtained W v t) :
    Agrees W v t ↔ ∀ i, (runtime W).Runs (intOf v) t i t → FitsInt64 i → i = 0 := by
  have zero := fix_int_unset (W := W) (obtained_unset obtained)
  constructor
  · intro agrees i computed fits
    exact (runs_functional (agrees i computed fits) zero).1
  · intro small i computed fits
    rw [small i computed fits]
    exact zero

end Results

section Literals

/-- The literal 5. -/
theorem five_obtained : ∃ v t, Obtained World.bare v t ∧
    (runtime World.bare).Runs (intOf v) t 5 t := by
  have made : (runtime World.bare).Runs (blMkInteger (text "5")) { cells := staticCells } (.ref 7)
      { cells := staticCells ++ [.mkNumber 5] } := ⟨4, rfl⟩
  exact ⟨_, _, .literal made, ⟨4, rfl⟩⟩

theorem fix_int_agrees_iff_literal : ∃ v t, Obtained World.bare v t ∧ ¬ Agrees World.bare v t := by
  obtain ⟨v, t, obtained, five⟩ := five_obtained
  refine ⟨v, t, obtained, fun agrees => ?_⟩
  have zero := (fix_int_agrees_iff obtained).1 agrees 5 five (by decide)
  cases zero

/-- A reader of `fix_int` does not see the literal 5. -/
theorem literal_not_seen : ∃ v t i, Obtained World.bare v t ∧
    (runtime World.bare).Runs (intOf v) t i t ∧ FitsInt64 i ∧
      ¬ (runtime World.bare).Runs (fixIntOf v) t i t := by
  obtain ⟨v, t, obtained, five⟩ := five_obtained
  refine ⟨v, t, 5, obtained, five, by decide, fun seen => ?_⟩
  have zero := (runs_functional seen (fix_int_unset (obtained_unset obtained))).1
  cases zero

end Literals

end BearLang.FixedIntegers
