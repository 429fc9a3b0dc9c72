import BearLang.OperatorCalls
import BearLang.Printing

/-!
# Comparing values

`bl_oper_eq` compares two strings as strings. Whatever else it is given it compares
as numbers, and everything that is no number reads as zero there. `filtered` uses it
for every pair of elements.
-/

namespace BearLang.EqualValues

open CallPrograms OperatorCalls

set_option autoImplicit false

section Values

/-- A value that `eq` is for. -/
inductive Simple where
  | number (i : Int)
  | string (str : CStr)
  | bool (b : Bool)
  | none
deriving DecidableEq

/-- The cell holds the value; the bytes of the union that it does not use are zero. -/
def Holds (s : State) (x : Simple) (p : Ptr) : Prop :=
  ∃ c, s.cell p = some c ∧
    match x with
    | .number i => c.type = .number ∧ c.iVal = some i
    | .string str => c.type = .string ∧ c.sVal = some str ∧ c.w1 = .zero
    | .bool b => c.type = .bool ∧ c.bVal = some b ∧ c.w1 = .zero
    | .none => c.type = .null ∧ c.car = .null ∧ c.w1 = .zero

/-- `i_val` of the value. -/
def Simple.view : Simple → Int
  | .number i => i
  | _ => 0

/-- What `eq` says. -/
def Simple.alike : Simple → Simple → Bool
  | .string a, .string b => a == b
  | x, y => x.view == y.view

/-- Two strings, equal values, or values of which one is a number other than zero. -/
def Simple.ToldApart (x y : Simple) : Prop :=
  x = y ∨ (∃ a b, x = .string a ∧ y = .string b) ∨ x.view ≠ 0 ∨ y.view ≠ 0

theorem alike_strings (a b : CStr) : (Simple.string a).alike (.string b) = (a == b) := rfl

theorem alike_views {x y : Simple} (other : ¬ ∃ a b, x = .string a ∧ y = .string b) :
    x.alike y = (x.view == y.view) := by
  cases x with
  | string a =>
      cases y with
      | string b => exact absurd ⟨a, b, rfl, rfl⟩ other
      | number j => rfl
      | bool b => rfl
      | none => rfl
  | number i => rfl
  | bool b => rfl
  | none => rfl

/-- A value that reads as a number other than zero is that number. -/
theorem number_of_view {x : Simple} (nonzero : x.view ≠ 0) : x = .number x.view := by
  cases x with
  | number i => rfl
  | string a => exact absurd rfl nonzero
  | bool b => exact absurd rfl nonzero
  | none => exact absurd rfl nonzero

theorem alike_self (x : Simple) : x.alike x = true := by
  cases x with
  | string a => exact beq_self_eq_true a
  | number i => exact beq_self_eq_true i
  | bool b => rfl
  | none => rfl

/-- `eq` is right about two values exactly when it can tell them apart. -/
theorem alike_iff (x y : Simple) : (x.alike y = true ↔ x = y) ↔ x.ToldApart y := by
  constructor
  · intro right
    by_cases strings : ∃ a b, x = .string a ∧ y = .string b
    · exact .inr (.inl strings)
    · by_cases zeros : x.view = 0 ∧ y.view = 0
      · refine .inl (right.1 ?_)
        rw [alike_views strings, zeros.1, zeros.2]
        rfl
      · right
        right
        omega
  · rintro (rfl | ⟨a, b, rfl, rfl⟩ | nonzero | nonzero)
    · exact iff_of_true (alike_self x) rfl
    · rw [alike_strings]
      simp
    · have number := number_of_view nonzero
      constructor
      · intro same
        have other : ¬ ∃ a b, x = .string a ∧ y = .string b := by
          rintro ⟨a, b, rfl, _⟩
          exact nonzero rfl
        rw [alike_views other] at same
        have views : x.view = y.view := by simpa using same
        rw [number, number_of_view (x := y) (views ▸ nonzero), views]
      · rintro rfl
        exact alike_self x
    · have number := number_of_view nonzero
      constructor
      · intro same
        have other : ¬ ∃ a b, x = .string a ∧ y = .string b := by
          rintro ⟨a, b, _, rfl⟩
          exact nonzero rfl
        rw [alike_views other] at same
        have views : x.view = y.view := by simpa using same
        have nonzero' : x.view ≠ 0 := views ▸ nonzero
        rw [number, number_of_view nonzero', views]
      · rintro rfl
        exact alike_self x

end Values

section Comparing

variable {W : World} {ctx expr : Ptr} {s m : State}

/-- What `bl_oper_eq` does with the values of its operands. -/
def eqValues (first second : Ptr) : Prog Ptr := do
  let a ← load first
  let b ← load second
  if a.type = .type ∧ b.type = .type then pure (blMkBool (a.refType == b.refType))
  else if a.type = .string ∧ b.type = .string then pure (blMkBool (a.sVal == b.sVal))
  else do
    let x ← member a.iVal
    let y ← member b.iVal
    pure (blMkBool (x == y))

theorem oper_eq_values (ctx params : Ptr) : blOperEq ctx params =
    (do let a ← evalFirst ctx params; let b ← evalSecond ctx params; eqValues a b) := rfl

theorem i_val_of_zero {c : Cell} (zero : c.w1 = .zero) : c.iVal = some 0 := by
  rw [Cell.iVal, zero]

theorem holds_view {x : Simple} {p : Ptr} (held : Holds s x p) : ∃ c, s.cell p = some c ∧
    c.iVal = some x.view ∧ c.type ≠ .type ∧
    (c.type = .string ↔ ∃ str, x = .string str ∧ c.sVal = some str) := by
  obtain ⟨c, known, shape⟩ := held
  refine ⟨c, known, ?_⟩
  cases x with
  | number i =>
      obtain ⟨type, value⟩ := shape
      refine ⟨value, by rw [type]; decide, ?_⟩
      rw [type]
      simp
  | string str =>
      obtain ⟨type, value, unused⟩ := shape
      refine ⟨i_val_of_zero unused, by rw [type]; decide, ?_⟩
      rw [type]
      simp [value]
  | bool b =>
      obtain ⟨type, value, unused⟩ := shape
      refine ⟨i_val_of_zero unused, by rw [type]; decide, ?_⟩
      rw [type]
      simp
  | none =>
      obtain ⟨type, _, unused⟩ := shape
      refine ⟨i_val_of_zero unused, by rw [type]; decide, ?_⟩
      rw [type]
      simp

theorem eq_values_run {x y : Simple} {p q : Ptr} (first : Holds s x p) (second : Holds s y q) :
    (runtime W).Runs (eqValues p q) s (blMkBool (x.alike y)) s := by
  obtain ⟨a, known, view, noType, string⟩ := holds_view first
  obtain ⟨b, known', view', _, string'⟩ := holds_view second
  rw [eqValues, runs_after (runs_load known), runs_after (runs_load known'),
    if_neg fun types => noType types.1]
  by_cases strings : ∃ c d, x = .string c ∧ y = .string d
  · obtain ⟨c, d, rfl, rfl⟩ := strings
    obtain ⟨_, type, value⟩ := first
    obtain ⟨_, type', value'⟩ := second
    rw [known] at type
    rw [known'] at type'
    cases type
    cases type'
    rw [if_pos ⟨value.1, value'.1⟩, value.2.1, value'.2.1]
    exact runs_pure_self _ _
  · have other : ¬ (a.type = .string ∧ b.type = .string) := by
      rintro ⟨isString, isString'⟩
      obtain ⟨c, rfl, _⟩ := string.1 isString
      obtain ⟨d, rfl, _⟩ := string'.1 isString'
      exact strings ⟨c, d, rfl, rfl⟩
    rw [if_neg other, runs_after (runs_member view s), runs_after (runs_member view' s),
      alike_views strings]
    exact runs_pure_self _ _

theorem mk_bool_ne_null (b : Bool) : orNull (blMkBool b) = blMkBool b := by
  cases b <;> rfl

/-- `(eq e₁ e₂)` gives a truth value, and it says whether the values of the operands
are equal exactly when it can tell them apart. -/
theorem eq_decides_equality_iff {x y : Simple} {p q : Ptr}
    (operands : TwoOperands W .eq ctx expr s p q m) (first : Holds m x p) (second : Holds m y q)
    (site : Site) : ∃ b, (runtime W).Runs (blEval site ctx expr) s (blMkBool b) m ∧
      ((b = true ↔ x = y) ↔ x.ToldApart y) := by
  have code : ∀ params, builtinCode W .eq ctx params =
      (do let a ← evalFirst ctx params; let b ← evalSecond ctx params; eqValues a b) :=
    fun params => oper_eq_values ctx params
  refine ⟨x.alike y, ?_, alike_iff x y⟩
  rw [two_operands_runs code operands site]
  exact ⟨_, eq_values_run first second, (mk_bool_ne_null _).symm⟩

/-- `(eq 3 4)` and `(eq True False)`. -/
def twoComparisons : State where
  cells := staticCells ++
    [{ type := .symbol, w0 := .str (text "eq"), w1 := .ofNat 0 },
     { type := .operNative, w0 := .code (.builtin .eq) },
     .mkCtx { Ctx.new 8 .null with
       keys := [.ref 7, .null, .null, .null, .null, .null, .null, .null]
       vals := [.ref 8, .null, .null, .null, .null, .null, .null, .null] },
     .mkNumber 3, .mkNumber 4,
     .mkCons (.ref 11) .null, .mkCons (.ref 10) (.ref 12), .mkCons (.ref 7) (.ref 13),
     .mkCons falseVal .null, .mkCons trueVal (.ref 15), .mkCons (.ref 7) (.ref 16)]
  symbolTable := [⟨text "eq", 7⟩]
  lastSymId := 1

/-- The numbers 3 and 4. -/
theorem eq_decides_equality_iff_numbers : ∃ m b,
    (runtime World.bare).Runs (blEval .operand (.ref 9) (.ref 14)) twoComparisons (blMkBool b) m ∧
      ((b = true ↔ Simple.number 3 = Simple.number 4) ↔
        (Simple.number 3).ToldApart (.number 4)) := by
  have operands : ∃ m, TwoOperands World.bare .eq (.ref 9) (.ref 14) twoComparisons (.ref 10)
      (.ref 11) m ∧ Holds m (.number 3) (.ref 10) ∧ Holds m (.number 4) (.ref 11) :=
    ⟨_, ⟨13, _, _, .ref 10, .ref 11, [.ref 11], .ref 10, [],
      ⟨_, _, _, _, _, _, rfl, rfl, .symbol rfl rfl ⟨9, rfl⟩ (by decide),
      rfl, rfl, rfl, rfl, rfl, rfl, rfl⟩,
      ⟨13, _, rfl, rfl, rfl, rfl, 12, _, rfl, rfl, rfl, rfl, rfl⟩, ⟨9, rfl⟩,
      ⟨13, _, rfl, rfl, rfl, rfl, 12, _, rfl, rfl, rfl, rfl, rfl⟩, ⟨9, rfl⟩⟩,
      ⟨_, rfl, rfl, rfl⟩, ⟨_, rfl, rfl, rfl⟩⟩
  obtain ⟨m, operands, first, second⟩ := operands
  obtain ⟨b, run, right⟩ := eq_decides_equality_iff operands first second .operand
  exact ⟨m, b, run, right⟩

/-- `(eq True False)` is `True`. -/
theorem true_equals_false : ∃ m,
    TwoOperands World.bare .eq (.ref 9) (.ref 17) twoComparisons trueVal falseVal m ∧
      Holds m (.bool true) trueVal ∧ Holds m (.bool false) falseVal ∧
      (runtime World.bare).Runs (blEval .operand (.ref 9) (.ref 17)) twoComparisons trueVal m ∧
      Simple.bool true ≠ Simple.bool false :=
  ⟨_, ⟨16, _, _, trueVal, falseVal, [falseVal], trueVal, [],
    ⟨_, _, _, _, _, _, rfl, rfl, .symbol rfl rfl ⟨9, rfl⟩ (by decide),
    rfl, rfl, rfl, rfl, rfl, rfl, rfl⟩,
    ⟨16, _, rfl, rfl, rfl, rfl, 15, _, rfl, rfl, rfl, rfl, rfl⟩, ⟨9, rfl⟩,
    ⟨16, _, rfl, rfl, rfl, rfl, 15, _, rfl, rfl, rfl, rfl, rfl⟩, ⟨9, rfl⟩⟩,
    ⟨_, rfl, rfl, rfl, rfl⟩, ⟨_, rfl, rfl, rfl, rfl⟩, ⟨9, rfl⟩, by decide⟩

end Comparing

section Filtering

variable {W : World} {ctx expr : Ptr} {s t m : State}

theorem holds_extends (extended : Extends s t) {x : Simple} {p : Ptr} (held : Holds s x p) :
    Holds t x p := by
  obtain ⟨c, known, shape⟩ := held
  exact ⟨c, extended p c known, shape⟩

/-- The values evaluate to themselves, and a null pointer to `None`. -/
theorem eval_simple_runs (site : Site) {x : Simple} {p : Ptr} (held : Holds s x (orNull p)) :
    (runtime W).Runs (blEval site ctx p) s (orNull p) s := by
  rw [runs_eval, evalBody]
  by_cases none_ : p = .null
  · rw [if_pos none_, orNull, if_pos none_]
    exact runs_pure_self _ _
  · rw [orNull, if_neg none_] at held ⊢
    rw [if_neg none_]
    refine runs_call (c := .evalLoop ctx p) ?_
    change (runtime W).Runs (evalLoopBody ctx p) s p s
    obtain ⟨c, known, shape⟩ := held
    rw [evalLoopBody, if_neg none_, runs_after (runs_load known)]
    cases x with
    | number i =>
        rw [shape.1]
        exact runs_pure_self _ _
    | string str =>
        rw [shape.1]
        exact runs_pure_self _ _
    | bool b =>
        rw [shape.1]
        exact runs_pure_self _ _
    | none =>
        rw [shape.1]
        exact runs_pure_self _ _

/-- The values, as a loop comes to them. -/
def HoldsAll (s : State) (items : List (Ptr × Simple)) : Prop :=
  ∀ x ∈ items, Holds s x.2 (orNull x.1)

theorem holds_all_extends (extended : Extends s t) {items : List (Ptr × Simple)}
    (held : HoldsAll s items) : HoldsAll t items :=
  fun x mem => holds_extends extended (held x mem)

theorem oper_eq_runs (ctx : Ptr) {x y : Simple} {p q args : Ptr} (list : ListAt s [p, q] args)
    (first : Holds s x (orNull p)) (second : Holds s y (orNull q)) :
    (runtime W).Runs (blOperEq ctx args) s (blMkBool (x.alike y)) s := by
  rw [oper_eq_values, runs_after (eval_first_runs list (eval_simple_runs _ first)),
    runs_after (eval_second_runs list (eval_simple_runs _ second))]
  exact eq_values_run first second

theorem bool_of_runs (truth : Holds s (.bool true) trueVal) (falsity : Holds s (.bool false) falseVal)
    (b : Bool) : (runtime W).Runs (boolOf (blMkBool b)) s b s := by
  cases b with
  | true =>
      obtain ⟨c, known, _, value, _⟩ := truth
      change (runtime W).Runs (boolOf trueVal) s true s
      rw [boolOf, runs_after (runs_load known)]
      exact runs_member value s
  | false =>
      obtain ⟨c, known, _, value, _⟩ := falsity
      change (runtime W).Runs (boolOf falseVal) s false s
      rw [boolOf, runs_after (runs_load known)]
      exact runs_member value s

structure Statics (s : State) : Prop where
  none : Holds s .none nullVal
  truth : Holds s (.bool true) trueVal
  falsity : Holds s (.bool false) falseVal

theorem statics_extends (extended : Extends s t) (statics : Statics s) : Statics t where
  none := holds_extends extended statics.none
  truth := holds_extends extended statics.truth
  falsity := holds_extends extended statics.falsity

theorem filtered_inner_runs (ctx : Ptr) {x : Simple} {p : Ptr} {items : List (Ptr × Simple)}
    {I : Ptr}
    (chain : Chain s (items.map Prod.fst) I) (statics : Statics s) (first : Holds s x (orNull p))
    (held : HoldsAll s items) (isIn : Bool) :
    ∃ t, (runtime W).Runs (call (.filteredInner ctx p I isIn)) s
      (isIn || items.any fun y => x.alike y.2) t ∧ Extends s t := by
  induction items generalizing s I isIn with
  | nil =>
      have none_ : I = .null := chain
      refine ⟨s, runs_call (c := .filteredInner ctx p I isIn) ?_, extends_refl s⟩
      change (runtime W).Runs (filteredInner ctx p I isIn) s _ s
      rw [filteredInner, if_pos none_, List.any_nil, Bool.or_false]
      exact runs_pure_self _ _
  | cons y items ih =>
      obtain ⟨c, known, car, rest⟩ := chain
      obtain ⟨args, m, made, added, list⟩ := mk_list_runs (W := W) (x := p) (y := c.car) s
      have extended := adds_extends added
      have second : Holds m y.2 (orNull c.car) := by
        rw [car]
        exact holds_extends extended (held y List.mem_cons_self)
      have compared := oper_eq_runs (W := W) ctx list (holds_extends extended first) second
      have statics' := statics_extends extended statics
      have known' := extended I c known
      obtain ⟨t, run, extended'⟩ := ih (chain_extends extended rest) statics'
        (holds_extends extended first)
        (fun z mem => holds_extends extended (held z (List.mem_cons_of_mem _ mem)))
        (isIn || x.alike y.2)
      refine ⟨t, runs_call (c := .filteredInner ctx p I isIn) ?_, extends_trans extended extended'⟩
      change (runtime W).Runs (filteredInner ctx p I isIn) s _ t
      rw [filteredInner, if_neg (cell_ne_null known), runs_after (runs_load known), runs_after made,
        runs_after compared, runs_after (bool_of_runs statics'.truth statics'.falsity _),
        runs_after (runs_load known'), List.any_cons, ← Bool.or_assoc]
      exact run

def kept (items others : List (Ptr × Simple)) : List Ptr :=
  (items.filter fun x => !others.any fun y => x.2.alike y.2).map Prod.fst

theorem filtered_loop_runs (ctx : Ptr) {items others : List (Ptr × Simple)} {L I R : Ptr}
    {ys : List Ptr}
    (chain : Chain s (items.map Prod.fst) L) (chain' : Chain s (others.map Prod.fst) I)
    (statics : Statics s) (held : HoldsAll s items) (held' : HoldsAll s others)
    (reversed : ListAt s ys R) :
    ∃ r t, (runtime W).Runs (call (.filteredLoop ctx L I R)) s r t ∧ Extends s t ∧
      ListAt t (ys.reverse ++ kept items others) r := by
  induction items generalizing s L R ys with
  | nil =>
      have none_ : L = .null := chain
      have nothing : ListAt s [] .null := rfl
      obtain ⟨r, t, run, added, list⟩ :=
        reverse_loop_runs (W := W) (chain_of_list_at reversed) nothing
      refine ⟨r, t, runs_call (c := .filteredLoop ctx L I R) ?_, adds_extends added, list⟩
      change (runtime W).Runs (filteredLoop ctx L I R) s r t
      rw [filteredLoop, if_pos none_]
      exact run
  | cons x items ih =>
      obtain ⟨c, known, car, rest⟩ := chain
      have first : Holds s x.2 (orNull c.car) := by
        rw [car]
        exact held x List.mem_cons_self
      obtain ⟨m, run, extended⟩ := filtered_inner_runs (W := W) ctx (p := c.car) chain'
        statics first held' false
      rw [Bool.false_or] at run
      -- the element is left out, or put in front of those collected
      obtain ⟨R', u, kept_, extended', reversed'⟩ : ∃ R' u,
          (runtime W).Runs (if (others.any fun y => x.2.alike y.2) = true then pure R
            else blListPrepend R c.car) m R' u ∧ Extends m u ∧
          ListAt u ((if (others.any fun y => x.2.alike y.2) = true then [] else [x.1]) ++ ys) R' := by
        by_cases isIn : (others.any fun y => x.2.alike y.2) = true
        · rw [if_pos isIn, if_pos isIn]
          exact ⟨R, m, runs_pure_self _ _, extends_refl m, list_at_extends extended reversed⟩
        · rw [if_neg isIn, if_neg isIn, car]
          exact ⟨_, _, runs_alloc _ m, extends_allocated m _,
            list_at_cons (list_at_extends extended reversed)⟩
      have whole := extends_trans extended extended'
      obtain ⟨r, t, run', extended'', list⟩ := ih (chain_extends whole rest)
        (chain_extends whole chain') (statics_extends whole statics)
        (holds_all_extends whole fun z mem => held z (List.mem_cons_of_mem _ mem))
        (holds_all_extends whole held') reversed'
      refine ⟨r, t, runs_call (c := .filteredLoop ctx L I R) ?_, extends_trans whole extended'', ?_⟩
      · change (runtime W).Runs (filteredLoop ctx L I R) s r t
        rw [filteredLoop, if_neg (cell_ne_null known), runs_after (runs_load known), runs_after run]
        dsimp only
        by_cases isIn : (others.any fun y => x.2.alike y.2) = true
        · rw [if_pos isIn] at kept_ ⊢
          rw [runs_after kept_, runs_after (runs_load (whole L c known))]
          exact run'
        · rw [if_neg isIn] at kept_ ⊢
          rw [runs_after kept_, runs_after (runs_load (whole L c known))]
          exact run'
      · by_cases isIn : (others.any fun y => x.2.alike y.2) = true
        · simpa [kept, isIn] using list
        · simpa [kept, isIn] using list

structure SimpleList (s : State) (items : List (Ptr × Simple)) (p : Ptr) : Prop where
  list : ListValue s (items.map Prod.fst) p
  held : ∀ x ∈ items, Holds s x.2 x.1

/-- The elements of the first list that are equal to none of the second, in order. -/
def difference (items others : List (Ptr × Simple)) : List Ptr :=
  (items.filter fun x => !(others.map Prod.snd).contains x.2).map Prod.fst

/-- The element is one of the others, or `eq` can tell it apart from each of them;
without others it is a number other than zero. -/
def Discerned (x : Simple) (others : List Simple) : Prop :=
  x ∈ others ∨ if others = [] then x.view ≠ 0 else ∀ y ∈ others, x.ToldApart y

/-- What a loop over the list comes to. -/
def rawItems (items : List (Ptr × Simple)) : List (Ptr × Simple) :=
  if items = [] then [(.null, .none)] else items

theorem raw_items {items : List (Ptr × Simple)} {p : Ptr} (list : SimpleList s items p)
    (none_ : Holds s .none nullVal) :
    Chain s ((rawItems items).map Prod.fst) p ∧ HoldsAll s (rawItems items) := by
  have chain := chain_of_list_value list.list
  by_cases empty : items = []
  · subst empty
    refine ⟨chain, fun x mem => ?_⟩
    rw [List.mem_singleton.1 mem]
    exact none_
  · rw [rawItems, if_neg empty]
    rw [raw, if_neg (by simpa using empty)] at chain
    refine ⟨chain, fun x mem => ?_⟩
    obtain ⟨c, known, shape⟩ := list.held x mem
    rw [orNull, if_neg (cell_ne_null known)]
    exact ⟨c, known, shape⟩

/-- The loop finds the element among the others exactly if it is there, when it can
be discerned. -/
theorem seen_iff (x : Simple) (others : List (Ptr × Simple)) :
    (((rawItems others).any fun y => x.alike y.2) = (others.map Prod.snd).contains x) ↔
      Discerned x (others.map Prod.snd) := by
  by_cases empty : others = []
  · subst empty
    have seen : ((rawItems []).any fun y => x.alike y.2) = x.alike .none := by
      simp [rawItems]
    have other : ¬ ∃ a b, x = .string a ∧ Simple.none = .string b := fun ⟨_, _, _, h⟩ => nomatch h
    rw [seen, alike_views other]
    simp [Discerned, Simple.view]
  · have some_ : others.map Prod.snd ≠ [] := by simpa using empty
    rw [rawItems, if_neg empty, Discerned, if_neg some_, Bool.eq_iff_iff]
    simp only [List.any_eq_true, List.contains_iff_mem]
    constructor
    · intro same
      by_cases mem : x ∈ others.map Prod.snd
      · exact .inl mem
      · refine .inr fun y inside => (alike_iff x y).1 ⟨fun alike => ?_, fun equal => ?_⟩
        · obtain ⟨z, zMem, rfl⟩ := List.mem_map.1 inside
          exact absurd (same.1 ⟨z, zMem, alike⟩) mem
        · exact absurd (equal ▸ inside) mem
    · rintro (mem | apart)
      · refine iff_of_true ?_ mem
        obtain ⟨z, zMem, rfl⟩ := List.mem_map.1 mem
        exact ⟨z, zMem, alike_self z.2⟩
      · constructor
        · rintro ⟨z, zMem, alike⟩
          have mem : z.2 ∈ others.map Prod.snd := List.mem_map_of_mem zMem
          rw [((alike_iff x z.2).2 (apart z.2 mem)).1 alike]
          exact mem
        · intro mem
          obtain ⟨z, zMem, rfl⟩ := List.mem_map.1 mem
          exact ⟨z, zMem, alike_self z.2⟩

/-- The list that is made is the difference exactly if the loops and the difference
agree on every element. -/
theorem kept_eq_difference_iff (items others : List (Ptr × Simple)) :
    kept items (rawItems others) = difference items others ↔
      ∀ x ∈ items, Discerned x.2 (others.map Prod.snd) := by
  have found : ∀ x : Simple, x ∈ others.map Prod.snd →
      ((rawItems others).any fun y => x.alike y.2) = true := by
    intro x mem
    obtain ⟨z, zMem, rfl⟩ := List.mem_map.1 mem
    rw [rawItems, if_neg (List.ne_nil_of_mem zMem), List.any_eq_true]
    exact ⟨z, zMem, alike_self z.2⟩
  have fewer : (items.filter fun x => !(rawItems others).any fun y => x.2.alike y.2).Sublist
      (items.filter fun x => !(others.map Prod.snd).contains x.2) := by
    refine List.monotone_filter_right items fun x notSeen => ?_
    by_contra missing
    have mem : x.2 ∈ others.map Prod.snd := by simpa using missing
    rw [found x.2 mem] at notSeen
    cases notSeen
  have same : kept items (rawItems others) = difference items others ↔
      (items.filter fun x => !(rawItems others).any fun y => x.2.alike y.2) =
        items.filter fun x => !(others.map Prod.snd).contains x.2 := by
    constructor
    · intro equal
      have lengths := congrArg List.length equal
      rw [kept, difference, List.length_map, List.length_map] at lengths
      exact fewer.eq_of_length lengths
    · intro equal
      rw [kept, difference, equal]
  rw [same]
  constructor
  · intro equal x mem
    refine (seen_iff x.2 others).1 (Bool.not_inj (Bool.eq_iff_iff.2 ?_))
    have both : x ∈ items.filter (fun x => !(rawItems others).any fun y => x.2.alike y.2) ↔
        x ∈ items.filter fun x => !(others.map Prod.snd).contains x.2 := by rw [equal]
    rw [List.mem_filter, List.mem_filter] at both
    exact ⟨fun notSeen => (both.1 ⟨mem, notSeen⟩).2, fun missing => (both.2 ⟨mem, missing⟩).2⟩
  · intro discerned
    refine List.filter_congr fun x mem => ?_
    rw [(seen_iff x.2 others).2 (discerned x mem)]

/-- `(filtered L I)` gives the elements of `L` that are equal to none of `I` exactly
when it can discern each element. -/
theorem filtered_is_difference_iff {items others : List (Ptr × Simple)} {L I : Ptr}
    (operands : TwoOperands W .filtered ctx expr s L I m) (list : SimpleList m items L)
    (list' : SimpleList m others I) (statics : Statics m) (site : Site) :
    ∃ r t, (runtime W).Runs (blEval site ctx expr) s r t ∧
      (ListValue t (difference items others) r ↔
        ∀ x ∈ items, Discerned x.2 (others.map Prod.snd)) := by
  have code : ∀ params, builtinCode W .filtered ctx params =
      (do let a ← evalFirst ctx params; let b ← evalSecond ctx params;
          call (.filteredLoop ctx a b .null)) := fun _ => rfl
  obtain ⟨chain, held⟩ := raw_items list statics.none
  obtain ⟨chain', held'⟩ := raw_items list' statics.none
  have nothing : ListAt m [] .null := rfl
  obtain ⟨r, t, run, extended, result⟩ := filtered_loop_runs (W := W) ctx chain chain'
    statics held held' nothing
  refine ⟨orNull r, t, (two_operands_runs code operands site).2 ⟨r, run, rfl⟩, ?_⟩
  have empty : EmptyList t nullVal := by
    obtain ⟨c, known, type, car, unused⟩ := holds_extends extended statics.none
    exact ⟨c, known, .inl type, car, by rw [Cell.cdr, unused]; rfl⟩
  by_cases none_ : items = []
  · -- whatever the loop made of the null pointer is an empty list
    subst none_
    refine iff_of_true ?_ fun _ mem => absurd mem List.not_mem_nil
    refine .inl ⟨rfl, ?_⟩
    have one : rawItems [] = [(.null, .none)] := rfl
    have short : kept (rawItems []) (rawItems others) = [] ∨
        kept (rawItems []) (rawItems others) = [.null] := by
      rw [one, kept]
      cases seen : (rawItems others).any fun y => Simple.none.alike y.2 with
      | true =>
          left
          rw [List.filter_cons_of_neg (by simp only [seen]; decide)]
          rfl
      | false =>
          right
          rw [List.filter_cons_of_pos (by simp only [seen]; decide)]
          rfl
    rw [List.reverse_nil, List.nil_append] at result
    rcases short with short | short
    · rw [short] at result
      have nowhere : r = .null := result
      rw [orNull, if_pos nowhere]
      exact empty
    · rw [short] at result
      obtain ⟨a, c, rfl, known, type, car, cdr⟩ := result
      exact ⟨c, known, .inr type, car, cdr⟩
  · have value : ListValue t (kept items (rawItems others)) (orNull r) := by
      rw [rawItems, if_neg none_] at result
      by_cases nothing_ : kept items (rawItems others) = []
      · rw [nothing_] at result ⊢
        have nowhere : r = .null := result
        rw [orNull, if_pos nowhere]
        exact .inl ⟨rfl, empty⟩
      · refine .inr ⟨nothing_, fun x mem => ?_, ?_⟩
        · obtain ⟨y, inside, rfl⟩ := List.mem_map.1 mem
          obtain ⟨c, known, _⟩ := list.held y (List.mem_filter.1 inside).1
          exact cell_ne_null known
        · obtain ⟨x, xs, some_⟩ := List.exists_cons_of_ne_nil nothing_
          have filled : r ≠ .null := by
            have cells := result
            rw [List.reverse_nil, List.nil_append, some_] at cells
            obtain ⟨a, _, rfl, _⟩ := cells
            simp
          rw [orNull, if_neg filled]
          exact result
    rw [← kept_eq_difference_iff]
    constructor
    · exact fun claimed => list_value_unique value claimed
    · intro same
      rw [← same]
      exact value

/-- `l` is the list of 5, and `k` that of a string; the calls are `(filtered l None)`
and `(filtered k None)`. -/
def twoLists : State where
  cells := staticCells ++
    [{ type := .symbol, w0 := .str (text "filtered"), w1 := .ofNat 0 },
     { type := .symbol, w0 := .str (text "l"), w1 := .ofNat 1 },
     { type := .symbol, w0 := .str (text "k"), w1 := .ofNat 2 },
     { type := .operNative, w0 := .code (.builtin .filtered) },
     .mkCtx { Ctx.new 8 .null with
       keys := [.ref 7, .ref 8, .ref 9, .null, .null, .null, .null, .null]
       vals := [.ref 10, .ref 14, .ref 15, .null, .null, .null, .null, .null] },
     .mkNumber 5, .mkStr (text "a"), .mkCons (.ref 12) .null, .mkCons (.ref 13) .null,
     .mkCons nullVal .null, .mkCons (.ref 8) (.ref 16), .mkCons (.ref 7) (.ref 17),
     .mkCons (.ref 9) (.ref 16), .mkCons (.ref 7) (.ref 19)]
  symbolTable := [⟨text "k", 9⟩, ⟨text "l", 8⟩, ⟨text "filtered", 7⟩]
  lastSymId := 3

/-- The number 5 is told apart from nothing. -/
theorem filtered_is_difference_iff_number : ∃ r t,
    (runtime World.bare).Runs (blEval .operand (.ref 11) (.ref 18)) twoLists r t ∧
      (ListValue t (difference [(.ref 12, .number 5)] []) r ↔
        ∀ x ∈ [((.ref 12 : Ptr), Simple.number 5)], Discerned x.2 []) := by
  have operands : ∃ m, TwoOperands World.bare .filtered (.ref 11) (.ref 18) twoLists (.ref 14)
      nullVal m ∧ SimpleList m [(.ref 12, .number 5)] (.ref 14) ∧ SimpleList m [] nullVal ∧
      Statics m :=
    ⟨_, ⟨17, _, _, .ref 8, nullVal, [nullVal], .ref 8, [], ⟨_, _, _, _, _, _, rfl, rfl,
      .symbol rfl rfl ⟨9, rfl⟩ (by decide), rfl, rfl, rfl, rfl, rfl, rfl, rfl⟩,
      ⟨17, _, rfl, rfl, rfl, rfl, 16, _, rfl, rfl, rfl, rfl, rfl⟩, ⟨9, rfl⟩,
      ⟨17, _, rfl, rfl, rfl, rfl, 16, _, rfl, rfl, rfl, rfl, rfl⟩, ⟨9, rfl⟩⟩,
      ⟨.inr ⟨by simp, by simp, 14, _, rfl, rfl, rfl, rfl, rfl⟩,
        fun x mem => by rw [List.mem_singleton.1 mem]; exact ⟨_, rfl, rfl, rfl⟩⟩,
      ⟨.inl ⟨rfl, _, rfl, .inl rfl, rfl, rfl⟩, fun _ mem => absurd mem List.not_mem_nil⟩,
      ⟨⟨_, rfl, rfl, rfl, rfl⟩, ⟨_, rfl, rfl, rfl, rfl⟩, ⟨_, rfl, rfl, rfl, rfl⟩⟩⟩
  obtain ⟨m, operands, list, list', statics⟩ := operands
  exact filtered_is_difference_iff operands list list' statics .operand

/-- Nothing is to be left out of the list of a string, and nothing is left of it. -/
theorem string_filtered_out : ∃ m t,
    TwoOperands World.bare .filtered (.ref 11) (.ref 20) twoLists (.ref 15) nullVal m ∧
      SimpleList m [(.ref 13, .string (text "a"))] (.ref 15) ∧ SimpleList m [] nullVal ∧
      (runtime World.bare).Runs (blEval .operand (.ref 11) (.ref 20)) twoLists nullVal t ∧
      ¬ ListValue t (difference [(.ref 13, .string (text "a"))] []) nullVal := by
  refine ⟨_, _, ⟨19, _, _, .ref 9, nullVal, [nullVal], .ref 9, [], ⟨_, _, _, _, _, _, rfl, rfl,
    .symbol rfl rfl ⟨9, rfl⟩ (by decide), rfl, rfl, rfl, rfl, rfl, rfl, rfl⟩,
    ⟨19, _, rfl, rfl, rfl, rfl, 16, _, rfl, rfl, rfl, rfl, rfl⟩, ⟨9, rfl⟩,
    ⟨19, _, rfl, rfl, rfl, rfl, 16, _, rfl, rfl, rfl, rfl, rfl⟩, ⟨9, rfl⟩⟩,
    ⟨.inr ⟨by simp, by simp, 15, _, rfl, rfl, rfl, rfl, rfl⟩,
      fun x mem => by rw [List.mem_singleton.1 mem]; exact ⟨_, rfl, rfl, rfl, rfl⟩⟩,
    ⟨.inl ⟨rfl, _, rfl, .inl rfl, rfl, rfl⟩, fun _ mem => absurd mem List.not_mem_nil⟩,
    ⟨20, rfl⟩, ?_⟩
  rintro (⟨none_, _⟩ | ⟨_, _, a, c, same, known, type, _⟩)
  · cases none_
  · cases same
    cases known
    cases type

end Filtering

end BearLang.EqualValues
