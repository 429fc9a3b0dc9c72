import BearLang.ArgumentChecks
import BearLang.FixedIntegers

/-!
# Formatted output

`bl_fprintf` and `bl_hexdump` of the `stdio` module, and the expansion of a format that the
comment on `fprintf` documents. The characters are given as they go to the stream.
-/

namespace BearLang.FormattedOutput

open CallPrograms OperatorCalls ListFunctions ArgumentChecks FixedIntegers

set_option autoImplicit false

section Source

/-- `%llx` -/
def hexadecimal (n : Nat) : CStr := (Nat.toDigits 16 n).map chr

/-- The dump of anything but a number is printed over what is printed from, and what is
returned was never written. -/
def blHexdump (V : Ptr) : Prog CStr := do
  let c ← load V
  if c.type = .number then
    let n ← fixIntOf V
    pure (snprintf 20 (text "0x" ++ hexadecimal (n % 2 ^ 64).toNat))
  else trap

/-- The loop over the format, with the characters it writes. -/
@[grind =]
def fprintfLoop : CStr → Bool → Ptr → Prog CStr
  | [], _, _ => pure []
  | c :: s, formatSym, varIter =>
      if c = chr '%' then
        if formatSym then do
          let out ← fprintfLoop s false varIter
          pure (chr '%' :: out)
        else fprintfLoop s true varIter
      else if c = chr 's' then
        if formatSym then do
          let var ← blListFirst varIter
          let buf ← blSerNakedSexp var
          let varIter ← blListRest varIter
          let out ← fprintfLoop s false varIter
          pure ((if buf = [] then text "(null)" else buf) ++ out)
        else do
          let out ← fprintfLoop s formatSym varIter
          pure (chr 's' :: out)
      else if c = chr 'x' then
        if formatSym then do
          let var ← blListFirst varIter
          let buf ← blHexdump var
          let varIter ← blListRest varIter
          let out ← fprintfLoop s false varIter
          pure (buf ++ out)
        else do
          let out ← fprintfLoop s formatSym varIter
          pure (chr 'x' :: out)
      else do
        let out ← fprintfLoop s formatSym varIter
        pure (c :: out)

/-- `bl_fprintf`, with what it finds in its local `format_sym`, gives the result and the
characters written. -/
def blFprintf (formatSym : Bool) (ctx params : Ptr) : Prog (Ptr × CStr) := do
  let params ← blEvalCons ctx params
  let retval ← blErrifInvalidFirstarg params .cptr
  if retval ≠ .null then pure (retval, [])
  else
    let p ← load params
    let retval ← blErrifInvalidFirstarg p.cdr .string
    if retval ≠ .null then pure (retval, [])
    else
      let formatStr ← blListSecond params
      let rest ← blListRest params
      let vars ← blListRest rest
      let s ← strOf formatStr
      let out ← fprintfLoop s formatSym vars
      pure (nullVal, out)

end Source

section Documented

/-- An argument as the documentation speaks of it: its unquoted serialisation and its
hexadecimal form. -/
structure Argument where
  shown : CStr
  hex : CStr

/-- The text that the documentation promises. -/
def expansion : CStr → List Argument → CStr
  | [], _ => []
  | [c], _ => [c]
  | c :: d :: s, args =>
      if c = chr '%' then
        if d = chr 's' then
          (args.head?.map (·.shown)).getD (text "(null)") ++ expansion s args.tail
        else if d = chr 'x' then
          (args.head?.map (·.hex)).getD (text "0x00") ++ expansion s args.tail
        else if d = chr '%' then chr '%' :: expansion s args
        else expansion s args
      else c :: expansion (d :: s) args

/-- The hexadecimal form of a number, and of the bytes of any other value. -/
def hexOf (c : Cell) (shown : CStr) : CStr :=
  if c.type = .number then
    match c.iVal.getD 0 with
    | .ofNat n => text "0x" ++ hexadecimal n
    | .negSucc n => text "0x-" ++ hexadecimal (n + 1)
  else text "0x" ++ (shown.map fun b => hexadecimal b.toNat).flatten

/-- The value is this argument. -/
def Shows (W : World) (m : State) (x : Ptr) (a : Argument) : Prop :=
  (runtime W).Runs (blSerNakedSexp x) m a.shown m ∧
    ∃ c, m.cell x = some c ∧ a.hex = hexOf c a.shown

/-- The format consists of characters that are no directive, and of `%%`. -/
inductive Plain : CStr → Prop
  | nil : Plain []
  | ordinary {c : Byte} {s : CStr} (noPercent : c ≠ chr '%') (noS : c ≠ chr 's')
      (noX : c ≠ chr 'x') (rest : Plain s) : Plain (c :: s)
  | percent {s : CStr} (rest : Plain s) : Plain (chr '%' :: chr '%' :: s)

theorem expansion_ordinary {c : Byte} (noPercent : c ≠ chr '%') (s : CStr) (args : List Argument) :
    expansion (c :: s) args = c :: expansion s args := by
  cases s with
  | nil => rfl
  | cons d s => rw [expansion, if_neg noPercent]

theorem expansion_percent (s : CStr) (args : List Argument) :
    expansion (chr '%' :: chr '%' :: s) args = chr '%' :: expansion s args := by
  rw [expansion, if_pos rfl, if_neg (by decide), if_neg (by decide), if_pos rfl]

end Documented

section Loop

variable {W : World} {s m t : State} {vars : Ptr} {fmt out : CStr}

theorem loop_ordinary {c : Byte} (noPercent : c ≠ chr '%') (noS : c ≠ chr 's') (noX : c ≠ chr 'x')
    (flag : Bool) : (runtime W).Runs (fprintfLoop (c :: fmt) flag vars) m out t ↔
      ∃ rest, (runtime W).Runs (fprintfLoop fmt flag vars) m rest t ∧ out = c :: rest := by
  rw [fprintfLoop, if_neg noPercent, if_neg noS, if_neg noX, runs_bind]
  constructor
  · rintro ⟨rest, n, run, same⟩
    obtain ⟨rfl, rfl⟩ := runs_pure.1 same
    exact ⟨rest, run, rfl⟩
  · rintro ⟨rest, run, rfl⟩
    exact ⟨rest, t, run, runs_pure_self _ _⟩

theorem loop_percent_clear : (runtime W).Runs (fprintfLoop (chr '%' :: fmt) false vars) m out t ↔
    (runtime W).Runs (fprintfLoop fmt true vars) m out t := by
  rw [fprintfLoop, if_pos rfl, if_neg (by decide)]

theorem loop_percent_set : (runtime W).Runs (fprintfLoop (chr '%' :: fmt) true vars) m out t ↔
    ∃ rest, (runtime W).Runs (fprintfLoop fmt false vars) m rest t ∧ out = chr '%' :: rest := by
  rw [fprintfLoop, if_pos rfl, if_pos rfl, runs_bind]
  constructor
  · rintro ⟨rest, n, run, same⟩
    obtain ⟨rfl, rfl⟩ := runs_pure.1 same
    exact ⟨rest, run, rfl⟩
  · rintro ⟨rest, run, rfl⟩
    exact ⟨rest, t, run, runs_pure_self _ _⟩

/-- A plain format is written as documented, whatever the flag is at its start. -/
theorem plain_expands (plain : Plain fmt) (flag : Bool) (args : List Argument) :
    (runtime W).Runs (fprintfLoop fmt flag vars) m (expansion fmt args) m := by
  induction plain generalizing flag with
  | nil => exact runs_pure_self _ _
  | ordinary noPercent noS noX rest ih =>
      rw [expansion_ordinary noPercent]
      exact (loop_ordinary noPercent noS noX flag).2 ⟨_, ih flag, rfl⟩
  | percent rest ih =>
      rw [expansion_percent]
      cases flag with
      | false => exact loop_percent_clear.2 (loop_percent_set.2 ⟨_, ih false, rfl⟩)
      | true => exact loop_percent_set.2 ⟨_, loop_percent_clear.2 (ih true), rfl⟩

theorem loop_string_faults : ¬ (runtime W).Runs (fprintfLoop (chr 's' :: fmt) true .null) m out t := by
  intro run
  rw [fprintfLoop, if_neg (by decide), if_pos rfl, if_pos rfl] at run
  obtain ⟨var, n, first, run⟩ := runs_bind.1 run
  obtain ⟨rfl, rfl⟩ := runs_pure.1 first
  obtain ⟨buf, n, shown, _⟩ := runs_bind.1 run
  obtain ⟨str, u, _, typed⟩ := runs_bind.1 shown
  obtain ⟨T, w, typed, _⟩ := runs_bind.1 typed
  obtain ⟨_, none_, _⟩ := runs_load_iff.1 typed
  cases none_

theorem loop_hex_faults : ¬ (runtime W).Runs (fprintfLoop (chr 'x' :: fmt) true .null) m out t := by
  intro run
  rw [fprintfLoop, if_neg (by decide), if_neg (by decide), if_pos rfl, if_pos rfl] at run
  obtain ⟨var, n, first, run⟩ := runs_bind.1 run
  obtain ⟨rfl, rfl⟩ := runs_pure.1 first
  obtain ⟨buf, n, dumped, _⟩ := runs_bind.1 run
  obtain ⟨_, none_, _⟩ := runs_load_iff.1 dumped
  cases none_

/-- A format that gives the same text without arguments, whatever the flag is at its start,
is plain. -/
theorem plain_of_runs (length : Nat) (bound : fmt.length ≤ length)
    (runs : ∀ flag, (runtime W).Runs (fprintfLoop fmt flag .null) m out t) : Plain fmt := by
  induction length generalizing fmt out with
  | zero =>
      obtain rfl := List.length_eq_zero_iff.1 (Nat.le_zero.1 bound)
      exact .nil
  | succ length ih =>
      cases fmt with
      | nil => exact .nil
      | cons c fmt =>
          rw [List.length_cons] at bound
          by_cases isS : c = chr 's'
          · subst isS
            exact absurd (runs true) loop_string_faults
          by_cases isX : c = chr 'x'
          · subst isX
            exact absurd (runs true) loop_hex_faults
          by_cases isPercent : c = chr '%'
          · subst isPercent
            have clear := loop_percent_clear.1 (runs false)
            obtain ⟨rest, set, rfl⟩ := loop_percent_set.1 (runs true)
            cases fmt with
            | nil =>
                obtain ⟨same, _⟩ := runs_pure.1 clear
                cases same
            | cons d fmt =>
                rw [List.length_cons] at bound
                by_cases isS : d = chr 's'
                · subst isS
                  exact absurd clear loop_string_faults
                by_cases isX : d = chr 'x'
                · subst isX
                  exact absurd clear loop_hex_faults
                by_cases isPercent : d = chr '%'
                · subst isPercent
                  obtain ⟨rest', clear', same⟩ := loop_percent_set.1 clear
                  cases same
                  have set' := loop_percent_clear.1 set
                  have both (flag : Bool) :
                      (runtime W).Runs (fprintfLoop fmt flag .null) m rest t := by
                    cases flag with
                    | false => exact clear'
                    | true => exact set'
                  exact .percent (ih (by omega) both)
                · -- the unknown directive is written where the other run writes a percent sign
                  obtain ⟨rest', _, same⟩ := (loop_ordinary isPercent isS isX true).1 clear
                  cases same
                  exact absurd rfl isPercent
          · have each (flag : Bool) := (loop_ordinary isPercent isS isX flag).1 (runs flag)
            obtain ⟨rest, run, rfl⟩ := each true
            have both (flag : Bool) : (runtime W).Runs (fprintfLoop fmt flag .null) m rest t := by
              obtain ⟨rest', run', same⟩ := each flag
              cases same
              exact run'
            exact .ordinary isPercent isS isX (ih (by omega) both)

/-- The directives are known ones, each with an argument that the loop writes as documented:
for `%s` one that is not shown as nothing, for `%x` the number 0. -/
inductive Covered (W : World) (m : State) : CStr → List Ptr → List Argument → Prop
  | nil (xs : List Ptr) (args : List Argument) : Covered W m [] xs args
  | copied {c : Byte} {s : CStr} {xs : List Ptr} {args : List Argument} (noPercent : c ≠ chr '%')
      (rest : Covered W m s xs args) : Covered W m (c :: s) xs args
  | percent {s : CStr} {xs : List Ptr} {args : List Argument} (rest : Covered W m s xs args) :
      Covered W m (chr '%' :: chr '%' :: s) xs args
  | string {s : CStr} {x : Ptr} {a : Argument} {xs : List Ptr} {args : List Argument}
      (shows : Shows W m x a) (some_ : a.shown ≠ []) (rest : Covered W m s xs args) :
      Covered W m (chr '%' :: chr 's' :: s) (x :: xs) (a :: args)
  | hex {s : CStr} {x : Ptr} {a : Argument} {xs : List Ptr} {args : List Argument}
      (shows : Shows W m x a) (unset : Unset m x) (zero : (runtime W).Runs (intOf x) m 0 m)
      (rest : Covered W m s xs args) : Covered W m (chr '%' :: chr 'x' :: s) (x :: xs) (a :: args)

theorem hexdump_zero {x : Ptr} {a : Argument} (shows : Shows W m x a) (unset : Unset m x)
    (zero : (runtime W).Runs (intOf x) m 0 m) : (runtime W).Runs (blHexdump x) m a.hex m := by
  have word := fix_int_unset (W := W) unset
  obtain ⟨c, known, number, _⟩ := unset
  obtain ⟨_, d, held, hex⟩ := shows
  rw [known] at held
  cases held
  obtain ⟨e, found, value⟩ := runs_load_iff.1 zero
  rw [known] at found
  cases found
  have isZero : c.iVal = some 0 := by
    cases held : c.iVal with
    | none =>
        rw [held] at value
        obtain ⟨answer, _⟩ := runs_perform.1 value
        exact nomatch answer
    | some i =>
        rw [held] at value
        obtain ⟨rfl, _⟩ := runs_pure.1 value
        rfl
  have shape : a.hex = text "0x0" := by
    rw [hex, hexOf, if_pos number, isZero]
    rfl
  rw [blHexdump, runs_after (runs_load known), if_pos number, runs_after word, shape]
  exact runs_pure_self _ _

/-- With the flag clear at its start, the loop writes what is documented. -/
theorem covered_expands {xs : List Ptr} {args : List Argument} (covered : Covered W m fmt xs args)
    (list : ListAt m xs vars) :
    (runtime W).Runs (fprintfLoop fmt false vars) m (expansion fmt args) m := by
  induction covered generalizing vars with
  | nil xs args => exact runs_pure_self _ _
  | @copied c s xs args noPercent rest ih =>
      rw [expansion_ordinary noPercent]
      by_cases isS : c = chr 's'
      · subst isS
        rw [fprintfLoop, if_neg noPercent, if_pos rfl, if_neg (by decide), runs_after (ih list)]
        exact runs_pure_self _ _
      by_cases isX : c = chr 'x'
      · subst isX
        rw [fprintfLoop, if_neg noPercent, if_neg isS, if_pos rfl, if_neg (by decide),
          runs_after (ih list)]
        exact runs_pure_self _ _
      exact (loop_ordinary noPercent isS isX false).2 ⟨_, ih list, rfl⟩
  | percent rest ih =>
      rw [expansion_percent]
      exact loop_percent_clear.2 (loop_percent_set.2 ⟨_, ih list, rfl⟩)
  | @string s x a xs args shows some_ rest ih =>
      obtain ⟨q, next, list'⟩ := list_rest_runs (W := W) list
      refine loop_percent_clear.2 ?_
      rw [fprintfLoop, if_neg (by decide), if_pos rfl, if_pos rfl,
        runs_after (list_first_runs list), runs_after shows.1, runs_after next, runs_after (ih list')]
      rw [if_neg some_, expansion, if_pos rfl, if_pos rfl]
      exact runs_pure_self _ _
  | @hex s x a xs args shows unset zero rest ih =>
      obtain ⟨q, next, list'⟩ := list_rest_runs (W := W) list
      refine loop_percent_clear.2 ?_
      rw [fprintfLoop, if_neg (by decide), if_neg (by decide), if_pos rfl, if_pos rfl,
        runs_after (list_first_runs list), runs_after (hexdump_zero shows unset zero), runs_after next,
        runs_after (ih list')]
      rw [expansion, if_pos rfl, if_neg (by decide), if_pos rfl]
      exact runs_pure_self _ _

end Loop

section Calls

variable {W : World} {s m t : State} {ctx params L fd f : Ptr} {fmt out : CStr} {xs : List Ptr}

/-- The parameters evaluate to a stream, a format and the arguments. -/
structure Called (W : World) (s m : State) (ctx params fd f : Ptr) (fmt : CStr) (xs : List Ptr) :
    Prop where
  values : ∃ L, (runtime W).Runs (blEvalCons ctx params) s L m ∧ ListAt m (fd :: f :: xs) L
  stream : m.typeOf fd = some .cptr
  format : ∃ c, m.cell f = some c ∧ c.type = .string ∧ c.sVal = some fmt
  arguments : ∀ x ∈ xs, ∃ c, m.cell x = some c
  -- no list in memory is longer
  room : xs.length + 2 ≤ longestList

theorem first_arg_passes {x : Ptr} {T : ValType} {c : Cell} (list : ListAt m (x :: xs) L)
    (known : m.cell x = some c) (type : c.type = T)
    (values : ∀ y ∈ xs, ∃ d, m.cell y = some d) (room : xs.length + 1 ≤ longestList) :
    (runtime W).Runs (blErrifInvalidFirstarg L T) m .null m := by
  have whole : ListValue m (x :: xs) L := by
    refine .inr ⟨List.cons_ne_nil _ _, fun y mem => ?_, list⟩
    rcases List.mem_cons.1 mem with rfl | mem
    · exact cell_ne_null known
    · obtain ⟨d, held⟩ := values y mem
      exact cell_ne_null held
  obtain ⟨enough, _, _⟩ := invalid_len_runs (W := W) whole 1 longestList
  rw [blErrifInvalidFirstarg, runs_after (enough ⟨Nat.succ_pos _, room⟩), if_neg (not_not.2 rfl),
    runs_after (list_first_runs list), runs_after (runs_type_of known), if_pos type]
  exact runs_pure_self _ _

theorem fprintf_runs (called : Called W s m ctx params fd f fmt xs) : ∃ vars, ListAt m xs vars ∧
    ∀ flag v out t, (runtime W).Runs (blFprintf flag ctx params) s (v, out) t ↔
      v = nullVal ∧ (runtime W).Runs (fprintfLoop fmt flag vars) m out t := by
  obtain ⟨⟨L, run, list⟩, stream, ⟨c, known, isString, str⟩, arguments, room⟩ := called
  obtain ⟨d, known', isStream⟩ := Option.map_eq_some_iff.1 stream
  have streamPasses := first_arg_passes (W := W) list known' isStream (fun y mem => by
    rcases List.mem_cons.1 mem with rfl | mem
    · exact ⟨c, known⟩
    · exact arguments y mem) room
  have second := list_second_runs (W := W) list
  obtain ⟨q, rest, list'⟩ := list_rest_runs (W := W) list
  obtain ⟨vars, rest', list''⟩ := list_rest_runs (W := W) list'
  have formatPasses := first_arg_passes (W := W) list' known isString arguments (by omega)
  have string : (runtime W).Runs (strOf f) m fmt m := by
    rw [strOf, runs_after (runs_load known)]
    exact runs_member str m
  refine ⟨vars, list'', fun flag v out t => ?_⟩
  obtain ⟨a, e, rfl, held, _, _, behind⟩ := list
  have next : e.cdr = q := by
    rw [blListRest, if_neg (by simp), runs_after (runs_load held)] at rest
    exact (runs_pure.1 rest).1
  rw [blFprintf, runs_after run, runs_after streamPasses, if_neg (not_not.2 rfl),
    runs_after (runs_load held), next, runs_after formatPasses, if_neg (not_not.2 rfl),
    runs_after second, runs_after rest, runs_after rest', runs_after string, runs_bind]
  constructor
  · rintro ⟨out', n, run, same⟩
    obtain ⟨pair, rfl⟩ := runs_pure.1 same
    cases pair
    exact ⟨rfl, run⟩
  · rintro ⟨rfl, run⟩
    exact ⟨out, t, run, runs_pure_self _ _⟩

/-- A stream and a format, and the list of the two; the second list is that of their values. -/
def formatForms (fmt : CStr) : State :=
  { cells := staticCells ++ [.mkCtx (.new 8 .null), { type := .cptr }, .mkStr fmt,
      .mkCons (.ref 8) (.ref 11), .mkCons (.ref 9) .null] }

def formatValues (fmt : CStr) : State :=
  { cells := (formatForms fmt).cells ++ [.mkCons (.ref 8) (.ref 13), .mkCons (.ref 9) .null] }

theorem format_called (W : World) (fmt : CStr) :
    Called W (formatForms fmt) (formatValues fmt) (.ref 7) (.ref 10) (.ref 8) (.ref 9) fmt [] where
  values := ⟨.ref 12, ⟨8, rfl⟩, 12, _, rfl, rfl, rfl, rfl, 13, _, rfl, rfl, rfl, rfl, rfl⟩
  stream := rfl
  format := ⟨_, rfl, rfl, rfl⟩
  arguments := fun _ => nofun
  room := by decide

/-- A format is written as documented for all arguments, whatever the flag is at the start,
exactly if it has no directive but `%%`, and no letter that can be taken for one. -/
theorem fprintf_expands_iff (W : World) (fmt : CStr) :
    (∀ s m ctx params fd f xs args, Called W s m ctx params fd f fmt xs →
      List.Forall₂ (Shows W m) xs args →
      ∀ flag, (runtime W).Runs (blFprintf flag ctx params) s (nullVal, expansion fmt args) m) ↔
    Plain fmt := by
  constructor
  · intro expands
    have called := format_called W fmt
    obtain ⟨vars, none_, runs⟩ := fprintf_runs called
    obtain rfl : vars = .null := none_
    have each (flag : Bool) : (runtime W).Runs (fprintfLoop fmt flag .null) (formatValues fmt)
        (expansion fmt []) (formatValues fmt) :=
      ((runs flag _ _ _).1 (expands _ _ _ _ _ _ [] [] called .nil flag)).2
    exact plain_of_runs fmt.length (Nat.le_refl _) each
  · intro plain s m ctx params fd f xs args called _ flag
    obtain ⟨vars, _, runs⟩ := fprintf_runs called
    exact (runs flag _ _ _).2 ⟨rfl, plain_expands plain flag args⟩

/-- An unknown directive is not dropped, and its percent sign only if the flag is clear. -/
theorem unknown_directive_written : ∃ s m ctx params fd f,
    Called World.bare s m ctx params fd f (text "%d") [] ∧
      (runtime World.bare).Runs (blFprintf false ctx params) s (nullVal, text "d") m ∧
      (runtime World.bare).Runs (blFprintf true ctx params) s (nullVal, text "%d") m ∧
      expansion (text "%d") [] = [] :=
  ⟨_, _, _, _, _, _, format_called World.bare (text "%d"), ⟨12, rfl⟩, ⟨12, rfl⟩, rfl⟩

end Calls

end BearLang.FormattedOutput
