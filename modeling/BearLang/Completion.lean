import BearLang.VariableLookup

/-!
# Completion in the REPL

`hint_hook` and `completion_hook` of `bli`, as the reads they make of the tables of a
context and its parent and the texts they hand to the line editor.
-/

namespace BearLang.Completion

set_option autoImplicit false

section Source

inductive Access where
  | val (ctx : Ptr) (i : Nat)
  | key (ctx : Ptr) (i : Nat)
  /-- a text that starts at an offset of the string -/
  | text (s : CStr) (offset : Nat)
deriving DecidableEq, Repr

/-- What memory holds where no table and no string is. -/
structure Stray where
  /-- the words behind `vals` and `keys` of a context -/
  beyond : Ptr → Ptr × Ptr
  /-- the characters that `p->s_val` leads to -/
  chars : Ptr → CStr

variable (M : Stray) (s : State)

def sValOf (p : Ptr) : CStr := ((s.cell p).bind Cell.sVal).getD (M.chars p)

def valAt (ctx : Ptr) (t : Ctx) (i : Nat) : Ptr := t.vals.getD i (M.beyond ctx).1

def nameAt (ctx : Ptr) (t : Ctx) (i : Nat) : CStr := sValOf M s (t.keys.getD i (M.beyond ctx).2)

/-- A loop over a table, for so many more indices from `i` on. The comparison by `strncmp`
of as many characters as were typed asks for a name that begins with them. -/
def scan (word : CStr) (found : Ptr → CStr → Access) (ctx : Ptr) (t : Ctx) : Nat → Nat → List Access
  | 0, _ => []
  | n + 1, i =>
      .val ctx i ::
        if valAt M ctx t i = .null then scan word found ctx t n (i + 1)
        else .key ctx i ::
          if word.isPrefixOf (nameAt M s ctx t i) then
            found (valAt M ctx t i) (nameAt M s ctx t i) :: scan word found ctx t n (i + 1)
          else scan word found ctx t n (i + 1)

/-- `for(i=0; i <= ctx->vals_count; i++)` -/
def scanTable (word : CStr) (found : Ptr → CStr → Access) (ctx : Ptr) : List Access :=
  match ctxAt s ctx with
  | some t => scan M s word found ctx t (t.valsCount + 1) 0
  | none => []

def parentOf (ctx : Ptr) : Ptr := ((ctxAt s ctx).map (·.parent)).getD .null

def docstrOf (val : Ptr) : Ptr := ((s.cell val).map (·.docstr)).getD .null

def completionHook (typed : CStr) (bp : Nat) (ctx : Ptr) : List Access :=
  scanTable M s (typed.drop bp) (fun _ name => .text name 0) ctx ++
    if parentOf s ctx ≠ .null then
      scanTable M s (typed.drop bp) (fun _ name => .text name 0) (parentOf s ctx)
    else []

def hintHook (typed : CStr) (bp : Nat) (ctx : Ptr) : List Access :=
  let len := typed.length
  if bp < len then
    scanTable M s (typed.drop bp) (fun _ name => .text name (len - bp)) ctx ++
      if parentOf s ctx ≠ .null then
        scanTable M s (typed.drop bp) (fun val name =>
          if docstrOf s val ≠ .null then .text (sValOf M s (docstrOf s val)) len
          else .text name (len - bp)) (parentOf s ctx)
      else []
  else []

end Source

section Inside

/-- The read is of a slot of the table, and the text starts in the string or at its end. -/
def Access.Inside (s : State) : Access → Prop
  | .val ctx i => ∃ t, ctxAt s ctx = some t ∧ i < t.valsCount
  | .key ctx i => ∃ t, ctxAt s ctx = some t ∧ i < t.valsCount
  | .text str offset => offset ≤ str.length

def StaysInside (M : Stray) (s : State) (typed : CStr) (bp : Nat) (ctx : Ptr) : Prop :=
  (∀ access ∈ completionHook M s typed bp ctx, access.Inside s) ∧
    ∀ access ∈ hintHook M s typed bp ctx, access.Inside s

variable {M : Stray} {s : State} {word typed : CStr} {found : Ptr → CStr → Access} {ctx : Ptr}
  {t : Ctx} {n i k bp : Nat}

theorem scan_reads (from_ : i ≤ k) (below : k < i + n) :
    .val ctx k ∈ scan M s word found ctx t n i := by
  induction n generalizing i with
  | zero => omega
  | succ n ih =>
      rw [scan]
      by_cases here : k = i
      · rw [here]
        exact List.mem_cons_self
      · have later := ih (i := i + 1) (by omega) (by omega)
        refine List.mem_cons_of_mem _ ?_
        split
        · exact later
        · refine List.mem_cons_of_mem _ ?_
          split
          · exact List.mem_cons_of_mem _ later
          · exact later

/-- The texts that a loop hands over are those it finds for the names that begin with the
word. -/
theorem text_of_scan {str : CStr} {offset : Nat} :
    .text str offset ∈ scan M s word found ctx t n i ↔
      ∃ k, i ≤ k ∧ k < i + n ∧ valAt M ctx t k ≠ .null ∧
        word.isPrefixOf (nameAt M s ctx t k) = true ∧
        found (valAt M ctx t k) (nameAt M s ctx t k) = .text str offset := by
  induction n generalizing i with
  | zero =>
      constructor
      · exact nofun
      · rintro ⟨k, from_, below, _⟩
        omega
  | succ n ih =>
      have later : .text str offset ∈ scan M s word found ctx t n (i + 1) ↔
          ∃ k, i ≤ k ∧ k < i + (n + 1) ∧ k ≠ i ∧ valAt M ctx t k ≠ .null ∧
            word.isPrefixOf (nameAt M s ctx t k) = true ∧
            found (valAt M ctx t k) (nameAt M s ctx t k) = .text str offset := by
        rw [ih]
        constructor
        · rintro ⟨k, from_, below, rest⟩
          exact ⟨k, by omega, by omega, by omega, rest⟩
        · rintro ⟨k, from_, below, other, rest⟩
          exact ⟨k, by omega, by omega, rest⟩
      have shape : .text str offset ∈ scan M s word found ctx t (n + 1) i ↔
          (valAt M ctx t i ≠ .null ∧ word.isPrefixOf (nameAt M s ctx t i) = true ∧
            found (valAt M ctx t i) (nameAt M s ctx t i) = .text str offset) ∨
          .text str offset ∈ scan M s word found ctx t n (i + 1) := by
        rw [scan]
        by_cases unbound : valAt M ctx t i = .null
        · simp [unbound]
        · by_cases begins : word.isPrefixOf (nameAt M s ctx t i) = true
          · simp only [unbound, begins, if_true, if_false, List.mem_cons, reduceCtorEq, false_or,
              ne_eq, not_false_eq_true, true_and]
            rw [eq_comm]
          · simp [unbound, begins]
      rw [shape, later]
      constructor
      · rintro (⟨bound, begins, finds⟩ | ⟨k, from_, below, _, rest⟩)
        · exact ⟨i, Nat.le_refl i, by omega, bound, begins, finds⟩
        · exact ⟨k, from_, below, rest⟩
      · rintro ⟨k, from_, below, rest⟩
        by_cases here : k = i
        · subst here
          exact .inl rest
        · exact .inr ⟨k, from_, below, here, rest⟩

/-- The word behind the last slot of the context's own table is read. -/
theorem completion_reads_beyond (table : ctxAt s ctx = some t) :
    .val ctx t.valsCount ∈ completionHook M s typed bp ctx := by
  rw [completionHook, scanTable, table]
  exact List.mem_append_left _ (scan_reads (Nat.zero_le _) (by omega))

theorem hooks_never_inside (table : ctxAt s ctx = some t) : ¬ StaysInside M s typed bp ctx := by
  rintro ⟨inside, _⟩
  obtain ⟨u, same, below⟩ := inside _ (completion_reads_beyond table)
  rw [table] at same
  cases same
  exact Nat.lt_irrefl _ below

/-- `hint_hook` reads slots only if nothing of the word is typed yet, as it does nothing
then. -/
theorem hint_reads_inside_iff (table : ctxAt s ctx = some t) :
    (∀ c i, .val c i ∈ hintHook M s typed bp ctx → (Access.val c i).Inside s) ↔
      typed.length ≤ bp := by
  constructor
  · intro inside
    by_contra more
    have beyond : .val ctx t.valsCount ∈ hintHook M s typed bp ctx := by
      rw [hintHook, if_pos (Nat.not_le.1 more), scanTable, table]
      exact List.mem_append_left _ (scan_reads (Nat.zero_le _) (by omega))
    obtain ⟨u, same, below⟩ := inside _ _ beyond
    rw [table] at same
    cases same
    exact Nat.lt_irrefl _ below
  · intro nothing c i mem
    rw [hintHook, if_neg (Nat.not_lt.2 nothing)] at mem
    cases mem

/-- The hints of names start inside them; those of docstrings do exactly if no docstring is
shorter than what was typed. -/
theorem hint_texts_inside_iff {u : Ctx} (table : ctxAt s ctx = some t)
    (parent : ctxAt s t.parent = some u) (word : bp < typed.length) :
    (∀ str offset, .text str offset ∈ hintHook M s typed bp ctx → offset ≤ str.length) ↔
      ∀ k, k ≤ u.valsCount → valAt M t.parent u k ≠ .null →
        (typed.drop bp).isPrefixOf (nameAt M s t.parent u k) = true →
        docstrOf s (valAt M t.parent u k) ≠ .null →
        typed.length ≤ (sValOf M s (docstrOf s (valAt M t.parent u k))).length := by
  have above : parentOf s ctx = t.parent := by rw [parentOf, table, Option.map_some, Option.getD_some]
  have there : t.parent ≠ .null := by
    rintro none_
    rw [none_] at parent
    cases parent
  have begun {name : CStr} (begins : (typed.drop bp).isPrefixOf name = true) :
      typed.length - bp ≤ name.length := by
    rw [← List.length_drop]
    exact (List.isPrefixOf_iff_prefix.1 begins).length_le
  have hints (str : CStr) (offset : Nat) : .text str offset ∈ hintHook M s typed bp ctx ↔
      (∃ k, k ≤ t.valsCount ∧ valAt M ctx t k ≠ .null ∧
        (typed.drop bp).isPrefixOf (nameAt M s ctx t k) = true ∧
        Access.text (nameAt M s ctx t k) (typed.length - bp) = .text str offset) ∨
      ∃ k, k ≤ u.valsCount ∧ valAt M t.parent u k ≠ .null ∧
        (typed.drop bp).isPrefixOf (nameAt M s t.parent u k) = true ∧
        (if docstrOf s (valAt M t.parent u k) ≠ .null then
          Access.text (sValOf M s (docstrOf s (valAt M t.parent u k))) typed.length
        else .text (nameAt M s t.parent u k) (typed.length - bp)) = .text str offset := by
    rw [hintHook, if_pos word, above, if_pos there, List.mem_append, scanTable, scanTable, table,
      parent, text_of_scan, text_of_scan]
    simp only [Nat.zero_le, true_and, Nat.zero_add, Nat.lt_succ_iff]
  constructor
  · intro inside k below bound begins documented
    refine inside _ _ ((hints _ _).2 (.inr ⟨k, below, bound, begins, ?_⟩))
    rw [if_pos documented]
  · intro long str offset mem
    rcases (hints str offset).1 mem with ⟨k, below, bound, begins, same⟩ | ⟨k, below, bound, begins, same⟩
    · cases same
      exact begun begins
    · split at same
      · rename_i documented
        cases same
        exact long k below bound begins documented
      · cases same
        exact begun begins

/-- The contexts of the REPL before anything is bound, the standard library's and its own. -/
def replContexts : State :=
  { cells := staticCells ++ [.mkCtx (.new 8 .null), .mkCtx (.new 8 (.ref 7))] }

def noStray : Stray := ⟨fun _ => (.null, .null), fun _ => []⟩

theorem hooks_never_inside_empty : ¬ StaysInside noStray replContexts [] 0 (.ref 8) :=
  hooks_never_inside (t := .new 8 (.ref 7)) rfl

/-- With nothing typed, the slot behind the last one is read. -/
theorem completion_leaves_table : ∃ M s typed bp ctx, bp ≤ typed.length ∧
    ¬ StaysInside M s typed bp ctx := by
  refine ⟨noStray, replContexts, [], 0, .ref 8, Nat.le_refl 0, fun inside => ?_⟩
  obtain ⟨t, same, below⟩ := inside.1 (.val (.ref 8) 8) (by decide)
  cases same
  exact absurd below (by decide)

end Inside

end BearLang.Completion
