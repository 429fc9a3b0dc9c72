import BearLang.HashTableRuns
import BearLang.MachineRefinement
import BearLang.Runtime

/-!
# Symbols through the hash table

A search of the table gives an entry with the name, if there is one. So the
runtime whose `bl_mk_symbol` goes through the table does, operation by
operation, what the runtime with a list of symbols does.
-/

namespace BearLang.HashTable

open LinkedChains CallPrograms

set_option autoImplicit false

section Searching

variable {entries : List Entry} {start : Option Nat} {l : List Nat} {bound : Nat}
  {keyptr name : CStr} {keylen hashval : UInt32} {s : Symbols}

/-- What `HASH_FIND_IN_BKT` compares. -/
def Entry.matches (e : Entry) (keyptr : CStr) (keylen hashval : UInt32) : Bool :=
  decide (e.hh.hashv = hashval ∧ e.hh.keylen = keylen ∧
    e.key.take keylen.toNat = keyptr.take keylen.toNat)

theorem find_in_chain (forward : Forward (bucketLinks entries) start l) (enough : l.length ≤ bound) :
    findInBkt entries keyptr keylen hashval bound start =
      .ok (l.find? fun a => (entries[a]?).any (·.matches keyptr keylen hashval)) := by
  induction l generalizing start bound with
  | nil =>
      have ended : start = none := forward
      rw [ended]
      cases bound <;> rfl
  | cons a l ih =>
      obtain ⟨starts, x, known, rest⟩ := forward
      obtain ⟨e, found, same⟩ := Option.map_eq_some_iff.1 known
      have next : e.hh.hhNext = x.next := congrArg Links.next same
      cases bound with
      | zero => exact absurd enough (Nat.not_succ_le_zero _)
      | succ bound =>
          have later := ih rest (Nat.le_of_succ_le_succ enough)
          rw [starts, findInBkt, List.find?_cons, found]
          simp only [deref, bind, Except.bind, Option.any_some]
          unfold Entry.matches
          by_cases here : e.hh.hashv = hashval ∧ e.hh.keylen = keylen ∧
              e.key.take keylen.toNat = keyptr.take keylen.toNat
          · rw [if_pos here, decide_eq_true here]
          · rw [if_neg here, decide_eq_false here, next]
            exact later

theorem key_length (short : name.length < 2 ^ 32) : (keyLength name).toNat = name.length :=
  Nat.mod_eq_of_lt short

/-- With the hash values that were stored, that is a comparison of the keys. -/
theorem matches_iff {e : Entry} (hashed : IsHashed e) (short : e.key.length < 2 ^ 32)
    (short' : name.length < 2 ^ 32) :
    e.matches name (keyLength name) (hashOat name (keyLength name)) = true ↔ e.key = name := by
  unfold Entry.matches
  rw [decide_eq_true_iff, hashed.1, hashed.2]
  constructor
  · intro agrees
    have lengths := congrArg UInt32.toNat agrees.2.1
    have bytes := agrees.2.2
    rw [key_length short, key_length short'] at lengths
    rw [key_length short'] at bytes
    rwa [← lengths, List.take_length, lengths, List.take_length] at bytes
  · intro same
    rw [same]
    exact ⟨rfl, rfl, rfl⟩

/-- Every name in the table is found, and nothing else. -/
theorem find_str_spec (sound : Sound s) (keys : ∀ e ∈ s.entries, e.key.length < 2 ^ 32)
    (short : name.length < 2 ^ 32) :
    ∃ found, hashFindStr s name = .ok found ∧
      (found = none → ∀ e ∈ s.entries, e.key ≠ name) ∧
      ∀ a, found = some a → ∃ e, s.entries[a]? = some e ∧ e.key = name := by
  rcases sound with ⟨none_, empty⟩ | ⟨tbl, k, chains, ordered⟩
  · refine ⟨none, ?_, ?_, ?_⟩
    · unfold hashFindStr hashFindByhashvalue
      rw [none_]
    · intro _ e mem
      rw [empty] at mem
      exact absurd mem List.not_mem_nil
    · intro a found
      cases found
  · let hashv := hashOat name (keyLength name)
    have some_ : tbl.numBuckets ≠ 0 := by
      intro zero
      have power := ordered.sized.power
      rw [zero] at power
      have positive : 0 < 2 ^ k := Nat.two_pow_pos k
      rw [← power] at positive
      exact absurd positive (by decide)
    have inside : (hashToBkt hashv tbl.numBuckets).toNat < tbl.buckets.length := by
      rw [ordered.sized.buckets]
      exact bucket_inside some_ hashv
    have bucket := List.getElem?_eq_getElem inside
    generalize tbl.buckets[(hashToBkt hashv tbl.numBuckets).toNat] = bkt at bucket
    have inside' : (hashToBkt hashv tbl.numBuckets).toNat < chains.length := by
      rw [ordered.filed.length]
      exact inside
    have chain := List.getElem?_eq_getElem inside'
    generalize chains[(hashToBkt hashv tbl.numBuckets).toNat] = l at chain
    have all := ordered.filed.all
    rw [List.append_nil] at all
    have enough : l.length ≤ s.entries.length := by
      have total := all.length_eq
      rw [List.length_range] at total
      rw [← total]
      exact (List.sublist_flatten_of_mem (List.mem_of_getElem? chain)).length_le
    have linked := (ordered.filed.chain _ _ _ bucket chain).1
    have search := @find_in_chain _ _ _ _ name (keyLength name) hashv (forward_of_chain linked)
      enough
    have code : hashFindStr s name
        = .ok (l.find? fun a => (s.entries[a]?).any (·.matches name (keyLength name) hashv)) := by
      unfold hashFindStr hashFindByhashvalue
      simp only [ordered.head, ordered.table, deref, bind, Except.bind]
      rw [show tbl.buckets[(hashToBkt (hashOat name (keyLength name)) tbl.numBuckets).toNat]?
        = some bkt from bucket]
      exact search
    refine ⟨_, code, ?_, ?_⟩
    · intro missed e mem same
      obtain ⟨a, found⟩ := List.mem_iff_getElem?.1 mem
      have there : a ∈ chains.flatten := by
        rw [all.mem_iff, List.mem_range]
        exact (List.getElem?_eq_some_iff.1 found).1
      obtain ⟨l', chain', here⟩ := List.mem_flatten.1 there
      obtain ⟨i, chain'⟩ := List.mem_iff_getElem?.1 chain'
      obtain ⟨e', found', place⟩ := ordered.filed.placed i l' a chain' here
      rw [found] at found'
      cases found'
      have hash : e.hh.hashv = hashv := by
        rw [(ordered.hashed e mem).2, same]
      rw [hash] at place
      rw [← place, chain] at chain'
      cases chain'
      have none_ := List.find?_eq_none.1 missed a here
      rw [found, Option.any_some] at none_
      exact none_ ((matches_iff (ordered.hashed e mem) (keys e mem) short).2 same)
    · intro a found
      have agrees := List.find?_some found
      cases entry : s.entries[a]? with
      | none =>
          rw [entry] at agrees
          cases agrees
      | some e =>
          rw [entry, Option.any_some] at agrees
          have mem := List.mem_of_getElem? entry
          exact ⟨e, rfl, (matches_iff (ordered.hashed e mem) (keys e mem) short).1 agrees⟩

/-- Whatever keys were added, a search gives an entry with the key asked for,
and says that there is none only where none was added. -/
theorem added_keys_found (room : Nat → Bool) (bounded : Bounded room) (keys : List (CStr × Nat))
    (few : keys.length < 2 ^ 32) (short : ∀ pair ∈ keys, pair.1.length < 2 ^ 32) :
    hashAddAll room {} keys = .error .outOfMemory ∨
    ∃ s, hashAddAll room {} keys = .ok s ∧ ∀ name : CStr, name.length < 2 ^ 32 →
      ∃ found, hashFindStr s name = .ok found ∧
        (found = none ↔ ∀ pair ∈ keys, pair.1 ≠ name) ∧
        ∀ a, found = some a → ∃ e, s.entries[a]? = some e ∧ e.key = name ∧ (name, e.sym) ∈ keys := by
  have fewer : ([] : List Entry).length + keys.length < 2 ^ 32 := by
    rw [List.length_nil, Nat.zero_add]
    exact few
  rcases add_all_sound bounded sound_empty keys fewer with refused | ⟨s, run, sound, all⟩
  · exact .inl refused
  · have keys_ : added s = keys := all
    have member : ∀ e ∈ s.entries, (e.key, e.sym) ∈ keys := by
      intro e mem
      rw [← keys_]
      exact List.mem_map_of_mem mem
    apply Or.inr
    refine ⟨s, run, ?_⟩
    intro name short'
    obtain ⟨found, search, missed, hit⟩ :=
      find_str_spec sound (fun e mem => short _ (member e mem)) short'
    refine ⟨found, search, ⟨?_, ?_⟩, ?_⟩
    · intro none_ pair mem same
      rw [← keys_] at mem
      obtain ⟨e, there, rfl⟩ := List.mem_map.1 mem
      exact missed none_ e there same
    · intro absent
      cases found with
      | none => rfl
      | some a =>
          obtain ⟨e, entry, key⟩ := hit a rfl
          exact absurd key (absent _ (member e (List.mem_of_getElem? entry)))
    · intro a isFound
      obtain ⟨e, entry, key⟩ := hit a isFound
      have mem := member e (List.mem_of_getElem? entry)
      rw [key] at mem
      exact ⟨e, entry, key, mem⟩

theorem added_keys_found_two :
    hashAddAll roomy {} [(text "x", 7), (text "x", 9)] = .error .outOfMemory ∨
    ∃ s, hashAddAll roomy {} [(text "x", 7), (text "x", 9)] = .ok s ∧
      ∀ name : CStr, name.length < 2 ^ 32 →
        ∃ found, hashFindStr s name = .ok found ∧
          (found = none ↔ ∀ pair ∈ [(text "x", 7), (text "x", 9)], pair.1 ≠ name) ∧
          ∀ a, found = some a → ∃ e, s.entries[a]? = some e ∧ e.key = name ∧
            (name, e.sym) ∈ [(text "x", 7), (text "x", 9)] :=
  added_keys_found roomy bounded_roomy [(text "x", 7), (text "x", 9)] (by decide) (by decide)

end Searching

section Interning

/-- `bl_mk_symbol`, with the table it looks the name up in. -/
def blMkSymbol (room : Nat → Bool) (sym : CStr) (symbols : Symbols) (s : State) :
    Outcome (Ptr × Symbols × State) := do
  match ← hashFindStr symbols sym with
  | some a => do
      let symobj ← deref symbols.entries[a]?
      .ok (.ref symobj.sym, symbols, s)
  | none => do
      let made := s.allocated { type := .symbol, w0 := .str sym, w1 := .ofNat s.lastSymId }
      let symbols ← hashAddStr room symbols (sym.take symKeySize) s.fresh
      .ok (.ref s.fresh, symbols, { made with lastSymId := s.lastSymId + 1 })

/-- The operations of the runtime over the table; the list of symbols in the
state is not looked at. -/
def hashedStep (room : Nat → Bool) :
    (op : Op) → Symbols × State → Option (op.Answer × (Symbols × State))
  | .mkSymbol sym, pair =>
      match blMkSymbol room sym pair.1 pair.2 with
      | .ok (answer, symbols, s) => some (answer, (symbols, s))
      | .error _ => none
  | op, pair => (step op pair.2).map fun result => (result.1, (pair.1, result.2))

def hashedRuntime (W : World) (room : Nat → Bool) : Machine bearLang (Symbols × State) where
  step := hashedStep room
  body := body W

/-- The list that the entries stand for, the newest first. -/
def listed (symbols : Symbols) : List SymHash :=
  (symbols.entries.map fun e => SymHash.mk e.key e.sym).reverse

/-- The state with a list in the place of the table. -/
def stands (pair : Symbols × State) : State := { pair.2 with symbolTable := listed pair.1 }

variable {room : Nat → Bool} {symbols : Symbols} {s t : State} {name : CStr}

/-- The table is in order, with keys that fit into an entry. -/
structure Stored (symbols : Symbols) : Prop where
  sound : Sound symbols
  short : ∀ e ∈ symbols.entries, e.key.length ≤ symKeySize

/-- A name that the table can take: its length and the number of entries are each an
`unsigned`, and it is not the key of two entries. A longer name is entered under its first 31
bytes whenever it is interned, so only a name of 31 bytes can be. -/
def Accepted (op : Op) (s : State) : Prop :=
  ∀ name, op = .mkSymbol name → name.length < 2 ^ 32 ∧ s.symbolTable.length + 1 < 2 ^ 32 ∧
    ∀ entry ∈ s.symbolTable, ∀ other ∈ s.symbolTable, entry.key = name → other.key = name →
      entry = other

/-- The memory for a new entry or for the buckets is refused. -/
def Refused (room : Nat → Bool) (op : Op) (pair : Symbols × State) : Prop :=
  ∃ name, op = .mkSymbol name ∧ blMkSymbol room name pair.1 pair.2 = .error .outOfMemory

theorem listed_length (symbols : Symbols) : (listed symbols).length = symbols.entries.length := by
  rw [listed, List.length_reverse, List.length_map]

theorem mem_listed {entry : SymHash} :
    entry ∈ listed symbols ↔ ∃ e ∈ symbols.entries, SymHash.mk e.key e.sym = entry := by
  rw [listed, List.mem_reverse, List.mem_map]

theorem listed_added (symbols : Symbols) :
    listed symbols = ((added symbols).map fun pair => SymHash.mk pair.1 pair.2).reverse := by
  unfold listed added
  rw [List.map_map]
  rfl

/-- The entry with a key is the one that the list has for it, if there is no other one. -/
theorem find_listed {e : Entry} (mem : e ∈ symbols.entries)
    (one : ∀ entry ∈ listed symbols, ∀ other ∈ listed symbols, entry.key = e.key →
      other.key = e.key → entry = other) :
    (listed symbols).find? (·.key == e.key) = some ⟨e.key, e.sym⟩ := by
  have there : ⟨e.key, e.sym⟩ ∈ listed symbols := mem_listed.2 ⟨e, mem, rfl⟩
  cases found : (listed symbols).find? (·.key == e.key) with
  | none => exact absurd (beq_self_eq_true e.key) (List.find?_eq_none.1 found _ there)
  | some entry =>
      have agrees := List.find?_some found
      have same : entry.key = e.key := eq_of_beq agrees
      rw [one entry (List.mem_of_find?_eq_some found) _ there same rfl]

/-- `bl_mk_symbol` over the table and over the list give the same symbol. -/
theorem mk_symbol_stands (bounded : Bounded room) (stored : Stored symbols)
    (accepted : Accepted (.mkSymbol name) (stands (symbols, s))) :
    blMkSymbol room name symbols s = .error .outOfMemory ∨
    ∃ answer symbols' s', blMkSymbol room name symbols s = .ok (answer, symbols', s') ∧
      BearLang.blMkSymbol name (stands (symbols, s)) = (answer, stands (symbols', s')) ∧
      Stored symbols' := by
  obtain ⟨short, few, alone⟩ := accepted name rfl
  rw [show (stands (symbols, s)).symbolTable = listed symbols from rfl, listed_length] at few
  have keys : ∀ e ∈ symbols.entries, e.key.length < 2 ^ 32 := by
    intro e mem
    exact Nat.lt_of_le_of_lt (stored.short e mem) (by decide)
  obtain ⟨found, search, missed, hit⟩ := find_str_spec stored.sound keys short
  cases found with
  | some a =>
      obtain ⟨e, entry, key⟩ := hit a rfl
      apply Or.inr
      refine ⟨.ref e.sym, symbols, s, ?_, ?_, stored⟩
      · unfold blMkSymbol
        simp only [search, bind, Except.bind, entry, deref]
      · have held := find_listed (List.mem_of_getElem? entry) (by rw [key]; exact alone)
        rw [key] at held
        unfold BearLang.blMkSymbol
        rw [show (stands (symbols, s)).symbolTable = listed symbols from rfl, held]
  | none =>
      have absent := missed rfl
      have unlisted : (listed symbols).find? (·.key == name) = none := by
        rw [List.find?_eq_none]
        intro entry mem same
        obtain ⟨e, there, rfl⟩ := mem_listed.1 mem
        exact absent e there (eq_of_beq same)
      rcases add_sound bounded stored.sound few (name.take symKeySize) s.fresh with
        refused | ⟨symbols', run, sound', added'⟩
      · apply Or.inl
        unfold blMkSymbol
        simp only [search, bind, Except.bind, refused]
      · apply Or.inr
        have entries : symbols'.entries.map Entry.key
            = symbols.entries.map Entry.key ++ [name.take symKeySize] := by
          have firsts := congrArg (List.map Prod.fst) added'
          unfold added at firsts
          rw [List.map_append, List.map_map, List.map_map] at firsts
          exact firsts
        let made := s.allocated { type := .symbol, w0 := .str name, w1 := .ofNat s.lastSymId }
        refine ⟨.ref s.fresh, symbols', { made with lastSymId := s.lastSymId + 1 }, ?_, ?_, sound', ?_⟩
        · unfold blMkSymbol
          simp only [search, bind, Except.bind, run]
          rfl
        · have list : listed symbols' = ⟨name.take symKeySize, s.fresh⟩ :: listed symbols := by
            rw [listed_added, listed_added, added', List.map_append, List.reverse_append]
            rfl
          unfold BearLang.blMkSymbol stands
          rw [show ({ s with symbolTable := listed symbols } : State).symbolTable = listed symbols
            from rfl, unlisted, list]
          rfl
        · intro e mem
          have key : e.key ∈ symbols'.entries.map Entry.key := List.mem_map_of_mem mem
          rw [entries, List.mem_append, List.mem_singleton] at key
          rcases key with old | new
          · obtain ⟨e', mem', same⟩ := List.mem_map.1 old
            rw [← same]
            exact stored.short e' mem'
          · rw [new]
            exact List.length_take_le _ _

theorem modify_stands (p : Ptr) (f : Cell → Option Cell) (list : List SymHash) :
    ({ s with symbolTable := list } : State).modify p f =
      (s.modify p f).map fun result => (result.1, { result.2 with symbolTable := list }) := by
  cases p with
  | ref address =>
      cases known : s.cells[address]? with
      | none => simp only [State.modify, known, Option.map_none]
      | some c =>
          simp only [State.modify, known, Option.map_map]
          rfl
  | _ => rfl

/-- No other operation looks at the symbols. -/
theorem step_stands {op : Op} (other : ∀ name, op ≠ .mkSymbol name) (list : List SymHash) :
    step op { s with symbolTable := list } =
      (step op s).map fun result => (result.1, { result.2 with symbolTable := list }) := by
  cases op with
  | mkSymbol name => exact absurd rfl (other name)
  | load p =>
      simp only [step, Option.map_map]
      rfl
  | ctxVal ctx id =>
      simp only [step, Option.map_map]
      rfl
  | ctxKey ctx id =>
      simp only [step, Option.map_map]
      rfl
  | alloc c => rfl
  | write out => rfl
  | enterFunc func => rfl
  | enterOper oper => rfl
  | startBody func => rfl
  | leave => rfl
  | trap => rfl
  | _ => exact modify_stands _ _ list

variable {W : World}

theorem hashed_refines (bounded : Bounded room) :
    (hashedRuntime W room).Refines (runtime W) stands (fun pair => Stored pair.1) Accepted
      (Refused room) where
  bodies := rfl
  answered := by
    intro op pair after answer stored accepted stepped
    by_cases isSymbol : ∃ name, op = .mkSymbol name
    · obtain ⟨name, rfl⟩ := isSymbol
      rcases mk_symbol_stands bounded stored accepted with
        refused | ⟨p, symbols', s', run, same, stored'⟩
      · simp only [hashedRuntime, hashedStep, refused] at stepped
        cases stepped
      · simp only [hashedRuntime, hashedStep, run] at stepped
        cases stepped
        exact ⟨congrArg some same, stored'⟩
    · have other : ∀ name, op ≠ .mkSymbol name := fun name same => isSymbol ⟨name, same⟩
      have code : (step op pair.2).map (fun result => (result.1, (pair.1, result.2)))
          = some (answer, after) := by
        rw [← stepped]
        cases op with
        | mkSymbol name => exact absurd rfl (other name)
        | _ => rfl
      obtain ⟨result, ran, same⟩ := Option.map_eq_some_iff.1 code
      cases same
      refine ⟨?_, stored⟩
      have shown := step_stands other (listed pair.1) (s := pair.2)
      rw [ran] at shown
      exact shown
  faulted := by
    intro op pair stored accepted stepped
    by_cases isSymbol : ∃ name, op = .mkSymbol name
    · obtain ⟨name, rfl⟩ := isSymbol
      rcases mk_symbol_stands bounded stored accepted with
        refused | ⟨p, symbols', s', run, same, stored'⟩
      · exact .inr ⟨name, rfl, refused⟩
      · simp only [hashedRuntime, hashedStep, run] at stepped
        cases stepped
    · have other : ∀ name, op ≠ .mkSymbol name := fun name same => isSymbol ⟨name, same⟩
      have code : (step op pair.2).map (fun result => (result.1, (pair.1, result.2))) = none := by
        rw [← stepped]
        cases op with
        | mkSymbol name => exact absurd rfl (other name)
        | _ => rfl
      apply Or.inl
      have shown := step_stands other (listed pair.1) (s := pair.2)
      rw [Option.map_eq_none_iff.1 code] at shown
      exact shown

theorem stored_empty : Stored {} := by
  constructor
  · exact sound_empty
  · intro e mem
    cases mem

/-- A run over the hash table goes through the same points as the run over the
list of symbols, up to the point where the memory for the table is refused. -/
theorem hash_table_refines_list {α : Type} (W : World) (room : Nat → Bool) (bounded : Bounded room)
    (p : Prog α) (s : State)
    (accepted : ∀ op t, (runtime W).Performs p (stands ({}, s)) op t → Accepted op t) :
    (∀ q pair, (hashedRuntime W room).Reaches p ({}, s) q pair →
      (runtime W).Reaches p (stands ({}, s)) q (stands pair) ∧ hashFsck pair.1 = true) ∧
    ∀ q t, (runtime W).Reaches p (stands ({}, s)) q t →
      (∃ pair, (hashedRuntime W room).Reaches p ({}, s) q pair ∧ stands pair = t) ∨
      ∃ op next pair, (hashedRuntime W room).Reaches p ({}, s) (.perform op next) pair ∧
        Refused room op pair := by
  constructor
  · intro q pair reached
    obtain ⟨reached', stored⟩ := reaches_refined (hashed_refines bounded) reached stored_empty accepted
    exact ⟨reached', sound_checked stored.sound⟩
  · intro q t reached
    exact reaches_matched (hashed_refines bounded) reached rfl stored_empty accepted

def longNameTwice : Prog Ptr := do
  let _ ← mkSymbol (List.replicate 32 (chr 'x'))
  mkSymbol (List.replicate 32 (chr 'x'))

theorem performs_long_name {op : Op} (performed : (runtime W).Performs longNameTwice s op t) :
    op = .mkSymbol (List.replicate 32 (chr 'x')) ∧
      (t = s ∨ t = (BearLang.blMkSymbol (List.replicate 32 (chr 'x')) s).2) := by
  rcases performed with ⟨next, reached⟩
  cases reached with
  | refl => exact ⟨rfl, .inl rfl⟩
  | perform stepped later =>
      have after := congrArg Prod.snd (Option.some.inj stepped)
      cases later with
      | refl => exact ⟨rfl, .inr after.symm⟩
      | perform _ later => cases later

/-- Both times it is entered under its first 31 bytes. -/
theorem hash_table_refines_list_long_name :
    (∀ q pair, (hashedRuntime World.bare roomy).Reaches longNameTwice ({}, State.initial) q pair →
      (runtime World.bare).Reaches longNameTwice (stands ({}, State.initial)) q (stands pair) ∧
        hashFsck pair.1 = true) ∧
    ∀ q t, (runtime World.bare).Reaches longNameTwice (stands ({}, State.initial)) q t →
      (∃ pair, (hashedRuntime World.bare roomy).Reaches longNameTwice ({}, State.initial) q pair ∧
        stands pair = t) ∨
      ∃ op next pair, (hashedRuntime World.bare roomy).Reaches longNameTwice ({}, State.initial)
        (.perform op next) pair ∧ Refused roomy op pair := by
  apply hash_table_refines_list World.bare roomy bounded_roomy longNameTwice State.initial
  intro op t performed name same
  rcases performs_long_name performed with ⟨rfl, rfl | rfl⟩
  · cases same
    exact ⟨by decide, by decide, fun entry mem => absurd mem List.not_mem_nil⟩
  · cases same
    exact ⟨by decide, by decide, by decide⟩

end Interning

end BearLang.HashTable
