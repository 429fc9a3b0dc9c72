import BearLang.HashTableOrder

/-!
# Runs of the hash table

What an addition keeps, any number of additions keep: the check of a debug
build passes after each of them, and a search gives an entry with the key if
there is one.
-/

namespace BearLang.HashTable

open LinkedChains

set_option autoImplicit false

section Appending

variable {entries entries' : List Entry} {buckets : List UTHashBucket} {n : UInt32}
  {chains : List (List Nat)} {todo l : List Nat} {a last : Nat} {e : Entry}

theorem filed_same (contents : SameContents entries entries')
    (links : bucketLinks entries' = bucketLinks entries)
    (filed : Filed entries buckets n chains todo) : Filed entries' buckets n chains todo where
  length := filed.length
  chain i bkt l bucket chain := by
    rw [links]
    exact filed.chain i bkt l bucket chain
  placed i l a chain mem := by
    obtain ⟨e, found, place⟩ := filed.placed i l a chain mem
    obtain ⟨e', found', content⟩ := same_entry contents found
    refine ⟨e', found', ?_⟩
    rw [hash_of_content content]
    exact place
  all := by
    rw [same_length contents]
    exact filed.all

theorem entry_append (inside : a < entries.length) : (entries ++ [e])[a]? = entries[a]? :=
  List.getElem?_append_left inside

theorem filed_append (filed : Filed entries buckets n chains []) (e : Entry) :
    Filed (entries ++ [e]) buckets n chains [entries.length] where
  length := filed.length
  chain i bkt l bucket chain := by
    obtain ⟨linked, count⟩ := filed.chain i bkt l bucket chain
    refine ⟨?_, count⟩
    apply chain_congr _ linked
    intro a mem
    have inside := filed_inside filed (List.mem_append_left _ (mem_chains chain mem))
    unfold bucketLinks
    rw [entry_append inside]
  placed i l a chain mem := by
    have inside := filed_inside filed (List.mem_append_left _ (mem_chains chain mem))
    rw [entry_append inside]
    exact filed.placed i l a chain mem
  all := by
    have all := filed.all
    rw [List.append_nil] at all
    rw [List.length_append, List.length_singleton, List.range_succ]
    exact all.append_right _

/-- `HASH_APPEND_LIST` links the new handle behind the last one. -/
theorem append_list_links {tbl : UTHashTable} (found : entries[a]? = some e)
    (inside : tbl.tail < entries.length) (other : tbl.tail ≠ a) :
    ∃ after, hashAppendList entries tbl a = .ok (after, { tbl with tail := a }) ∧
      SameContents entries after ∧ bucketLinks after = bucketLinks entries ∧
      orderLinks after = link (orderLinks entries) tbl.tail a := by
  have first := set_handle_found found fun hh => { hh with prev := some tbl.tail, next := none }
  have contents := contents_set (f := fun hh => { hh with prev := some tbl.tail, next := none })
    found rfl rfl
  have there : (entries.set a { e with hh := { e.hh with prev := some tbl.tail, next := none } })[
      tbl.tail]? = some entries[tbl.tail] := by
    rw [List.getElem?_set, if_neg other.symm]
    exact List.getElem?_eq_getElem inside
  have second := set_handle_found there fun hh => { hh with next := some a }
  have contents' := contents_set (f := fun hh => { hh with next := some a }) there rfl rfl
  refine ⟨_, ?_, same_contents_trans contents contents', ?_, ?_⟩
  · unfold hashAppendList
    simp only [first, bind, Except.bind, second]
  · funext c
    have seen := links_set (f := fun hh => { hh with prev := some tbl.tail, next := none })
      (fun hh => ⟨hh.hhPrev, hh.hhNext⟩) found c
    have seen' := links_set (f := fun hh => { hh with next := some a })
      (fun hh => ⟨hh.hhPrev, hh.hhNext⟩) there c
    refine Eq.trans seen' ?_
    unfold bucketLinks
    rw [seen]
    by_cases isTail : c = tbl.tail
    · rw [if_pos isTail, isTail, List.getElem?_eq_getElem inside]
      rfl
    · rw [if_neg isTail]
      by_cases isNew : c = a
      · rw [if_pos isNew, isNew, found]
        rfl
      · rw [if_neg isNew]
  · funext c
    have seen := links_set (f := fun hh => { hh with prev := some tbl.tail, next := none })
      (fun hh => ⟨hh.prev, hh.next⟩) found c
    have seen' := links_set (f := fun hh => { hh with next := some a })
      (fun hh => ⟨hh.prev, hh.next⟩) there c
    refine Eq.trans seen' ?_
    rw [seen]
    unfold link
    by_cases isTail : c = tbl.tail
    · subst isTail
      have old : orderLinks entries tbl.tail
          = some ⟨entries[tbl.tail].hh.prev, entries[tbl.tail].hh.next⟩ := by
        unfold orderLinks
        rw [List.getElem?_eq_getElem inside]
        rfl
      rw [if_pos rfl, if_neg other, if_pos rfl, old]
      rfl
    · rw [if_neg isTail, if_neg isTail]
      rfl

end Appending

section Adding

variable {room : Nat → Bool} {entries : List Entry} {tbl : UTHashTable} {chains : List (List Nat)}
  {k a : Nat} {e : Entry}

/-- No array of buckets of 64 GiB is to be had, so `num_buckets` never wraps
around. -/
def Bounded (room : Nat → Bool) : Prop := room (2 ^ 36) = false

theorem add_to_table_filed (bounded : Bounded room) (sized : Sized tbl k) (small : k ≤ 31)
    (items : tbl.numItems + 1 ≠ 0) (found : entries[a]? = some e)
    (filed : Filed entries tbl.buckets tbl.numBuckets chains [a]) :
    hashAddToTable room entries tbl e.hh.hashv a = .error .outOfMemory ∨
    ∃ entries' tbl' k' chains', hashAddToTable room entries tbl e.hh.hashv a = .ok (entries', tbl') ∧
      SameContents entries entries' ∧ orderLinks entries' = orderLinks entries ∧
      Filed entries' tbl'.buckets tbl'.numBuckets chains' [] ∧ Sized tbl' k' ∧ k' ≤ 31 ∧
      tbl'.numItems = tbl.numItems + 1 ∧ tbl'.tail = tbl.tail := by
  have some_ : tbl.numBuckets ≠ 0 := by
    intro zero
    have power := sized.power
    rw [zero] at power
    have positive : 0 < 2 ^ k := Nat.two_pow_pos k
    rw [← power] at positive
    exact absurd positive (by decide)
  have inside : (hashToBkt e.hh.hashv tbl.numBuckets).toNat < tbl.buckets.length := by
    rw [sized.buckets]
    exact bucket_inside some_ e.hh.hashv
  obtain ⟨bkt, bucket⟩ : ∃ bkt, tbl.buckets[(hashToBkt e.hh.hashv tbl.numBuckets).toNat]? = some bkt :=
    ⟨_, List.getElem?_eq_getElem inside⟩
  obtain ⟨middle, after, chains1, first, second, contents, order, _, filed1⟩ :=
    file_handle filed found bucket bkt.expandMult
  let grown : UTHashTable :=
    { tbl with
      numItems := tbl.numItems + 1
      buckets := tbl.buckets.set (hashToBkt e.hh.hashv tbl.numBuckets).toNat
        { bkt with hhHead := some a, count := bkt.count + 1 } }
  have sized1 : Sized grown k := by
    refine ⟨sized.log, sized.power, ?_⟩
    rw [List.length_set]
    exact sized.buckets
  have code : hashAddToTable room entries tbl e.hh.hashv a =
      if (bkt.expandMult + 1) * bktCapacityThresh ≤ bkt.count + 1 ∧ tbl.noexpand = false then
        hashExpandBuckets room after grown
      else .ok (after, grown) := by
    unfold hashAddToTable hashAddToBkt
    simp only [bucket, deref, bind, Except.bind, first, second]
    rfl
  rw [code]
  by_cases expands : (bkt.expandMult + 1) * bktCapacityThresh ≤ bkt.count + 1 ∧ tbl.noexpand = false
  · rw [if_pos expands]
    by_cases last : k = 31
    · apply Or.inl
      have size : 2 * grown.numBuckets.toNat * sizeofBucket = 2 ^ 36 := by
        rw [sized1.power, last, sizeofBucket]
        rfl
      have refused : uthashMalloc room (2 * grown.numBuckets.toNat * sizeofBucket)
          = .error .outOfMemory := by
        have none_ : ¬ room (2 ^ 36) = true := by
          rw [bounded]
          exact Bool.false_ne_true
        rw [uthashMalloc, size, if_neg none_]
      unfold hashExpandBuckets
      simp only [refused, bind, Except.bind]
    · rcases expand_filed sized1 (by omega) items filed1 room with
        refused | ⟨entries', tbl', chains', run, contents', order', filed', sized', items', tail'⟩
      · exact .inl refused
      · exact .inr ⟨entries', tbl', k + 1, chains', run, same_contents_trans contents contents',
          order'.trans order, filed', sized', by omega, items', tail'⟩
  · rw [if_neg expands]
    exact .inr ⟨after, grown, k, chains1, rfl, contents, order, filed1, sized1, small, rfl, rfl⟩

/-- A table that is in order, with its chains. -/
structure InOrder (s : Symbols) (tbl : UTHashTable) (k : Nat) (chains : List (List Nat)) : Prop where
  head : s.head = some 0
  table : s.table = some tbl
  sized : Sized tbl k
  small : k ≤ 31
  filed : Filed s.entries tbl.buckets tbl.numBuckets chains []
  items : tbl.numItems = s.entries.length.toUInt32
  tail : tbl.tail + 1 = s.entries.length
  order : Chain (orderLinks s.entries) none (some 0) (List.range s.entries.length)
  hashed : ∀ e ∈ s.entries, e.hh.keylen = keyLength e.key ∧
    e.hh.hashv = hashOat e.key (keyLength e.key)

/-- Nothing was added yet, or the table is in order. -/
def Sound (s : Symbols) : Prop :=
  s.head = none ∧ s.entries = [] ∨ ∃ tbl k chains, InOrder s tbl k chains

/-- The keys and symbols of the entries, the oldest first. -/
def added (s : Symbols) : List (CStr × Nat) := s.entries.map fun e => (e.key, e.sym)

def IsHashed (e : Entry) : Prop :=
  e.hh.keylen = keyLength e.key ∧ e.hh.hashv = hashOat e.key (keyLength e.key)

theorem hashed_same {entries entries' : List Entry} (contents : SameContents entries entries')
    (hashed : ∀ e ∈ entries, IsHashed e) : ∀ e ∈ entries', IsHashed e := by
  intro e' mem
  have content : e'.content ∈ entries.map Entry.content := by
    rw [← contents]
    exact List.mem_map_of_mem mem
  obtain ⟨e, there, same⟩ := List.mem_map.1 content
  have key : e.key = e'.key := congrArg (fun content => content.1) same
  have keylen : e.hh.keylen = e'.hh.keylen := congrArg (fun content => content.2.2.1) same
  have hashv : e.hh.hashv = e'.hh.hashv := congrArg (fun content => content.2.2.2) same
  unfold IsHashed
  rw [← key, ← keylen, ← hashv]
  exact hashed e there

theorem added_same {entries entries' : List Entry} (contents : SameContents entries entries') :
    entries'.map (fun e => (e.key, e.sym)) = entries.map fun e => (e.key, e.sym) := by
  have pairs := congrArg (List.map fun content : CStr × Nat × UInt32 × UInt32 =>
    (content.1, content.2.1)) contents
  rw [List.map_map, List.map_map] at pairs
  exact pairs

theorem items_positive {count : Nat} (few : count + 1 < 2 ^ 32) : count.toUInt32 + 1 ≠ 0 := by
  intro zero
  have value := congrArg UInt32.toNat zero
  have sum : count.toUInt32 + 1 = (count + 1).toUInt32 := (UInt32.ofNat_add count 1).symm
  have here : (count + 1).toUInt32.toNat = (count + 1) % 2 ^ 32 := rfl
  have none_ : (0 : UInt32).toNat = 0 := rfl
  rw [sum, here, none_, Nat.mod_eq_of_lt few] at value
  omega

def newEntry (key : CStr) (sym : Nat) : Entry :=
  ⟨key, sym, { keylen := keyLength key, hashv := hashOat key (keyLength key) }⟩

/-- The first addition makes the table. -/
theorem add_first (bounded : Bounded room) (key : CStr) (sym : Nat) :
    hashAddStr room {} key sym = .error .outOfMemory ∨
    ∃ s', hashAddStr room {} key sym = .ok s' ∧ Sound s' ∧ added s' = [(key, sym)] := by
  have code : hashAddStr room {} key sym = (hashMakeTable room 0).bind fun tbl =>
      (hashAddToTable room [newEntry key sym] tbl (newEntry key sym).hh.hashv 0).bind fun pair =>
        .ok ⟨pair.1, some 0, some pair.2⟩ := rfl
  rw [code]
  unfold hashMakeTable uthashMalloc
  by_cases header : room sizeofTable = true
  · by_cases buckets : room (initialNumBuckets.toNat * sizeofBucket) = true
    · have sized : Sized
          { buckets := List.replicate initialNumBuckets.toNat {}, numBuckets := initialNumBuckets,
            log2NumBuckets := initialNumBucketsLog2, tail := 0 } 7 :=
        ⟨rfl, rfl, List.length_replicate⟩
      have only : [0].Perm (List.range [newEntry key sym].length) := List.Perm.refl _
      have filed := filed_empty [newEntry key sym] initialNumBuckets initialNumBuckets.toNat only
      have first : [newEntry key sym][0]? = some (newEntry key sym) := rfl
      rcases add_to_table_filed bounded sized (by decide) (by decide) first filed with
        refused | ⟨entries', tbl', k', chains', run, contents, order, filed', sized', small', items',
          tail'⟩
      · apply Or.inl
        rw [if_pos header, if_pos buckets]
        simp only [bind, Except.bind, refused]
      · apply Or.inr
        have one := same_length contents
        have hashed : ∀ e ∈ [newEntry key sym], IsHashed e := by
          intro e mem
          rw [List.mem_singleton.1 mem]
          exact ⟨rfl, rfl⟩
        rw [if_pos header, if_pos buckets]
        simp only [bind, Except.bind, run]
        refine ⟨_, rfl, .inr ⟨tbl', k', chains', rfl, rfl, sized', small', filed', ?_, ?_, ?_,
          hashed_same contents hashed⟩, added_same contents⟩
        · rw [items', one]
          rfl
        · rw [tail', one]
          rfl
        · rw [order, one]
          exact ⟨rfl, ⟨none, none⟩, rfl, rfl, rfl⟩
    · apply Or.inl
      rw [if_pos header, if_neg buckets]
      rfl
  · apply Or.inl
    rw [if_neg header]
    rfl

/-- A later addition keeps the table in order. -/
theorem add_later {s : Symbols} (bounded : Bounded room) (ordered : InOrder s tbl k chains)
    (few : s.entries.length + 1 < 2 ^ 32) (key : CStr) (sym : Nat) :
    hashAddStr room s key sym = .error .outOfMemory ∨
    ∃ s', hashAddStr room s key sym = .ok s' ∧ Sound s' ∧ added s' = added s ++ [(key, sym)] := by
  let count := s.entries.length
  let entries1 := s.entries ++ [newEntry key sym]
  have tail : tbl.tail < count := Nat.lt_of_succ_le (Nat.le_of_eq ordered.tail)
  have length : entries1.length = count + 1 := by
    rw [List.length_append, List.length_singleton]
  have found : entries1[count]? = some (newEntry key sym) := List.getElem?_concat_length
  obtain ⟨after, linked, contents, links, order⟩ :=
    @append_list_links _ _ _ tbl found (by omega) (Nat.ne_of_lt tail)
  obtain ⟨e, there, content⟩ := same_entry contents found
  have filed : Filed after tbl.buckets tbl.numBuckets chains [count] :=
    filed_same contents links (filed_append ordered.filed (newEntry key sym))
  have items : tbl.numItems + 1 ≠ 0 := by
    rw [ordered.items]
    exact items_positive few
  have sized : Sized { tbl with tail := count } k :=
    ⟨ordered.sized.log, ordered.sized.power, ordered.sized.buckets⟩
  have chain : Chain (orderLinks after) none (some 0) (List.range (count + 1)) := by
    rw [order, List.range_succ]
    apply chain_link
    · apply chain_congr _ ordered.order
      intro a mem
      unfold orderLinks
      rw [entry_append (List.mem_range.1 mem)]
    · rw [List.getLast?_range, if_neg (by omega)]
      have last := ordered.tail
      congr 1
      omega
    · exact List.not_mem_range_self
    · exact List.nodup_range
  have code : hashAddStr room s key sym =
      (hashAddToTable room after { tbl with tail := count } e.hh.hashv count).bind fun pair =>
        .ok ⟨pair.1, some 0, some pair.2⟩ := by
    have hash : e.hh.hashv = (newEntry key sym).hh.hashv := hash_of_content content
    rw [hash]
    unfold hashAddStr
    simp only [ordered.head, ordered.table, deref, bind, Except.bind]
    rw [show hashAppendList (s.entries ++ [⟨key, sym,
      { keylen := keyLength key, hashv := hashOat key (keyLength key) }⟩]) tbl s.entries.length
        = _ from linked]
    rfl
  rw [code]
  rcases add_to_table_filed bounded sized ordered.small items there filed with
    refused | ⟨entries', tbl', k', chains', run, contents', order', filed', sized', small', items',
      tail'⟩
  · apply Or.inl
    simp only [refused, Except.bind]
  · apply Or.inr
    have whole := same_contents_trans contents contents'
    have size : entries'.length = count + 1 := (same_length whole).trans length
    have hashed : ∀ x ∈ entries1, IsHashed x := by
      intro x mem
      rcases List.mem_append.1 mem with old | new
      · exact ordered.hashed x old
      · rw [List.mem_singleton.1 new]
        exact ⟨rfl, rfl⟩
    simp only [run, Except.bind]
    refine ⟨_, rfl, .inr ⟨tbl', k', chains', rfl, rfl, sized', small', filed', ?_, ?_, ?_,
      hashed_same whole hashed⟩, ?_⟩
    · rw [items', size]
      have sum : (count + 1).toUInt32 = count.toUInt32 + 1 := UInt32.ofNat_add count 1
      rw [sum, ← ordered.items]
    · rw [tail', size]
    · rw [order', size]
      exact chain
    · unfold added
      rw [added_same whole, List.map_append]
      rfl

theorem add_sound {s : Symbols} (bounded : Bounded room) (sound : Sound s)
    (few : s.entries.length + 1 < 2 ^ 32) (key : CStr) (sym : Nat) :
    hashAddStr room s key sym = .error .outOfMemory ∨
    ∃ s', hashAddStr room s key sym = .ok s' ∧ Sound s' ∧ added s' = added s ++ [(key, sym)] := by
  rcases sound with ⟨none_, empty⟩ | ⟨tbl, k, chains, ordered⟩
  · have same : hashAddStr room s key sym = hashAddStr room {} key sym := by
      unfold hashAddStr
      rw [none_, empty]
    have nothing : added s = [] := by
      unfold added
      rw [empty]
      rfl
    rw [same, nothing]
    exact add_first bounded key sym
  · exact add_later bounded ordered few key sym

end Adding

section Runs

variable {room : Nat → Bool} {s : Symbols}

/-- Any number of additions comes to its end, and leaves a table in order. -/
theorem add_all_sound (bounded : Bounded room) (sound : Sound s) (keys : List (CStr × Nat))
    (few : s.entries.length + keys.length < 2 ^ 32) :
    hashAddAll room s keys = .error .outOfMemory ∨
    ∃ s', hashAddAll room s keys = .ok s' ∧ Sound s' ∧ added s' = added s ++ keys := by
  induction keys generalizing s with
  | nil =>
      apply Or.inr
      exact ⟨s, rfl, sound, (List.append_nil _).symm⟩
  | cons pair keys ih =>
      rw [List.length_cons] at few
      have code : hashAddAll room s (pair :: keys)
          = (hashAddStr room s pair.1 pair.2).bind fun s => hashAddAll room s keys := rfl
      rw [code]
      rcases add_sound bounded sound (by omega) pair.1 pair.2 with
        refused | ⟨s1, run, sound1, added1⟩
      · apply Or.inl
        rw [refused]
        rfl
      · have one : s1.entries.length = s.entries.length + 1 := by
          have lengths := congrArg List.length added1
          rw [List.length_append] at lengths
          unfold added at lengths
          rwa [List.length_map, List.length_map] at lengths
        rw [run]
        rcases ih sound1 (by omega) with refused | ⟨s', run', sound', added'⟩
        · exact .inl refused
        · apply Or.inr
          refine ⟨s', run', sound', ?_⟩
          rw [added', added1, List.append_assoc]
          rfl

end Runs

section Checks

variable {entries : List Entry} {prev start : Option Nat} {l : List Nat} {bound : Nat}

/-- Along a chain the inner loop finds nothing wrong. -/
theorem fsck_chain (chain : Chain (bucketLinks entries) prev start l) (enough : l.length ≤ bound) :
    fsckChain entries bound prev start = some l.length := by
  induction l generalizing prev start bound with
  | nil =>
      have ended : start = none := chain
      rw [ended]
      cases bound <;> rfl
  | cons a l ih =>
      obtain ⟨starts, x, known, back, rest⟩ := chain
      obtain ⟨e, found, same⟩ := Option.map_eq_some_iff.1 known
      have next : e.hh.hhNext = x.next := congrArg Links.next same
      have before : e.hh.hhPrev = x.prev := congrArg Links.prev same
      cases bound with
      | zero => exact absurd enough (Nat.not_succ_le_zero _)
      | succ bound =>
          have later := ih rest (Nat.le_of_succ_le_succ enough)
          rw [starts, fsckChain]
          simp only [found, bind, Option.bind, before, back, if_true, next, later]
          rfl

theorem fsck_order (chain : Chain (orderLinks entries) prev start l) (enough : l.length ≤ bound) :
    fsckOrder entries bound prev start = some l.length := by
  induction l generalizing prev start bound with
  | nil =>
      have ended : start = none := chain
      rw [ended]
      cases bound <;> rfl
  | cons a l ih =>
      obtain ⟨starts, x, known, back, rest⟩ := chain
      obtain ⟨e, found, same⟩ := Option.map_eq_some_iff.1 known
      have next : e.hh.next = x.next := congrArg Links.next same
      have before : e.hh.prev = x.prev := congrArg Links.prev same
      cases bound with
      | zero => exact absurd enough (Nat.not_succ_le_zero _)
      | succ bound =>
          have later := ih rest (Nat.le_of_succ_le_succ enough)
          rw [starts, fsckOrder]
          simp only [found, bind, Option.bind, before, back, if_true, next, later]
          rfl

/-- Over all the buckets it counts the handles in their chains. -/
theorem fsck_buckets {buckets : List UTHashBucket} {chains : List (List Nat)} (count : Nat)
    (lengths : chains.length = buckets.length)
    (linked : ∀ (i : Nat) (bkt : UTHashBucket) (l : List Nat), buckets[i]? = some bkt →
      chains[i]? = some l →
      Chain (bucketLinks entries) none bkt.hhHead l ∧ bkt.count = l.length.toUInt32)
    (enough : ∀ l ∈ chains, l.length ≤ entries.length) :
    fsckBuckets entries buckets count.toUInt32 = some (count + chains.flatten.length).toUInt32 := by
  induction buckets generalizing chains count with
  | nil =>
      have none_ : chains = [] := List.length_eq_zero_iff.1 lengths
      rw [none_]
      rfl
  | cons bkt buckets ih =>
      cases chains with
      | nil => cases lengths
      | cons l chains =>
          obtain ⟨chain, counted⟩ := linked 0 bkt l rfl rfl
          have here := fsck_chain chain (enough l List.mem_cons_self)
          have later := ih (count + l.length) (Nat.succ.inj lengths)
            (fun i bkt' l' bucket' chain' => linked (i + 1) bkt' l' bucket' chain')
            (fun l' mem => enough l' (List.mem_cons_of_mem l mem))
          have sum : count.toUInt32 + l.length.toUInt32 = (count + l.length).toUInt32 :=
            (UInt32.ofNat_add count l.length).symm
          rw [fsckBuckets]
          simp only [here, bind, Option.bind, counted, if_true, sum, later]
          rw [List.flatten_cons, List.length_append, Nat.add_assoc]

theorem sound_checked {s : Symbols} (sound : Sound s) : hashFsck s = true := by
  rcases sound with ⟨none_, _⟩ | ⟨tbl, k, chains, ordered⟩
  · unfold hashFsck
    rw [none_]
  · have all := ordered.filed.all
    rw [List.append_nil] at all
    have total : chains.flatten.length = s.entries.length := by
      rw [all.length_eq, List.length_range]
    have enough : ∀ l ∈ chains, l.length ≤ s.entries.length := by
      intro l mem
      rw [← total]
      exact (List.sublist_flatten_of_mem mem).length_le
    have buckets := fsck_buckets 0 ordered.filed.length ordered.filed.chain enough
    have whole : tbl.buckets.take tbl.numBuckets.toNat = tbl.buckets := by
      apply List.take_of_length_le
      exact Nat.le_of_eq ordered.sized.buckets
    have order := fsck_order ordered.order (Nat.le_of_eq List.length_range)
    rw [Nat.zero_add, total, ← ordered.items] at buckets
    rw [List.length_range] at order
    have zero : (0 : Nat).toUInt32 = 0 := rfl
    rw [zero] at buckets
    unfold hashFsck
    rw [ordered.head, ordered.table]
    simp only [whole, buckets, order, Option.map_some, ← ordered.items]
    rw [beq_self_eq_true, Bool.and_self]

theorem sound_empty : Sound {} := .inl ⟨rfl, rfl⟩

/-- Whatever keys are added, and whatever their hash values, the table holds
them in the order they were added, and the check of a debug build passes after
each of the additions, unless the memory is used up before. -/
theorem every_addition_checked (room : Nat → Bool) (bounded : Bounded room)
    (keys : List (CStr × Nat)) (few : keys.length < 2 ^ 32) (count : Nat) :
    hashAddAll room {} (keys.take count) = .error .outOfMemory ∨
    ∃ s, hashAddAll room {} (keys.take count) = .ok s ∧ added s = keys.take count ∧
      hashFsck s = true := by
  have fewer : ([] : List Entry).length + (keys.take count).length < 2 ^ 32 := by
    rw [List.length_take, List.length_nil]
    omega
  rcases add_all_sound bounded sound_empty (keys.take count) fewer with
    refused | ⟨s, run, sound, all⟩
  · exact .inl refused
  · exact .inr ⟨s, run, all, sound_checked sound⟩

/-- An allocator with less than 64 GiB to give. -/
def roomy : Nat → Bool := fun bytes => decide (bytes < 2 ^ 36)

theorem bounded_roomy : Bounded roomy := decide_eq_false (Nat.lt_irrefl (2 ^ 36))

theorem every_addition_checked_two :
    hashAddAll roomy {} ([(text "x", 7), (text "y", 8), (text "x", 9)].take 2)
      = .error .outOfMemory ∨
    ∃ s, hashAddAll roomy {} ([(text "x", 7), (text "y", 8), (text "x", 9)].take 2) = .ok s ∧
      added s = [(text "x", 7), (text "y", 8), (text "x", 9)].take 2 ∧ hashFsck s = true :=
  every_addition_checked roomy bounded_roomy [(text "x", 7), (text "y", 8), (text "x", 9)]
    (by decide) 2

end Checks

end BearLang.HashTable
