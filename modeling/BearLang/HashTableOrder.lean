import BearLang.HashTable
import Mathlib.Data.List.Nodup

/-!
# The hash table stays in order

Every handle is in one chain, and the chain is that of the bucket of its hash
value. An addition puts a handle in front of a chain; an expansion takes the
chains apart and puts their handles, one by one, in front of the chains of the
new buckets.
-/

namespace BearLang.HashTable

open LinkedChains

set_option autoImplicit false

section Handles

def bucketLinks (entries : List Entry) : Store := fun a =>
  (entries[a]?).map fun e => ⟨e.hh.hhPrev, e.hh.hhNext⟩

def orderLinks (entries : List Entry) : Store := fun a =>
  (entries[a]?).map fun e => ⟨e.hh.prev, e.hh.next⟩

/-- What of an entry is not a link. -/
def Entry.content (e : Entry) : CStr × Nat × UInt32 × UInt32 := (e.key, e.sym, e.hh.keylen, e.hh.hashv)

def SameContents (entries entries' : List Entry) : Prop :=
  entries'.map Entry.content = entries.map Entry.content

variable {entries entries' later : List Entry} {a b i : Nat} {e : Entry} {head : Option Nat}
  {f : UTHashHandle → UTHashHandle}

theorem same_contents_trans (first : SameContents entries entries')
    (second : SameContents entries' later) : SameContents entries later :=
  Eq.trans second first

theorem same_length (same : SameContents entries entries') : entries'.length = entries.length := by
  have lengths := congrArg List.length same
  rwa [List.length_map, List.length_map] at lengths

theorem same_entry (same : SameContents entries entries') (found : entries[a]? = some e) :
    ∃ e', entries'[a]? = some e' ∧ e'.content = e.content := by
  have here := congrArg (fun l => l[a]?) same
  rw [List.getElem?_map, List.getElem?_map, found, Option.map_some] at here
  exact Option.map_eq_some_iff.1 here

theorem entry_inside (inside : a < entries.length) : ∃ e, entries[a]? = some e :=
  ⟨entries[a], List.getElem?_eq_getElem inside⟩

theorem set_handle_found (found : entries[a]? = some e) (f : UTHashHandle → UTHashHandle) :
    setHandle entries a f = .ok (entries.set a { e with hh := f e.hh }) := by
  rw [setHandle, found]
  rfl

theorem contents_set (found : entries[a]? = some e) (keeps : (f e.hh).keylen = e.hh.keylen)
    (keeps' : (f e.hh).hashv = e.hh.hashv) :
    SameContents entries (entries.set a { e with hh := f e.hh }) := by
  unfold SameContents
  apply List.ext_getElem?
  intro c
  rw [List.getElem?_map, List.getElem?_map, List.getElem?_set]
  by_cases same : a = c
  · subst same
    have inside := (List.getElem?_eq_some_iff.1 found).1
    rw [if_pos rfl, if_pos inside, found]
    simp only [Option.map_some, Entry.content, keeps, keeps']
  · rw [if_neg same]

/-- A store into a handle, seen from the links that it leaves or sets. -/
theorem links_set (view : UTHashHandle → Links) (found : entries[a]? = some e) (c : Nat) :
    ((entries.set a { e with hh := f e.hh })[c]?).map (fun e => view e.hh) =
      if c = a then some (view (f e.hh)) else (entries[c]?).map fun e => view e.hh := by
  rw [List.getElem?_set]
  by_cases same : c = a
  · subst same
    have inside := (List.getElem?_eq_some_iff.1 found).1
    rw [if_pos rfl, if_pos rfl, if_pos inside]
    rfl
  · rw [if_neg (fun other => same other.symm), if_neg same]

/-- The three stores that put a handle in front of a chain. -/
theorem push_handle (inside : a < entries.length)
    (valid : ∀ b, head = some b → b < entries.length ∧ b ≠ a) :
    ∃ middle after,
      setHandle entries a (fun hh => { hh with hhPrev := none, hhNext := head }) = .ok middle ∧
      setHeadHandle middle head (fun hh => { hh with hhPrev := some a }) = .ok after ∧
      SameContents entries after ∧ bucketLinks after = push (bucketLinks entries) head a ∧
      orderLinks after = orderLinks entries := by
  obtain ⟨e, found⟩ := entry_inside inside
  have first := set_handle_found found fun hh => { hh with hhPrev := none, hhNext := head }
  have contents := contents_set (f := fun hh => { hh with hhPrev := none, hhNext := head }) found
    rfl rfl
  have order : orderLinks (entries.set a { e with hh := { e.hh with hhPrev := none, hhNext := head } })
      = orderLinks entries := by
    funext c
    have seen := links_set (f := fun hh => { hh with hhPrev := none, hhNext := head })
      (fun hh => ⟨hh.prev, hh.next⟩) found c
    unfold orderLinks
    rw [seen]
    by_cases same : c = a
    · rw [if_pos same, same, found]
      rfl
    · rw [if_neg same]
  have bucket (c : Nat) := links_set (f := fun hh => { hh with hhPrev := none, hhNext := head })
    (fun hh => ⟨hh.hhPrev, hh.hhNext⟩) found c
  cases head with
  | none =>
      refine ⟨_, _, first, rfl, contents, ?_, order⟩
      funext c
      unfold bucketLinks push
      rw [bucket c, if_neg (show ¬ none = some c by simp)]
  | some b =>
      obtain ⟨inside', other⟩ := valid b rfl
      have there : (entries.set a { e with hh := { e.hh with hhPrev := none, hhNext := some b } })[b]?
          = some entries[b] := by
        rw [List.getElem?_set, if_neg other.symm]
        exact List.getElem?_eq_getElem inside'
      have second := set_handle_found there fun hh => { hh with hhPrev := some a }
      have contents' := contents_set (f := fun hh => { hh with hhPrev := some a }) there rfl rfl
      refine ⟨_, _, first, second, same_contents_trans contents contents', ?_, ?_⟩
      · funext c
        have seen := links_set (f := fun hh => { hh with hhPrev := some a })
          (fun hh => ⟨hh.hhPrev, hh.hhNext⟩) there c
        have old : bucketLinks entries b = some ⟨entries[b].hh.hhPrev, entries[b].hh.hhNext⟩ := by
          unfold bucketLinks
          rw [List.getElem?_eq_getElem inside']
          rfl
        refine Eq.trans seen ?_
        rw [bucket c]
        unfold push
        by_cases isHead : c = b
        · subst isHead
          rw [if_pos rfl, if_neg other, if_pos rfl, old]
          rfl
        · have notHead : ¬ some b = some c := fun same => isHead (Option.some.inj same).symm
          rw [if_neg isHead, if_neg notHead]
          rfl
      · funext c
        have seen := links_set (f := fun hh => { hh with hhPrev := some a })
          (fun hh => ⟨hh.prev, hh.next⟩) there c
        rw [← order]
        unfold orderLinks
        rw [seen]
        by_cases isHead : c = b
        · rw [if_pos isHead, isHead, there]
          rfl
        · rw [if_neg isHead]

end Handles

section Filing

theorem flatten_set {α : Type} {chains : List (List α)} {l : List α} {i : Nat} (a : α)
    (chain : chains[i]? = some l) : (chains.set i (a :: l)).flatten.Perm (a :: chains.flatten) := by
  induction chains generalizing i with
  | nil => simp at chain
  | cons first chains ih =>
      cases i with
      | zero =>
          rw [List.getElem?_cons_zero] at chain
          cases chain
          rfl
      | succ i =>
          rw [List.getElem?_cons_succ] at chain
          rw [List.set_cons_succ, List.flatten_cons, List.flatten_cons]
          apply ((ih chain).append_left first).trans
          exact List.perm_middle

/-- The handles in the buckets and those still to do are all of them. Each
bucket has the head and the length of a chain of handles that belong there. -/
structure Filed (entries : List Entry) (buckets : List UTHashBucket) (n : UInt32)
    (chains : List (List Nat)) (todo : List Nat) : Prop where
  length : chains.length = buckets.length
  chain : ∀ (i : Nat) (bkt : UTHashBucket) (l : List Nat), buckets[i]? = some bkt → chains[i]? = some l →
    Chain (bucketLinks entries) none bkt.hhHead l ∧ bkt.count = l.length.toUInt32
  placed : ∀ (i : Nat) (l : List Nat) (a : Nat), chains[i]? = some l → a ∈ l →
    ∃ e : Entry, entries[a]? = some e ∧ (hashToBkt e.hh.hashv n).toNat = i
  all : (chains.flatten ++ todo).Perm (List.range entries.length)

variable {entries entries' : List Entry} {buckets : List UTHashBucket} {n : UInt32}
  {chains : List (List Nat)} {todo l : List Nat} {a i : Nat} {e : Entry} {bkt : UTHashBucket}

theorem filed_nodup (filed : Filed entries buckets n chains todo) :
    (chains.flatten ++ todo).Nodup :=
  filed.all.nodup_iff.2 List.nodup_range

theorem filed_inside (filed : Filed entries buckets n chains todo)
    (mem : a ∈ chains.flatten ++ todo) : a < entries.length :=
  List.mem_range.1 (filed.all.mem_iff.1 mem)

theorem mem_chains (chain : chains[i]? = some l) (mem : a ∈ l) : a ∈ chains.flatten :=
  List.mem_flatten.2 ⟨l, List.mem_of_getElem? chain, mem⟩

theorem hash_of_content {e' : Entry} (same : e'.content = e.content) : e'.hh.hashv = e.hh.hashv :=
  congrArg (fun content => content.2.2.2) same

theorem file_handle (filed : Filed entries buckets n chains (a :: todo)) (found : entries[a]? = some e)
    (bucket : buckets[(hashToBkt e.hh.hashv n).toNat]? = some bkt) (mult : UInt32) :
    ∃ middle after chains',
      setHandle entries a (fun hh => { hh with hhPrev := none, hhNext := bkt.hhHead }) = .ok middle ∧
      setHeadHandle middle bkt.hhHead (fun hh => { hh with hhPrev := some a }) = .ok after ∧
      SameContents entries after ∧ orderLinks after = orderLinks entries ∧
      (∀ c, c ≠ a → (bucketLinks after c).map Links.next = (bucketLinks entries c).map Links.next) ∧
      Filed after
        (buckets.set (hashToBkt e.hh.hashv n).toNat ⟨some a, bkt.count + 1, mult⟩) n chains' todo := by
  have inside : a < entries.length := (List.getElem?_eq_some_iff.1 found).1
  have bound : (hashToBkt e.hh.hashv n).toNat < chains.length := by
    rw [filed.length]
    exact (List.getElem?_eq_some_iff.1 bucket).1
  have chain := List.getElem?_eq_getElem bound
  generalize chains[(hashToBkt e.hh.hashv n).toNat] = l at chain
  have apart := filed_nodup filed
  rw [List.nodup_append] at apart
  have new : a ∉ chains.flatten := fun mem => apart.2.2 a mem a List.mem_cons_self rfl
  have newHere : a ∉ l := fun mem => new (mem_chains chain mem)
  have nodup : l.Nodup := (List.nodup_flatten.1 apart.1).1 l (List.mem_of_getElem? chain)
  obtain ⟨linked, count⟩ := filed.chain _ _ _ bucket chain
  have head : ∀ b, bkt.hhHead = some b → b ∈ l := by
    intro b isHead
    rw [start_of_chain linked] at isHead
    exact List.mem_of_head? isHead
  have valid : ∀ b, bkt.hhHead = some b → b < entries.length ∧ b ≠ a := by
    intro b isHead
    have mem := head b isHead
    have inChains := mem_chains chain mem
    exact ⟨filed_inside filed (List.mem_append_left _ inChains), fun same => newHere (same ▸ mem)⟩
  obtain ⟨middle, after, first, second, contents, bucketed, ordered⟩ := push_handle inside valid
  refine ⟨middle, after, chains.set (hashToBkt e.hh.hashv n).toNat (a :: l), first, second, contents,
    ordered, fun c other => ?_, ?_, ?_, ?_, ?_⟩
  · rw [bucketed]
    exact push_next other
  · rw [List.length_set, List.length_set]
    exact filed.length
  · intro j bkt' l' bucket' chain'
    rw [bucketed]
    rw [List.getElem?_set] at bucket' chain'
    by_cases same : (hashToBkt e.hh.hashv n).toNat = j
    · rw [if_pos same, if_pos (filed.length ▸ bound)] at bucket'
      rw [if_pos same, if_pos bound] at chain'
      cases bucket'
      cases chain'
      refine ⟨chain_push linked newHere nodup, ?_⟩
      rw [count, List.length_cons]
      exact (UInt32.ofNat_add l.length 1).symm
    · rw [if_neg same] at bucket' chain'
      obtain ⟨linked', count'⟩ := filed.chain j bkt' l' bucket' chain'
      refine ⟨?_, count'⟩
      apply chain_push_apart linked'
      · exact fun mem => new (mem_chains chain' mem)
      · intro b isHead mem
        obtain ⟨x, known, there⟩ := filed.placed _ l b chain (head b isHead)
        obtain ⟨y, known', there'⟩ := filed.placed j l' b chain' mem
        rw [known] at known'
        cases known'
        exact same (there.symm.trans there')
  · intro j l' b chain' mem
    have before : ∃ x : Entry, entries[b]? = some x ∧ (hashToBkt x.hh.hashv n).toNat = j := by
      rw [List.getElem?_set] at chain'
      by_cases same : (hashToBkt e.hh.hashv n).toNat = j
      · rw [if_pos same, if_pos bound] at chain'
        cases chain'
        cases mem with
        | head => exact ⟨e, found, same⟩
        | tail _ old => exact filed.placed j l b (same ▸ chain) old
      · rw [if_neg same] at chain'
        exact filed.placed j l' b chain' mem
    obtain ⟨x, known, there⟩ := before
    obtain ⟨y, known', content⟩ := same_entry contents known
    refine ⟨y, known', ?_⟩
    rw [hash_of_content content]
    exact there
  · rw [same_length contents]
    have more := (flatten_set a chain).append_right todo
    apply more.trans
    apply List.Perm.trans _ filed.all
    exact List.perm_middle.symm

end Filing

section Moving

variable {m : Moving} {n ideal : UInt32} {chains : List (List Nat)} {todo rest : List Nat} {a : Nat}
  {start : Option Nat}

theorem bucket_inside (some_ : n ≠ 0) (hashv : UInt32) : (hashToBkt hashv n).toNat < n.toNat := by
  have positive : 0 < n.toNat := by
    apply Nat.pos_of_ne_zero
    intro zero
    exact some_ (UInt32.toNat_inj.1 zero)
  have one : (1 : UInt32) ≤ n := by
    rw [UInt32.le_iff_toNat_le]
    exact positive
  have last : (n - 1).toNat = n.toNat - 1 := UInt32.toNat_sub_of_le _ _ one
  have below : (hashToBkt hashv n).toNat ≤ (n - 1).toNat := by
    unfold hashToBkt
    rw [UInt32.toNat_and]
    exact Nat.and_le_right
  omega

/-- What is left of the chains that are still to be taken apart stays as it is. -/
def NextKept (entries entries' : List Entry) (done : List Nat) : Prop :=
  ∀ c, c ∉ done → (bucketLinks entries' c).map Links.next = (bucketLinks entries c).map Links.next

theorem count_handle_ok (divides : ideal ≠ 0) (count nonideal mult : UInt32) :
    ∃ choice, countHandle ideal count nonideal mult = .ok choice := by
  unfold countHandle
  by_cases larger : ideal < count
  · rw [if_pos larger, if_neg divides]
    exact ⟨_, rfl⟩
  · rw [if_neg larger]
    exact ⟨_, rfl⟩

theorem move_handle_filed (filed : Filed m.entries m.newBuckets n chains (a :: todo))
    (size : m.newBuckets.length = n.toNat) (some_ : n ≠ 0) (divides : ideal ≠ 0) :
    ∃ m' chains', moveHandle n ideal a m = .ok m' ∧ SameContents m.entries m'.entries ∧
      orderLinks m'.entries = orderLinks m.entries ∧ NextKept m.entries m'.entries [a] ∧
      m'.newBuckets.length = n.toNat ∧ Filed m'.entries m'.newBuckets n chains' todo := by
  have inside : a < m.entries.length :=
    filed_inside filed (List.mem_append_right _ List.mem_cons_self)
  obtain ⟨e, found⟩ := entry_inside inside
  have room : (hashToBkt e.hh.hashv n).toNat < m.newBuckets.length := by
    rw [size]
    exact bucket_inside some_ e.hh.hashv
  obtain ⟨bkt, bucket⟩ : ∃ bkt, m.newBuckets[(hashToBkt e.hh.hashv n).toNat]? = some bkt :=
    ⟨_, List.getElem?_eq_getElem room⟩
  obtain ⟨choice, chosen⟩ := count_handle_ok divides (bkt.count + 1) m.nonidealItems bkt.expandMult
  obtain ⟨middle, after, chains', first, second, contents, order, next, filed'⟩ :=
    file_handle filed found bucket choice.2
  refine ⟨⟨after, m.newBuckets.set (hashToBkt e.hh.hashv n).toNat ⟨some a, bkt.count + 1, choice.2⟩,
    choice.1⟩, chains', ?_, contents, order, fun c other => ?_, ?_, filed'⟩
  · unfold moveHandle
    simp only [found, bucket, deref, bind, Except.bind, chosen, first, second]
  · apply next
    intro same
    exact other (same ▸ List.mem_singleton.2 rfl)
  · rw [List.length_set]
    exact size

theorem next_kept_trans {entries middle entries' : List Entry} {done more : List Nat}
    (first : NextKept entries middle done) (second : NextKept middle entries' more) :
    NextKept entries entries' (done ++ more) := by
  intro c other
  rw [List.mem_append, not_or] at other
  exact (second c other.2).trans (first c other.1)

theorem forward_kept {entries entries' : List Entry} {done l : List Nat}
    (kept : NextKept entries entries' done) (apart : ∀ c ∈ l, c ∉ done)
    (forward : Forward (bucketLinks entries) start l) : Forward (bucketLinks entries') start l :=
  forward_congr (fun c mem => kept c (apart c mem)) forward

theorem move_chain_filed (forward : Forward (bucketLinks m.entries) start rest)
    (filed : Filed m.entries m.newBuckets n chains (rest ++ todo)) {bound : Nat}
    (enough : rest.length ≤ bound) (size : m.newBuckets.length = n.toNat) (some_ : n ≠ 0)
    (divides : ideal ≠ 0) :
    ∃ m' chains', moveChain n ideal bound start m = .ok m' ∧ SameContents m.entries m'.entries ∧
      orderLinks m'.entries = orderLinks m.entries ∧ NextKept m.entries m'.entries rest ∧
      m'.newBuckets.length = n.toNat ∧ Filed m'.entries m'.newBuckets n chains' todo := by
  induction rest generalizing m start chains bound with
  | nil =>
      have ended : start = none := forward
      refine ⟨m, chains, ?_, rfl, rfl, fun _ _ => rfl, size, filed⟩
      rw [ended]
      cases bound <;> rfl
  | cons a rest ih =>
      obtain ⟨starts, x, known, later⟩ := forward
      obtain ⟨e, found, same⟩ := Option.map_eq_some_iff.1 known
      have next : e.hh.hhNext = x.next := congrArg Links.next same
      cases bound with
      | zero => exact absurd enough (Nat.not_succ_le_zero _)
      | succ bound =>
          obtain ⟨m1, chains1, moved, contents, order, kept, size1, filed1⟩ :=
            move_handle_filed filed size some_ divides
          have apart := (List.nodup_append.1 (filed_nodup filed)).2.1
          rw [List.cons_append, List.nodup_cons] at apart
          have others : ∀ c ∈ rest, c ∉ [a] := by
            intro c mem isHere
            have here : c = a := List.mem_singleton.1 isHere
            exact apart.1 (List.mem_append_left _ (here ▸ mem))
          obtain ⟨m', chains', run, contents', order', kept', size', filed'⟩ :=
            ih (forward_kept kept others later) filed1 (Nat.le_of_succ_le_succ enough) size1
          refine ⟨m', chains', ?_, same_contents_trans contents contents', order'.trans order,
            next_kept_trans kept kept', size', filed'⟩
          rw [starts, moveChain]
          simp only [found, deref, bind, Except.bind, moved]
          rw [next]
          exact run

/-- All the chains of the old buckets from one of them on are taken apart. -/
theorem move_buckets_filed {old : List UTHashBucket} {oldChains : List (List Nat)} {left i : Nat}
    (forward : ∀ (j : Nat) (bkt : UTHashBucket) (l : List Nat), i ≤ j → old[j]? = some bkt →
      oldChains[j]? = some l → Forward (bucketLinks m.entries) bkt.hhHead l)
    (lengths : oldChains.length = old.length) (last : i + left = old.length)
    (filed : Filed m.entries m.newBuckets n chains (oldChains.drop i).flatten)
    (size : m.newBuckets.length = n.toNat) (some_ : n ≠ 0) (divides : ideal ≠ 0) :
    ∃ m' chains', moveBuckets old n ideal left i m = .ok m' ∧ SameContents m.entries m'.entries ∧
      orderLinks m'.entries = orderLinks m.entries ∧ m'.newBuckets.length = n.toNat ∧
      Filed m'.entries m'.newBuckets n chains' [] := by
  induction left generalizing m i chains with
  | zero =>
      have done : oldChains.drop i = [] := by
        apply List.drop_eq_nil_of_le
        omega
      rw [done] at filed
      exact ⟨m, chains, rfl, rfl, rfl, size, filed⟩
  | succ left ih =>
      have here : i < old.length := by omega
      have here' : i < oldChains.length := by omega
      have bucket := List.getElem?_eq_getElem here
      have chain := List.getElem?_eq_getElem here'
      rw [List.drop_eq_getElem_cons here', List.flatten_cons] at filed
      generalize oldChains[i] = l at filed chain
      generalize old[i] = bkt at bucket
      have enough : l.length ≤ m.entries.length := by
        have lengths := filed.all.length_eq
        simp only [List.length_append, List.length_range] at lengths
        omega
      obtain ⟨m1, chains1, moved, contents, order, kept, size1, filed1⟩ :=
        move_chain_filed (forward i bkt l (Nat.le_refl i) bucket chain) filed enough size some_ divides
      have apart := (List.nodup_append.1 (filed_nodup filed)).2.1
      have later : ∀ (j : Nat) (bkt : UTHashBucket) (l : List Nat), i + 1 ≤ j → old[j]? = some bkt →
          oldChains[j]? = some l → Forward (bucketLinks m1.entries) bkt.hhHead l := by
        intro j bkt' l' behind bucket' chain'
        apply forward_kept kept _ (forward j bkt' l' (by omega) bucket' chain')
        intro c mem inside
        have behind' : (oldChains.drop (i + 1))[j - (i + 1)]? = some l' := by
          rw [List.getElem?_drop, Nat.add_sub_cancel' behind]
          exact chain'
        exact (List.nodup_append.1 apart).2.2 c inside c (mem_chains behind' mem) rfl
      obtain ⟨m', chains', run, contents', order', size', filed'⟩ := ih later (by omega) filed1 size1
      refine ⟨m', chains', ?_, same_contents_trans contents contents', order'.trans order, size',
        filed'⟩
      rw [moveBuckets]
      simp only [bucket, deref, bind, Except.bind, moved]
      exact run

end Moving

section Growing

variable {tbl : UTHashTable} {entries : List Entry} {chains : List (List Nat)} {k : Nat}

/-- The number of buckets is a power of two that the table knows. -/
structure Sized (tbl : UTHashTable) (k : Nat) : Prop where
  log : tbl.log2NumBuckets.toNat = k
  power : tbl.numBuckets.toNat = 2 ^ k
  buckets : tbl.buckets.length = tbl.numBuckets.toNat

theorem doubled (sized : Sized tbl k) (small : k ≤ 30) : (tbl.numBuckets * 2).toNat = 2 ^ (k + 1) := by
  have below : 2 ^ k ≤ 2 ^ 30 := Nat.pow_le_pow_right (by decide) small
  have two : (2 : UInt32).toNat = 2 := rfl
  rw [UInt32.toNat_mul, sized.power, two, Nat.pow_succ]
  apply Nat.mod_eq_of_lt
  omega

theorem ideal_positive (sized : Sized tbl k) (small : k ≤ 30) (items : tbl.numItems ≠ 0) :
    idealAfter tbl ≠ 0 := by
  have twice := doubled sized small
  have below : 2 ^ (k + 1) ≤ 2 ^ 31 := Nat.pow_le_pow_right (by decide) (by omega)
  have positive : 0 < 2 ^ (k + 1) := Nat.two_pow_pos _
  have one : (1 : UInt32).toNat = 1 := rfl
  have mask : (tbl.numBuckets * 2 - 1).toNat = 2 ^ (k + 1) - 1 := by
    rw [UInt32.toNat_sub_of_le, twice, one]
    rw [UInt32.le_iff_toNat_le, twice, one]
    omega
  have shift : (tbl.log2NumBuckets + 1).toNat = k + 1 := by
    rw [UInt32.toNat_add, sized.log, one]
    apply Nat.mod_eq_of_lt
    omega
  have quotient : (tbl.numItems >>> (tbl.log2NumBuckets + 1)).toNat
      = tbl.numItems.toNat / 2 ^ (k + 1) := by
    rw [UInt32.toNat_shiftRight, shift, Nat.mod_eq_of_lt (by omega), Nat.shiftRight_eq_div_pow]
  have bound : tbl.numItems.toNat < 2 ^ 32 := tbl.numItems.toNat_lt
  have some_ : tbl.numItems.toNat ≠ 0 := fun zero => items (UInt32.toNat_inj.1 zero)
  intro none_
  have sum := congrArg UInt32.toNat none_
  unfold idealAfter at sum
  by_cases whole : tbl.numItems &&& (tbl.numBuckets * 2 - 1) = 0
  · have remainder := congrArg UInt32.toNat whole
    rw [UInt32.toNat_and, mask, Nat.and_two_pow_sub_one_eq_mod] at remainder
    have zero : (0 : UInt32).toNat = 0 := rfl
    rw [if_neg (not_not.2 whole), UInt32.add_zero, quotient, zero] at sum
    rw [zero] at remainder
    have split := Nat.div_add_mod tbl.numItems.toNat (2 ^ (k + 1))
    rw [sum, remainder] at split
    exact some_ split.symm
  · have zero : (0 : UInt32).toNat = 0 := rfl
    rw [if_pos whole, UInt32.toNat_add, quotient, one, zero] at sum
    have half : tbl.numItems.toNat / 2 ^ (k + 1) ≤ tbl.numItems.toNat / 2 :=
      Nat.div_le_div_left (by rw [Nat.pow_succ]; have := Nat.two_pow_pos k; omega) (by decide)
    omega

theorem filed_empty (entries : List Entry) (n : UInt32) (count : Nat) {todo : List Nat}
    (all : todo.Perm (List.range entries.length)) :
    Filed entries (List.replicate count {}) n (List.replicate count []) todo where
  length := by rw [List.length_replicate, List.length_replicate]
  chain i bkt l bucket chain := by
    have isEmpty := List.eq_of_mem_replicate (List.mem_of_getElem? bucket)
    have isNil := List.eq_of_mem_replicate (List.mem_of_getElem? chain)
    subst isEmpty isNil
    exact ⟨rfl, rfl⟩
  placed i l a chain mem := by
    have isNil := List.eq_of_mem_replicate (List.mem_of_getElem? chain)
    subst isNil
    exact absurd mem List.not_mem_nil
  all := by
    rw [List.flatten_replicate_nil, List.nil_append]
    exact all

/-- Doubling the buckets keeps every handle in the bucket of its hash value. -/
theorem expand_filed (sized : Sized tbl k) (small : k ≤ 30) (items : tbl.numItems ≠ 0)
    (filed : Filed entries tbl.buckets tbl.numBuckets chains []) (room : Nat → Bool) :
    hashExpandBuckets room entries tbl = .error .outOfMemory ∨
    ∃ entries' tbl' chains', hashExpandBuckets room entries tbl = .ok (entries', tbl') ∧
      SameContents entries entries' ∧ orderLinks entries' = orderLinks entries ∧
      Filed entries' tbl'.buckets tbl'.numBuckets chains' [] ∧ Sized tbl' (k + 1) ∧
      tbl'.numItems = tbl.numItems ∧ tbl'.tail = tbl.tail := by
  unfold hashExpandBuckets
  by_cases free : room (2 * tbl.numBuckets.toNat * sizeofBucket) = true
  · apply Or.inr
    have twice := doubled sized small
    have length : 2 * tbl.numBuckets.toNat = (tbl.numBuckets * 2).toNat := by
      rw [twice, sized.power, Nat.pow_succ]
      omega
    have some_ : tbl.numBuckets * 2 ≠ 0 := by
      intro zero
      rw [zero] at twice
      have positive : 0 < 2 ^ (k + 1) := Nat.two_pow_pos _
      rw [← twice] at positive
      exact absurd positive (by decide)
    have all := filed.all
    rw [List.append_nil] at all
    let start : Moving := ⟨entries, List.replicate (2 * tbl.numBuckets.toNat) {}, 0⟩
    have forward : ∀ (j : Nat) (bkt : UTHashBucket) (l : List Nat), 0 ≤ j →
        tbl.buckets[j]? = some bkt → chains[j]? = some l →
        Forward (bucketLinks start.entries) bkt.hhHead l :=
      fun j bkt l _ bucket chain => forward_of_chain (filed.chain j bkt l bucket chain).1
    have last : 0 + tbl.numBuckets.toNat = tbl.buckets.length := by
      rw [sized.buckets, Nat.zero_add]
    have fresh : start.newBuckets.length = (tbl.numBuckets * 2).toNat := by
      rw [List.length_replicate]
      exact length
    obtain ⟨m, chains', moved, contents, order, size, filed'⟩ :=
      move_buckets_filed forward filed.length last (filed_empty entries (tbl.numBuckets * 2) _ all)
        fresh some_ (ideal_positive sized small items)
    have allocated : uthashMalloc room (2 * tbl.numBuckets.toNat * sizeofBucket) = .ok () := by
      rw [uthashMalloc, if_pos free]
    unfold start at moved
    have log : (tbl.log2NumBuckets + 1).toNat = k + 1 := by
      have one : (1 : UInt32).toNat = 1 := rfl
      rw [UInt32.toNat_add, sized.log, one]
      apply Nat.mod_eq_of_lt
      omega
    simp only [allocated, bind, Except.bind, moved]
    exact ⟨_, _, chains', rfl, contents, order, filed', ⟨log, twice, size⟩, rfl, rfl⟩
  · apply Or.inl
    have refused : uthashMalloc room (2 * tbl.numBuckets.toNat * sizeofBucket)
        = .error .outOfMemory := by
      rw [uthashMalloc, if_neg free]
    simp only [refused, bind, Except.bind]

end Growing

end BearLang.HashTable
