import LinuxKernel.Foundation.Buckets

/-!
# The libbpf hash map

`tools/lib/bpf/hashmap.c`: a chained hash table whose bucket array doubles when
it is more than 75% full. A chain of `struct hashmap_entry` linked by `next` is
a list, and a `NULL` bucket array is the empty list of chains.

The hash and equality callbacks are passed to every operation, as the C code
passes its `ctx` to them: the string set uses callbacks that read memory which
changes between two calls.
-/

namespace LinuxKernel.Bpf

open Foundation List Buckets Nat

/-- Number of values of a `size_t`, and of addresses, on LP64. -/
def sizeSpan : Nat := 2 ^ 64

def EEXIST : Int := 17
def ENOENT : Int := 2
def ENOMEM : Int := 12

def hashBits (h : BitVec 64) (bits : Nat) : Nat :=
  if bits = 0 then 0
  else ((h * 11400714819323198485#64) >>> (64 - bits)).toNat

/-- `hashmap_hash_fn` and `hashmap_equal_fn`, with their `ctx` argument applied. -/
structure HashFns (K : Type) where
  hashFn : K → BitVec 64
  equalFn : K → K → Bool

structure HashmapEntry (K V : Type) where
  key : K
  value : V
deriving Repr, DecidableEq

structure Hashmap (K V : Type) where
  buckets : List (List (HashmapEntry K V))
  cap : Nat
  capBits : Nat
  sz : Nat
deriving Repr, DecidableEq

inductive InsertStrategy where
  | add | set | update | append
deriving Repr, DecidableEq

/-- What the allocator answers to the `calloc` of a bucket array and to the
`malloc` of an entry, should an insertion ask for them. -/
structure Alloc where
  buckets : Bool := true
  entry : Bool := true
deriving Repr, DecidableEq

structure InsertResult (K V : Type) where
  map : Hashmap K V
  ret : Int
  /-- `*old_key`; `none` stands for the 0 stored when no entry was found -/
  oldKey : Option K := none
  oldValue : Option V := none
deriving Repr, DecidableEq

structure DeleteResult (K V : Type) where
  map : Hashmap K V
  found : Bool
  oldKey : Option K := none
  oldValue : Option V := none
deriving Repr, DecidableEq

variable {K V : Type}

def hashmapInit : Hashmap K V := ⟨[], 0, 0, 0⟩

def hashmapMinCapBits : Nat := 2

def hashmapNeedsToGrow (map : Hashmap K V) : Bool :=
  map.cap == 0 || decide (map.cap < (map.sz + 1) % sizeSpan * 4 % sizeSpan / 3)

/-- A `calloc` of `cap` pointers: refused by the allocator, or because the
array does not fit the address space. -/
def callocBuckets (ok : Bool) (cap : Nat) : Bool :=
  ok && decide (8 * cap ≤ sizeSpan)

/-- A `malloc` of a further `struct hashmap_entry`, 24 bytes each. -/
def mallocEntry (ok : Bool) (map : Hashmap K V) : Bool :=
  ok && decide (24 * (map.sz + 1) ≤ sizeSpan)

def bucketOf (f : HashFns K) (bits : Nat) (key : K) : Nat :=
  hashBits (f.hashFn key) bits

/-- `hashmap_grow`; `none` is `-ENOMEM`. The old chains are walked bucket by
bucket, and each entry is linked in front of its new chain. -/
def hashmapGrow (f : HashFns K) (ok : Bool) (map : Hashmap K V) : Option (Hashmap K V) :=
  let newCapBits :=
    if map.capBits + 1 < hashmapMinCapBits then hashmapMinCapBits else map.capBits + 1
  let newCap := 2 ^ newCapBits % sizeSpan
  if callocBuckets ok newCap then
    some { map with
      buckets := Buckets.rehash (fun e => bucketOf f newCapBits e.key) newCap map.buckets.flatten
      cap := newCap
      capBits := newCapBits }
  else none

/-- The position in chain `hash` of the first entry whose
key is equal to `key`. -/
def hashmapFindEntry (f : HashFns K) (map : Hashmap K V) (key : K) (hash : Nat) : Option Nat :=
  if map.buckets.isEmpty then none
  else (map.buckets.getD hash []).findIdx? fun e => f.equalFn e.key key

/-- The part of `hashmap_insert` that follows the search: grow if necessary and
link a new entry. -/
def hashmapInsertNew (f : HashFns K) (a : Alloc) (map : Hashmap K V) (key : K)
    (value : V) : InsertResult K V :=
  let grown := if hashmapNeedsToGrow map then hashmapGrow f a.buckets map else some map
  match grown with
  | none => { map := map, ret := -ENOMEM }
  | some map =>
    if mallocEntry a.entry map then
      { map := { map with
          buckets := Buckets.place map.buckets (bucketOf f map.capBits key) ⟨key, value⟩
          sz := (map.sz + 1) % sizeSpan }
        ret := 0 }
    else { map := map, ret := -ENOMEM }

def hashmapInsert (f : HashFns K) (a : Alloc) (map : Hashmap K V) (key : K)
    (value : V) (strategy : InsertStrategy) : InsertResult K V :=
  let h := bucketOf f map.capBits key
  let found := if strategy = .append then none else hashmapFindEntry f map key h
  match found with
  | some i =>
    let entry := (map.buckets.getD h [])[i]?
    if strategy = .add then
      { map := map, ret := -EEXIST
        oldKey := entry.map (·.key), oldValue := entry.map (·.value) }
    else
      { map := { map with
          buckets := map.buckets.modify h fun chain => chain.set i ⟨key, value⟩ }
        ret := 0
        oldKey := entry.map (·.key), oldValue := entry.map (·.value) }
  | none =>
    if strategy = .update then { map := map, ret := -ENOENT }
    else hashmapInsertNew f a map key value

/-- `hashmap_find`: `none` is `false`, `some v` is `true` with `*value = v`. -/
def hashmapFind (f : HashFns K) (map : Hashmap K V) (key : K) : Option V :=
  let h := bucketOf f map.capBits key
  match hashmapFindEntry f map key h with
  | none => none
  | some i => (map.buckets.getD h [])[i]?.map (·.value)

def hashmapKeyEntries (f : HashFns K) (map : Hashmap K V) (key : K) : List (HashmapEntry K V) :=
  if map.buckets.isEmpty then []
  else (map.buckets.getD (bucketOf f map.capBits key) []).filter fun e => f.equalFn e.key key

def hashmapDelete (f : HashFns K) (map : Hashmap K V) (key : K) : DeleteResult K V :=
  let h := bucketOf f map.capBits key
  match hashmapFindEntry f map key h with
  | none => { map := map, found := false }
  | some i =>
    let entry := (map.buckets.getD h [])[i]?
    { map := { map with
        buckets := map.buckets.modify h fun chain => chain.eraseIdx i
        sz := (map.sz + sizeSpan - 1) % sizeSpan }
      found := true
      oldKey := entry.map (·.key), oldValue := entry.map (·.value) }

/-! ## The shape of a hash map -/

/-- What every operation keeps: the bucket array is `NULL` or has `2 ^ capBits`
chains, every entry sits in the chain of its key, and `sz` counts the entries. -/
structure Hashmap.WF (f : HashFns K) (map : Hashmap K V) : Prop where
  length_buckets : map.buckets.length = map.cap
  cap_eq : map.cap = 0 ∧ map.capBits = 0 ∨ map.cap = 2 ^ map.capBits ∧ map.capBits ≤ 61
  placed : Buckets.Placed (fun e => bucketOf f map.capBits e.key) map.buckets
  sz_eq : map.sz = map.buckets.flatten.length
  fits : 24 * map.sz ≤ sizeSpan

/-- The equality is an equivalence, and the hash does not separate equal keys. -/
structure HashFns.Lawful (f : HashFns K) : Prop where
  refl : ∀ a, f.equalFn a a = true
  symm : ∀ a b, f.equalFn a b = true → f.equalFn b a = true
  trans : ∀ a b c, f.equalFn a b = true → f.equalFn b c = true → f.equalFn a c = true
  hash_eq : ∀ a b, f.equalFn a b = true → f.hashFn a = f.hashFn b

/-- The callbacks of the BTF deduplicator: `btf_dedup_identity_hash_fn` and
`btf_dedup_equal_fn`. -/
def identityFns : HashFns (BitVec 64) where
  hashFn key := key
  equalFn k1 k2 := k1 == k2

theorem identityFns_lawful : identityFns.Lawful where
  refl a := by simp [identityFns]
  symm a b h := by
    obtain rfl : a = b := by simpa [identityFns] using h
    exact h
  trans a b c hab hbc := by simp_all [identityFns]
  hash_eq a b h := by simpa [identityFns] using h

theorem hashBits_lt (h : BitVec 64) {bits : Nat} (hbits : bits ≤ 64) :
    hashBits h bits < 2 ^ bits := by
  unfold hashBits
  split
  · exact Nat.two_pow_pos bits
  rw [BitVec.toNat_ushiftRight, shiftRight_eq_div_pow,
    Nat.div_lt_iff_lt_mul (Nat.two_pow_pos _), ← pow_add]
  have hexp : bits + (64 - bits) = 64 := by omega
  rw [hexp]
  exact BitVec.isLt _

theorem wf_hashmapInit (f : HashFns K) : (hashmapInit : Hashmap K V).WF f where
  length_buckets := rfl
  cap_eq := .inl ⟨rfl, rfl⟩
  placed := by intro i chain hchain; simp [hashmapInit] at hchain
  sz_eq := rfl
  fits := by simp [hashmapInit]

/-! ## Searching a chain -/

variable {h : Nat} {chain : List (HashmapEntry K V)}

theorem getD_eq_of_getElem? {bs : List (List (HashmapEntry K V))} (hchain : bs[h]? = some chain) :
    bs.getD h [] = chain := by
  simp [getD_eq_getElem?_getD, hchain]

variable {f : HashFns K} {map : Hashmap K V} {key : K}

theorem hashmapFindEntry_eq_findIdx? (f : HashFns K) (map : Hashmap K V) (key : K) (h : Nat) :
    hashmapFindEntry f map key h =
      (map.buckets.getD h []).findIdx? fun e => f.equalFn e.key key := by
  unfold hashmapFindEntry
  cases hb : map.buckets with
  | nil => simp
  | cons b bs => rfl

theorem hashmapFindEntry_eq_none (hf : f.Lawful) (hwf : map.WF f)
    (hfind : hashmapFindEntry f map key (bucketOf f map.capBits key) = none) :
    ∀ e ∈ map.buckets.flatten, f.equalFn e.key key = false := by
  intro e he
  by_contra hne
  have heq : f.equalFn e.key key = true := by simpa using hne
  obtain ⟨chain, hchain, hmem⟩ := mem_chain_of_placed hwf.placed he
  have hidx : bucketOf f map.capBits e.key = bucketOf f map.capBits key := by
    rw [bucketOf, bucketOf, hf.hash_eq _ _ heq]
  rw [hidx] at hchain
  rw [hashmapFindEntry_eq_findIdx?, getD_eq_of_getElem? hchain, findIdx?_eq_none_iff] at hfind
  exact absurd heq (by simpa using hfind e hmem)

variable {i : Nat}

theorem hashmapFindEntry_eq_some (hfind : hashmapFindEntry f map key h = some i) :
    ∃ chain e, map.buckets[h]? = some chain ∧ chain[i]? = some e ∧ f.equalFn e.key key = true ∧
      e ∈ map.buckets.flatten ∧ (map.buckets.getD h [])[i]? = some e := by
  rw [hashmapFindEntry_eq_findIdx?] at hfind
  obtain ⟨hi, heq, -⟩ := findIdx?_eq_some_iff_getElem.mp hfind
  cases hb : map.buckets[h]? with
  | none => simp [getD_eq_getElem?_getD, hb] at hi
  | some chain =>
    have hchain := getD_eq_of_getElem? hb
    simp only [hchain] at hi heq
    have he := getElem?_eq_getElem hi
    exact ⟨chain, _, rfl, he, heq, mem_flatten_of_getElem? hb (mem_of_getElem? he), hchain ▸ he⟩

/-! ## Editing the entry that was found -/

theorem Hashmap.WF.set_entry (hwf : map.WF f) {e e' : HashmapEntry K V}
    (hchain : map.buckets[h]? = some chain) (he : chain[i]? = some e)
    (hidx : bucketOf f map.capBits e'.key = h) :
    ({ map with buckets := map.buckets.modify h fun chain => chain.set i e' } :
      Hashmap K V).WF f where
  length_buckets := by simpa using hwf.length_buckets
  cap_eq := hwf.cap_eq
  placed := by
    refine hwf.placed.modify fun old hold x hx => ?_
    rcases mem_or_eq_of_mem_set hx with hx | rfl
    · exact hwf.placed h old hold x hx
    · exact hidx
  sz_eq := by
    obtain ⟨l, r, hflat, hset⟩ := flatten_modify_set hchain he
    rw [hset, hwf.sz_eq, hflat]
    simp
  fits := hwf.fits

theorem Hashmap.WF.erase_entry (hwf : map.WF f) {e : HashmapEntry K V}
    (hchain : map.buckets[h]? = some chain) (he : chain[i]? = some e) : ({ map with
        buckets := map.buckets.modify h fun chain => chain.eraseIdx i
        sz := (map.sz + sizeSpan - 1) % sizeSpan } : Hashmap K V).WF f := by
  have hlen := (flatten_modify_eraseIdx hchain he).length_eq
  rw [← hwf.sz_eq, length_cons] at hlen
  have hfits := hwf.fits
  have hsz : (map.sz + sizeSpan - 1) % sizeSpan = map.sz - 1 := by
    have hsum : map.sz + sizeSpan - 1 = sizeSpan + (map.sz - 1) := by omega
    rw [hsum, add_mod_left, mod_eq_of_lt (by omega)]
  refine ⟨by simpa using hwf.length_buckets, hwf.cap_eq, ?_, ?_, ?_⟩
  · refine hwf.placed.modify fun old hold x hx => ?_
    exact hwf.placed h old hold x (mem_of_mem_eraseIdx hx)
  · dsimp only
    omega
  · dsimp only
    omega

/-! ## Growing -/

theorem hashmapGrow_spec {ok : Bool} {map' : Hashmap K V}
    (hwf : map.WF f) (hgrow : hashmapGrow f ok map = some map') :
    map'.WF f ∧ map'.buckets.flatten.Perm map.buckets.flatten ∧ 0 < map'.cap := by
  simp only [hashmapGrow] at hgrow
  generalize hbits : (if map.capBits + 1 < hashmapMinCapBits then hashmapMinCapBits
    else map.capBits + 1) = bits at hgrow
  have hbound : bits ≤ 62 := by
    have hcap := hwf.cap_eq
    unfold hashmapMinCapBits at hbits
    split at hbits <;> omega
  split at hgrow
  next hcalloc =>
    obtain rfl := (Option.some.inj hgrow).symm
    have hpow : 2 ^ bits % sizeSpan = 2 ^ bits := by
      apply mod_eq_of_lt
      exact Nat.pow_lt_pow_right (by omega) (by omega)
    have hlt : ∀ e ∈ map.buckets.flatten, bucketOf f bits e.key < 2 ^ bits :=
      fun e _ => hashBits_lt _ (by omega)
    have hbits61 : bits ≤ 61 := by
      simp only [callocBuckets, hpow, Bool.and_eq_true, decide_eq_true_eq] at hcalloc
      have hle : 2 ^ (bits + 3) ≤ 2 ^ 64 := by
        rw [pow_add, mul_comm]
        exact hcalloc.2
      have := (Nat.pow_le_pow_iff_right (by omega)).mp hle
      omega
    refine ⟨⟨?_, .inr ⟨hpow, hbits61⟩, ?_, ?_, hwf.fits⟩, ?_, ?_⟩
    · simpa [hpow] using length_rehash hlt
    · simpa [hpow] using placed_rehash hlt
    · simpa [hpow] using hwf.sz_eq.trans (flatten_rehash_perm hlt).length_eq.symm
    · simpa [hpow] using flatten_rehash_perm hlt
    · simpa only [hpow] using Nat.two_pow_pos bits
  · simp at hgrow

theorem grown_spec {ok : Bool} {map' : Hashmap K V} (hwf : map.WF f)
    (hgrown : (if hashmapNeedsToGrow map then hashmapGrow f ok map else some map) = some map') :
    map'.WF f ∧ map'.buckets.flatten.Perm map.buckets.flatten ∧ 0 < map'.cap := by
  split at hgrown
  · exact hashmapGrow_spec hwf hgrown
  next hneed =>
    cases hgrown
    refine ⟨hwf, Perm.refl _, ?_⟩
    simp only [hashmapNeedsToGrow, Bool.or_eq_true, beq_iff_eq, decide_eq_true_eq, not_or] at hneed
    omega

theorem bucketOf_lt (hwf : map.WF f)
    (hcap : 0 < map.cap) (key : K) : bucketOf f map.capBits key < map.buckets.length := by
  rcases hwf.cap_eq with ⟨h0, -⟩ | ⟨hpow, hbits⟩
  · omega
  · rw [hwf.length_buckets, hpow]
    exact hashBits_lt _ (by omega)

/-- A new entry is linked, or the allocator refused and the entries are as
they were. -/
theorem hashmapInsertNew_spec (a : Alloc) (hwf : map.WF f) (key : K) (value : V) :
    let r := hashmapInsertNew f a map key value
    r.map.WF f ∧
      (r.ret = 0 ∧ r.map.buckets.flatten.Perm (⟨key, value⟩ :: map.buckets.flatten) ∨
        r.ret = -ENOMEM ∧ r.map.buckets.flatten.Perm map.buckets.flatten) := by
  unfold hashmapInsertNew
  generalize hgrown : (if hashmapNeedsToGrow map then hashmapGrow f a.buckets map
    else some map) = grown
  cases grown with
  | none => exact ⟨hwf, .inr ⟨rfl, Perm.refl _⟩⟩
  | some map' =>
    obtain ⟨hwf', hperm, hcap⟩ := grown_spec hwf hgrown
    have hlt := bucketOf_lt hwf' hcap key
    dsimp only
    split
    next hmalloc =>
      have hplace := flatten_place_perm hlt (⟨key, value⟩ : HashmapEntry K V)
      simp only [mallocEntry, Bool.and_eq_true, decide_eq_true_eq] at hmalloc
      have hsz : (map'.sz + 1) % sizeSpan = map'.sz + 1 := by
        apply mod_eq_of_lt
        omega
      refine ⟨⟨?_, hwf'.cap_eq, ?_, ?_, ?_⟩, .inl ⟨rfl, hplace.trans (hperm.cons _)⟩⟩
      · simpa using hwf'.length_buckets
      · exact hwf'.placed.place
      · rw [hplace.length_eq, length_cons, ← hwf'.sz_eq]
        exact hsz
      · simpa only [hsz] using hmalloc.2
    · exact ⟨hwf', .inr ⟨rfl, hperm⟩⟩

/-- An allocator that grants everything links the entry, in a map that is not astronomically
large. -/
theorem hashmapInsertNew_granted (hwf : map.WF f) (hsz : map.sz ≤ 2 ^ 32) (key : K) (value : V) :
    (hashmapInsertNew f {} map key value).ret = 0 := by
  have hgrown : ∃ map', (if hashmapNeedsToGrow map then hashmapGrow f true map else some map) =
      some map' ∧ map'.sz = map.sz := by
    split
    next hneed =>
      have hbits : map.capBits ≤ 40 := by
        rcases hwf.cap_eq with ⟨-, h0⟩ | ⟨hpow, -⟩
        · omega
        · simp only [hashmapNeedsToGrow, Bool.or_eq_true, beq_iff_eq, decide_eq_true_eq] at hneed
          unfold sizeSpan at hneed
          have hlt : 2 ^ map.capBits < 2 ^ 40 := by omega
          exact ((Nat.pow_lt_pow_iff_right (by omega)).1 hlt).le
      unfold hashmapGrow callocBuckets hashmapMinCapBits
      generalize hnew : (if map.capBits + 1 < 2 then 2 else map.capBits + 1) = bits
      have hle : 2 ^ bits ≤ 2 ^ 41 := by
        refine Nat.pow_le_pow_right (by omega) ?_
        split at hnew <;> omega
      have hfits : 8 * (2 ^ bits % sizeSpan) ≤ sizeSpan := by
        have hmod := mod_le (2 ^ bits) sizeSpan
        unfold sizeSpan at hmod ⊢
        omega
      rw [if_pos (by simpa using hfits)]
      exact ⟨_, rfl, rfl⟩
    · exact ⟨map, rfl, rfl⟩
  obtain ⟨map', hgrown, hsz'⟩ := hgrown
  have hmalloc : mallocEntry true map' = true := by
    simp only [mallocEntry, Bool.true_and, decide_eq_true_eq]
    unfold sizeSpan
    omega
  simp only [hashmapInsertNew, hgrown, hmalloc, if_true]

theorem hashmapInsert_mem (a : Alloc) (hwf : map.WF f)
    (key : K) (value : V) (strategy : InsertStrategy) :
    let r := hashmapInsert f a map key value strategy
    r.map.WF f ∧ ∀ e ∈ r.map.buckets.flatten, e = ⟨key, value⟩ ∨ e ∈ map.buckets.flatten := by
  unfold hashmapInsert
  simp only
  split
  next i hfind =>
    split
    · exact ⟨hwf, fun e he => .inr he⟩
    have hfind' : hashmapFindEntry f map key (bucketOf f map.capBits key) = some i := by
      split at hfind
      · simp at hfind
      · exact hfind
    obtain ⟨chain, e, hchain, he, -⟩ := hashmapFindEntry_eq_some hfind'
    obtain ⟨l, r, hflat, hset⟩ := flatten_modify_set hchain he
    refine ⟨hwf.set_entry hchain he rfl, fun e' he' => ?_⟩
    rw [hset] at he'
    rw [hflat]
    simp only [mem_append, mem_cons] at he' ⊢
    tauto
  · split
    · exact ⟨hwf, fun e he => .inr he⟩
    · obtain ⟨hwf', ⟨-, hperm⟩ | ⟨-, hperm⟩⟩ := hashmapInsertNew_spec a hwf key value
      · exact ⟨hwf', fun e he => mem_cons.1 (hperm.mem_iff.1 he)⟩
      · exact ⟨hwf', fun e he => .inr (hperm.mem_iff.1 he)⟩

theorem hashmapFind_mem {value : V} (h : hashmapFind f map key = some value) :
    ∃ e ∈ map.buckets.flatten, e.value = value := by
  unfold hashmapFind at h
  simp only at h
  split at h
  · simp at h
  next i hfind =>
    obtain ⟨chain, e, -, -, -, hmem, he⟩ := hashmapFindEntry_eq_some hfind
    rw [he] at h
    exact ⟨e, hmem, by simpa using h⟩

/-! ## Searching and adding by the entries there are -/

theorem Hashmap.WF.congr {g : HashFns K} (hwf : map.WF f)
    (hhash : ∀ e ∈ map.buckets.flatten, g.hashFn e.key = f.hashFn e.key) : map.WF g where
  length_buckets := hwf.length_buckets
  cap_eq := hwf.cap_eq
  placed := by
    intro i chain hchain e he
    have hmem := mem_flatten_of_getElem? hchain he
    show hashBits (g.hashFn e.key) map.capBits = i
    rw [hhash e hmem]
    exact hwf.placed i chain hchain e he
  sz_eq := hwf.sz_eq
  fits := hwf.fits

theorem hashmapFind_cases (hf : f.Lawful) (hwf : map.WF f) (key : K) :
    (∃ e ∈ map.buckets.flatten, f.equalFn e.key key = true ∧ hashmapFind f map key = some e.value) ∨
      (∀ e ∈ map.buckets.flatten, f.equalFn e.key key = false) ∧ hashmapFind f map key = none := by
  simp only [hashmapFind]
  cases hfind : hashmapFindEntry f map key (bucketOf f map.capBits key) with
  | none => exact .inr ⟨hashmapFindEntry_eq_none hf hwf hfind, rfl⟩
  | some i =>
    obtain ⟨chain, e, -, -, heq, hmem, he⟩ := hashmapFindEntry_eq_some hfind
    exact .inl ⟨e, hmem, heq, by simp only [he, Option.map_some]⟩

theorem hashmapInsert_add_cases (hf : f.Lawful) (a : Alloc) (hwf : map.WF f) (key : K) (value : V) :
    let r := hashmapInsert f a map key value .add
    (∃ e ∈ map.buckets.flatten, f.equalFn e.key key = true ∧
        r.map = map ∧ r.ret = -EEXIST ∧ r.oldKey = some e.key) ∨
      (∀ e ∈ map.buckets.flatten, f.equalFn e.key key = false) ∧ r.map.WF f ∧
        (r.ret = 0 ∧ r.map.buckets.flatten.Perm (⟨key, value⟩ :: map.buckets.flatten) ∨
          r.ret = -ENOMEM ∧ r.map.buckets.flatten.Perm map.buckets.flatten) := by
  simp only [hashmapInsert, reduceCtorEq, if_false, if_true]
  cases hfind : hashmapFindEntry f map key (bucketOf f map.capBits key) with
  | none =>
    exact .inr ⟨hashmapFindEntry_eq_none hf hwf hfind, hashmapInsertNew_spec a hwf key value⟩
  | some i =>
    obtain ⟨chain, e, -, -, heq, hmem, he⟩ := hashmapFindEntry_eq_some hfind
    exact .inl ⟨e, hmem, heq, rfl, rfl, by simp only [he, Option.map_some]⟩

theorem hashmapInsert_add_granted (hwf : map.WF f) (hsz : map.sz ≤ 2 ^ 32) (key : K) (value : V) :
    (hashmapInsert f {} map key value .add).ret ≠ -ENOMEM := by
  simp only [hashmapInsert, reduceCtorEq, if_false, if_true]
  cases hashmapFindEntry f map key (bucketOf f map.capBits key) with
  | none =>
    rw [hashmapInsertNew_granted hwf hsz]
    decide
  | some i =>
    show -EEXIST ≠ -ENOMEM
    decide

end LinuxKernel.Bpf
