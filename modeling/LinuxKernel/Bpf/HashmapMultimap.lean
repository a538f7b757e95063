import LinuxKernel.Bpf.Hashmap

/-!
# The hash map as a multimap

With `HASHMAP_APPEND` one key can have several entries, and what the operations
return then depends on the order of a chain. The abstract state here keeps,
for each class of keys, the list of its entries in the order of their chain. A
class is a class of the equivalence that `equal_fn` generates, so every hash
function that respects `equal_fn` keeps a class in one bucket.

The operations on these lists do not mention a hash function. The bucket array
of `hashmap.c` refines them, operation by operation.
-/

namespace LinuxKernel.Bpf

open Foundation Buckets List

variable {K V : Type}

/-- The classes of the equivalence generated by `equal_fn`. -/
def KeyClasses (equalFn : K → K → Bool) := Quot fun a b => equalFn a b = true

def classOf (equalFn : K → K → Bool) (key : K) : KeyClasses equalFn := Quot.mk _ key

variable {equalFn : K → K → Bool}

theorem exists_classOf (c : KeyClasses equalFn) : ∃ key, classOf equalFn key = c :=
  Quot.exists_rep c

/-- The entries of every class, and the numbers that decide when the bucket
array grows. -/
structure Multimap (equalFn : K → K → Bool) (V : Type) where
  entries : KeyClasses equalFn → List (HashmapEntry K V)
  cap : Nat
  capBits : Nat
  sz : Nat

inductive MultimapOp (K V : Type) where
  | insert (a : Alloc) (key : K) (value : V) (strategy : InsertStrategy)
  | delete (key : K)
  | find (key : K)
  | forEachKeyEntry (key : K)
deriving Repr, DecidableEq

inductive MultimapRet (K V : Type) where
  | inserted (ret : Int) (oldKey : Option K) (oldValue : Option V)
  | deleted (found : Bool) (oldKey : Option K) (oldValue : Option V)
  | found (value : Option V)
  | visited (entries : List (HashmapEntry K V))
deriving Repr, DecidableEq

def Hashmap.exec (f : HashFns K) (map : Hashmap K V) :
    MultimapOp K V → Hashmap K V × MultimapRet K V
  | .insert a key value strategy =>
    let r := hashmapInsert f a map key value strategy
    (r.map, .inserted r.ret r.oldKey r.oldValue)
  | .delete key =>
    let r := hashmapDelete f map key
    (r.map, .deleted r.found r.oldKey r.oldValue)
  | .find key => (map, .found (hashmapFind f map key))
  | .forEachKeyEntry key => (map, .visited (hashmapKeyEntries f map key))

def Hashmap.execAll (f : HashFns K) : List (MultimapOp K V) → Hashmap K V →
    Hashmap K V × List (MultimapRet K V)
  | [], map => (map, [])
  | op :: ops, map =>
    let r := map.exec f op
    let rest := Hashmap.execAll f ops r.1
    (rest.1, r.2 :: rest.2)

/-! ## The abstract operations -/

namespace Multimap

variable {equalFn : K → K → Bool}

def init : Multimap equalFn V := ⟨fun _ => [], 0, 0, 0⟩

def shape (m : Multimap equalFn V) : Hashmap K V := ⟨[], m.cap, m.capBits, m.sz⟩

/-- Growing turns the order of every class around. -/
def grow (ok : Bool) (m : Multimap equalFn V) : Option (Multimap equalFn V) :=
  let newCapBits :=
    if m.capBits + 1 < hashmapMinCapBits then hashmapMinCapBits else m.capBits + 1
  let newCap := 2 ^ newCapBits % sizeSpan
  if callocBuckets ok newCap then
    some { m with
      entries := fun c => (m.entries c).reverse
      cap := newCap
      capBits := newCapBits }
  else none

open Classical in
noncomputable def modify (m : Multimap equalFn V) (key : K)
    (g : List (HashmapEntry K V) → List (HashmapEntry K V)) : Multimap equalFn V :=
  { m with
    entries := Function.update m.entries (classOf equalFn key)
      (g (m.entries (classOf equalFn key))) }

variable (m : Multimap equalFn V)

theorem modify_own (key : K) (g : List (HashmapEntry K V) → List (HashmapEntry K V)) :
    (m.modify key g).entries (classOf equalFn key) = g (m.entries (classOf equalFn key)) := by
  simp [modify]

theorem modify_other {key : K} {c : KeyClasses equalFn}
    (hc : c ≠ classOf equalFn key) (g : List (HashmapEntry K V) → List (HashmapEntry K V)) :
    (m.modify key g).entries c = m.entries c := by
  simp [modify, hc]

def first (m : Multimap equalFn V) (key : K) : Option (HashmapEntry K V) :=
  (m.entries (classOf equalFn key)).find? fun e => equalFn e.key key

noncomputable def insertNew (a : Alloc) (m : Multimap equalFn V) (key : K) (value : V) :
    Multimap equalFn V × MultimapRet K V :=
  match if hashmapNeedsToGrow m.shape then m.grow a.buckets else some m with
  | none => (m, .inserted (-ENOMEM) none none)
  | some m =>
    if mallocEntry a.entry m.shape then
      ({ m.modify key (⟨key, value⟩ :: ·) with sz := (m.sz + 1) % sizeSpan }, .inserted 0 none none)
    else (m, .inserted (-ENOMEM) none none)

noncomputable def exec (m : Multimap equalFn V) :
    MultimapOp K V → Multimap equalFn V × MultimapRet K V
  | .insert a key value strategy =>
    match if strategy = .append then none else m.first key with
    | some e =>
      (if strategy = .add then m else m.modify key
          (·.replaceF fun e => if equalFn e.key key then some ⟨key, value⟩ else none),
        .inserted (if strategy = .add then -EEXIST else 0) (some e.key) (some e.value))
    | none =>
      if strategy = .update then (m, .inserted (-ENOENT) none none)
      else m.insertNew a key value
  | .delete key =>
    match m.first key with
    | some e =>
      ({ m.modify key (·.eraseP fun e => equalFn e.key key) with
          sz := (m.sz + sizeSpan - 1) % sizeSpan },
        .deleted true (some e.key) (some e.value))
    | none => (m, .deleted false none none)
  | .find key => (m, .found ((m.first key).map (·.value)))
  | .forEachKeyEntry key =>
    (m, .visited ((m.entries (classOf equalFn key)).filter fun e => equalFn e.key key))

theorem grow_spec {ok : Bool} {m m' : Multimap equalFn V} (hgrow : m.grow ok = some m') :
    (∀ c, m'.entries c = (m.entries c).reverse) ∧ m'.capBits ≠ m.capBits := by
  unfold grow at hgrow
  simp only [Option.ite_none_right_eq_some, Option.some.injEq] at hgrow
  obtain ⟨-, rfl⟩ := hgrow
  refine ⟨fun _ => rfl, ?_⟩
  dsimp only
  split <;> omega

open Classical in
/-- What an append does to a class: it turns the order around if the array grew,
and puts the new entry in front if the allocator gave one. -/
theorem insertNew_spec (a : Alloc) (m : Multimap equalFn V) (key : K) (value : V) :
    ∃ ret, (m.insertNew a key value).2 = .inserted ret none none ∧ ∀ c,
      let order := if (m.insertNew a key value).1.capBits != m.capBits
        then (m.entries c).reverse else m.entries c
      (m.insertNew a key value).1.entries c =
        if ret = 0 ∧ classOf equalFn key = c then ⟨key, value⟩ :: order else order := by
  have hlink : ∀ m' : Multimap equalFn V, ∀ c, (m'.modify key (⟨key, value⟩ :: ·)).entries c =
        if classOf equalFn key = c then ⟨key, value⟩ :: m'.entries c else m'.entries c := by
    intro m' c
    by_cases hc : classOf equalFn key = c
    · rw [if_pos hc, ← hc, modify_own]
    · rw [if_neg hc, modify_other m' (Ne.symm hc)]
  unfold insertNew
  cases hgrown : if hashmapNeedsToGrow m.shape then m.grow a.buckets else some m with
  | none => exact ⟨-ENOMEM, rfl, fun c => by simp [ENOMEM]⟩
  | some m' =>
    have horder : ∀ c, m'.entries c =
        if m'.capBits != m.capBits then (m.entries c).reverse else m.entries c := by
      split at hgrown
      · obtain ⟨hentries, hbits⟩ := grow_spec hgrown
        simp [hbits, hentries]
      · simp [Option.some.inj hgrown]
    dsimp only
    by_cases hmalloc : mallocEntry a.entry m'.shape = true
    · simp only [if_pos hmalloc]
      refine ⟨0, rfl, fun c => ?_⟩
      simp only [true_and]
      rw [hlink, horder c]
      rfl
    · simp only [if_neg hmalloc]
      refine ⟨-ENOMEM, rfl, fun c => ?_⟩
      simpa [ENOMEM] using horder c

end Multimap

/-! ## The bucket array refines the lists -/

/-- The hash does not separate keys that `equal_fn` identifies. -/
def HashFns.Compatible (f : HashFns K) : Prop :=
  ∀ a b, f.equalFn a b = true → f.hashFn a = f.hashFn b

variable {f : HashFns K}

theorem HashFns.Lawful.compatible (hf : f.Lawful) : f.Compatible :=
  hf.hash_eq

theorem HashFns.Lawful.classOf_eq_iff (hf : f.Lawful) {a b : K} :
    classOf f.equalFn a = classOf f.equalFn b ↔ f.equalFn a b = true := by
  have hrespects : ∀ x y, f.equalFn x y = true → f.equalFn x b = f.equalFn y b := by
    intro x y hxy
    rw [Bool.eq_iff_iff]
    exact ⟨hf.trans y x b (hf.symm x y hxy), hf.trans x y b hxy⟩
  constructor
  · intro h
    have heq : f.equalFn a b = f.equalFn b b :=
      congrArg (Quot.lift (fun x => f.equalFn x b) hrespects) h
    rw [heq, hf.refl]
  · exact fun h => Quot.sound h

open Classical in
noncomputable def inClass {equalFn : K → K → Bool} (c : KeyClasses equalFn)
    (e : HashmapEntry K V) : Bool :=
  decide (classOf equalFn e.key = c)

variable {e : HashmapEntry K V}

theorem inClass_eq_true {c : KeyClasses equalFn} :
    inClass c e = true ↔ classOf equalFn e.key = c := by
  simp [inClass]

theorem inClass_of_equalFn {key : K}
    (heq : equalFn e.key key = true) : inClass (classOf equalFn key) e = true :=
  inClass_eq_true.2 (Quot.sound heq)

/-- The chains of `map` hold the entries of every class in the order of `m`. -/
structure Shows (f : HashFns K) (map : Hashmap K V) (m : Multimap f.equalFn V) : Prop where
  wf : map.WF f
  entries : ∀ c, map.buckets.flatten.filter (inClass c) = m.entries c
  cap : map.cap = m.cap
  capBits : map.capBits = m.capBits
  sz : map.sz = m.sz

theorem shows_init (f : HashFns K) : Shows f (hashmapInit : Hashmap K V) Multimap.init where
  wf := wf_hashmapInit f
  entries := fun _ => rfl
  cap := rfl
  capBits := rfl
  sz := rfl

section
variable {f : HashFns K} {map : Hashmap K V} {m : Multimap f.equalFn V}
  {key : K} {e : HashmapEntry K V}

theorem HashFns.Compatible.bucketOf_eq (hf : f.Compatible) (bits : Nat)
    (he : inClass (classOf f.equalFn key) e = true) :
    bucketOf f bits e.key = bucketOf f bits key := by
  have hhash : f.hashFn e.key = f.hashFn key :=
    congrArg (Quot.lift f.hashFn hf) (inClass_eq_true.1 he)
  rw [bucketOf, bucketOf, hhash]

theorem Shows.chain (hm : Shows f map m) (hf : f.Compatible) (key : K) :
    (map.buckets.getD (bucketOf f map.capBits key) []).filter (inClass (classOf f.equalFn key)) =
      m.entries (classOf f.equalFn key) := by
  rw [← hm.entries]
  exact (filter_flatten_of_placed hm.wf.placed fun e he => hf.bucketOf_eq map.capBits he).symm

section
variable (hm : Shows f map m) (hf : f.Compatible)
include hm hf

theorem Shows.first_of_findEntry (key : K) :
    m.first key = match hashmapFindEntry f map key (bucketOf f map.capBits key) with
      | none => none
      | some i => (map.buckets.getD (bucketOf f map.capBits key) [])[i]? := by
  rw [Multimap.first, ← hm.chain hf, find?_filter_of_imp fun e he => inClass_of_equalFn he,
    hashmapFindEntry_eq_findIdx?]
  split
  next hfind => simpa using hfind
  next i hfind => exact (getElem?_of_findIdx? hfind).symm

theorem Shows.not_found {key : K}
    (hfind : hashmapFindEntry f map key (bucketOf f map.capBits key) = none) :
    m.first key = none := by
  rw [hm.first_of_findEntry hf, hfind]

theorem Shows.found {key : K} {i : Nat}
    (hfind : hashmapFindEntry f map key (bucketOf f map.capBits key) = some i) :
    ∃ chain e, map.buckets[bucketOf f map.capBits key]? = some chain ∧
      chain.findIdx? (fun e => f.equalFn e.key key) = some i ∧ chain[i]? = some e ∧
      f.equalFn e.key key = true ∧ m.first key = some e := by
  obtain ⟨chain, e, hchain, he, heq, -⟩ := hashmapFindEntry_eq_some hfind
  have hfirst := hm.first_of_findEntry hf key
  rw [hashmapFindEntry_eq_findIdx?, getD_eq_of_getElem? hchain] at hfind
  rw [hashmapFindEntry_eq_findIdx?, getD_eq_of_getElem? hchain, hfind] at hfirst
  exact ⟨chain, e, hchain, hfind, he, heq, hfirst.trans he⟩

/-- An edit of the chain of `key` that leaves the other classes alone. -/
theorem Shows.modify {key : K}
    {chain : List (HashmapEntry K V)} {g g' : List (HashmapEntry K V) → List (HashmapEntry K V)}
    {n : Nat} (hchain : map.buckets[bucketOf f map.capBits key]? = some chain) (hwf : ({ map with
      buckets := map.buckets.modify (bucketOf f map.capBits key) g, sz := n } : Hashmap K V).WF f)
    (hown : (g chain).filter (inClass (classOf f.equalFn key)) =
      g' (chain.filter (inClass (classOf f.equalFn key))))
    (hother : ∀ c, c ≠ classOf f.equalFn key →
      (g chain).filter (inClass c) = chain.filter (inClass c)) :
    Shows f { map with buckets := map.buckets.modify (bucketOf f map.capBits key) g, sz := n }
      { m.modify key g' with sz := n } where
  wf := hwf
  entries := by
    intro c
    by_cases hc : c = classOf f.equalFn key
    · subst hc
      have hclass := filter_flatten_modify hwf.placed hchain
        fun e he => hf.bucketOf_eq map.capBits he
      have hlist := hm.chain hf key
      rw [getD_eq_of_getElem? hchain] at hlist
      rw [hclass, hown, hlist]
      exact (m.modify_own key g').symm
    · refine Eq.trans ?_ (m.modify_other hc g').symm
      rw [← hm.entries c]
      exact filter_flatten_modify_of_eq hchain (hother c hc)
  cap := hm.cap
  capBits := hm.capBits
  sz := rfl

end

theorem inClass_eq_false {equalFn : K → K → Bool} {c : KeyClasses equalFn}
    (hc : c ≠ classOf equalFn key)
    (he : classOf equalFn e.key = classOf equalFn key) : inClass c e = false := by
  rw [Bool.eq_false_iff, Ne, inClass_eq_true, he]
  exact fun h => hc h.symm

section
variable {key : K} {i : Nat} (hm : Shows f map m) (hf : f.Compatible)
    (hfind : hashmapFindEntry f map key (bucketOf f map.capBits key) = some i)
include hm hf hfind

theorem Shows.set_entry {value : V} : Shows f { map with
        buckets := map.buckets.modify (bucketOf f map.capBits key) (·.set i ⟨key, value⟩) }
      (m.modify key
        (·.replaceF fun e => if f.equalFn e.key key then some ⟨key, value⟩ else none)) := by
  obtain ⟨chain, e, hchain, hidx, he, heq, -⟩ := hm.found hf hfind
  have hplaced : bucketOf f map.capBits (HashmapEntry.mk key value).key =
      bucketOf f map.capBits key := rfl
  have hwf := hm.wf.set_entry hchain he hplaced
  have hshows := hm.modify hf hchain hwf
    ((filter_edit_of_findIdx? (fun e he => inClass_of_equalFn he) hidx).1 _ (inClass_eq_true.2 rfl))
    fun c hc => filter_set_of_not he (inClass_eq_false hc (Quot.sound heq))
      (inClass_eq_false hc rfl)
  exact { hshows with sz := hm.sz }

theorem Shows.erase_entry : Shows f { map with
        buckets := map.buckets.modify (bucketOf f map.capBits key) (·.eraseIdx i)
        sz := (map.sz + sizeSpan - 1) % sizeSpan }
      { m.modify key (·.eraseP fun e => f.equalFn e.key key) with
        sz := (m.sz + sizeSpan - 1) % sizeSpan } := by
  obtain ⟨chain, e, hchain, hidx, he, heq, -⟩ := hm.found hf hfind
  rw [← hm.sz]
  exact hm.modify hf hchain (hm.wf.erase_entry hchain he)
    (filter_edit_of_findIdx? (fun e he => inClass_of_equalFn he) hidx).2
    fun c hc => filter_eraseIdx_of_not he (inClass_eq_false hc (Quot.sound heq))

end

theorem Shows.needsToGrow (hm : Shows f map m) :
    hashmapNeedsToGrow map = hashmapNeedsToGrow m.shape := by
  have hcap : map.cap = m.shape.cap := hm.cap
  have hsz : map.sz = m.shape.sz := hm.sz
  rw [hashmapNeedsToGrow, hcap, hsz, hashmapNeedsToGrow]

theorem Shows.mallocEntry (hm : Shows f map m) (ok : Bool) :
    Bpf.mallocEntry ok map = Bpf.mallocEntry ok m.shape := by
  have hsz : map.sz = m.shape.sz := hm.sz
  rw [Bpf.mallocEntry, hsz, Bpf.mallocEntry]

section
variable (hm : Shows f map m) (hf : f.Compatible)
include hm hf

theorem Shows.grow (ok : Bool) : Option.Rel (Shows f) (hashmapGrow f ok map) (m.grow ok) := by
  unfold Multimap.grow
  cases hgrow : hashmapGrow f ok map with
  | none =>
    unfold hashmapGrow at hgrow
    rw [hm.capBits] at hgrow
    simp only [ite_eq_right_iff, reduceCtorEq, imp_false] at hgrow
    rw [if_neg hgrow]
    exact Option.Rel.none
  | some map' =>
    obtain ⟨hwf', -, hpos⟩ := hashmapGrow_spec hm.wf hgrow
    unfold hashmapGrow at hgrow
    rw [hm.capBits] at hgrow
    simp only [Option.ite_none_right_eq_some, Option.some.injEq] at hgrow
    obtain ⟨hcalloc, rfl⟩ := hgrow
    rw [if_pos hcalloc]
    generalize (if m.capBits + 1 < hashmapMinCapBits then hashmapMinCapBits
      else m.capBits + 1) = bits at *
    have hlt : ∀ e ∈ map.buckets.flatten, bucketOf f bits e.key < 2 ^ bits % sizeSpan :=
      fun e _ => (bucketOf_lt hwf' hpos e.key).trans_eq hwf'.length_buckets
    refine Option.Rel.some ⟨hwf', fun c => ?_, rfl, rfl, hm.sz⟩
    obtain ⟨key, rfl⟩ := exists_classOf c
    dsimp only
    rw [← hm.entries]
    exact filter_flatten_rehash hlt fun e he => hf.bucketOf_eq bits he

theorem Shows.place (hcap : 0 < map.cap) {key : K} {value : V} {n : Nat} (hwf : ({ map with
      buckets := place map.buckets (bucketOf f map.capBits key) ⟨key, value⟩
      sz := n } : Hashmap K V).WF f) :
    Shows f
      { map with
        buckets := place map.buckets (bucketOf f map.capBits key) ⟨key, value⟩
        sz := n }
      { m.modify key (⟨key, value⟩ :: ·) with sz := n } := by
  have hlt := bucketOf_lt hm.wf hcap key
  apply hm.modify hf (getElem?_eq_getElem hlt) hwf
  · have hin : inClass (classOf f.equalFn key) (⟨key, value⟩ : HashmapEntry K V) = true :=
      inClass_eq_true.2 rfl
    rw [filter_cons_of_pos hin]
  · intro c hc
    have hnot : inClass c (⟨key, value⟩ : HashmapEntry K V) = false := inClass_eq_false hc rfl
    rw [filter_cons_of_neg (by simp [hnot])]

theorem Shows.insertNew (a : Alloc) (key : K) (value : V) :
    let r := hashmapInsertNew f a map key value
    Shows f r.map (m.insertNew a key value).1 ∧
      .inserted r.ret r.oldKey r.oldValue = (m.insertNew a key value).2 := by
  have hgrow : Option.Rel (Shows f)
      (if hashmapNeedsToGrow map then hashmapGrow f a.buckets map else some map)
      (if hashmapNeedsToGrow m.shape then m.grow a.buckets else some m) := by
    rw [hm.needsToGrow]
    split
    · exact hm.grow hf a.buckets
    · exact Option.Rel.some hm
  have hspec := (hashmapInsertNew_spec a hm.wf key value).1
  unfold hashmapInsertNew Multimap.insertNew at *
  cases hgrown : if hashmapNeedsToGrow map then hashmapGrow f a.buckets map else some map with
  | none =>
    rw [hgrown] at hgrow
    generalize (if hashmapNeedsToGrow m.shape then m.grow a.buckets else some m) = after at hgrow ⊢
    cases hgrow
    exact ⟨hm, rfl⟩
  | some map' =>
    rw [hgrown] at hgrow hspec
    have hcap := (grown_spec hm.wf hgrown).2.2
    generalize (if hashmapNeedsToGrow m.shape then m.grow a.buckets else some m) = after at hgrow ⊢
    cases hgrow with
    | some hm' =>
      dsimp only at hspec ⊢
      rw [← hm'.mallocEntry, ← hm'.sz]
      by_cases hmalloc : Bpf.mallocEntry a.entry map' = true
      · rw [if_pos hmalloc] at hspec ⊢
        rw [if_pos hmalloc]
        exact ⟨hm'.place hf hcap hspec, rfl⟩
      · rw [if_neg hmalloc, if_neg hmalloc]
        exact ⟨hm', rfl⟩

theorem Shows.insert (a : Alloc) (key : K) (value : V) (strategy : InsertStrategy) :
    let op := MultimapOp.insert a key value strategy
    Shows f (map.exec f op).1 (m.exec op).1 ∧ (map.exec f op).2 = (m.exec op).2 := by
  simp only [Hashmap.exec, Multimap.exec, hashmapInsert]
  by_cases happend : strategy = .append
  · subst happend
    exact hm.insertNew hf a key value
  simp only [if_neg happend]
  cases hfind : hashmapFindEntry f map key (bucketOf f map.capBits key) with
  | none =>
    simp only [hm.not_found hf hfind]
    by_cases hupdate : strategy = .update
    · simp only [if_pos hupdate]
      exact ⟨hm, trivial⟩
    · simp only [if_neg hupdate]
      exact hm.insertNew hf a key value
  | some i =>
    obtain ⟨chain, e, hchain, -, he, -, hfirst⟩ := hm.found hf hfind
    simp only [hfirst, getD_eq_of_getElem? hchain, he]
    by_cases hadd : strategy = .add
    · simp only [if_pos hadd]
      exact ⟨hm, rfl⟩
    · simp only [if_neg hadd]
      exact ⟨hm.set_entry hf hfind, rfl⟩

theorem Shows.delete (key : K) :
    let op := MultimapOp.delete key
    Shows f (map.exec f op).1 (m.exec op).1 ∧ (map.exec f op).2 = (m.exec op).2 := by
  simp only [Hashmap.exec, Multimap.exec, hashmapDelete]
  cases hfind : hashmapFindEntry f map key (bucketOf f map.capBits key) with
  | none =>
    simp only [hm.not_found hf hfind]
    exact ⟨hm, trivial⟩
  | some i =>
    obtain ⟨chain, e, hchain, -, he, -, hfirst⟩ := hm.found hf hfind
    simp only [hfirst, getD_eq_of_getElem? hchain, he]
    exact ⟨hm.erase_entry hf hfind, rfl⟩

theorem Shows.hashmapFind (key : K) : Bpf.hashmapFind f map key = (m.first key).map (·.value) := by
  rw [hm.first_of_findEntry hf, Bpf.hashmapFind]
  cases hashmapFindEntry f map key (bucketOf f map.capBits key) <;> rfl

theorem Shows.hashmapKeyEntries (key : K) : Bpf.hashmapKeyEntries f map key =
      (m.entries (classOf f.equalFn key)).filter fun e => f.equalFn e.key key := by
  have hchain : Bpf.hashmapKeyEntries f map key =
      (map.buckets.getD (bucketOf f map.capBits key) []).filter fun e => f.equalFn e.key key := by
    unfold Bpf.hashmapKeyEntries
    cases map.buckets with
    | nil => rfl
    | cons b bs => rfl
  rw [hchain, ← hm.chain hf, filter_filter]
  apply filter_congr
  intro e _
  by_cases heq : f.equalFn e.key key = true
  · rw [inClass_of_equalFn heq, Bool.and_true]
  · simp [heq]

/-- Every operation returns what it returns on the lists, and leaves chains that
show the lists it leaves. -/
theorem Shows.exec (op : MultimapOp K V) :
    Shows f (map.exec f op).1 (m.exec op).1 ∧ (map.exec f op).2 = (m.exec op).2 := by
  cases op with
  | insert a key value strategy => exact hm.insert hf a key value strategy
  | delete key => exact hm.delete hf key
  | find key => exact ⟨hm, congrArg MultimapRet.found (hm.hashmapFind hf key)⟩
  | forEachKeyEntry key => exact ⟨hm, congrArg MultimapRet.visited (hm.hashmapKeyEntries hf key)⟩

end

end

/-- Runs of the same operations on chains that show the same lists return the
same, whatever the two hash functions are. -/
theorem execAll_eq_of_shows {hash₁ hash₂ : K → BitVec 64}
    (hf₁ : HashFns.Compatible ⟨hash₁, equalFn⟩) (hf₂ : HashFns.Compatible ⟨hash₂, equalFn⟩)
    (ops : List (MultimapOp K V)) {map₁ map₂ : Hashmap K V} {m : Multimap equalFn V}
    (hm₁ : Shows ⟨hash₁, equalFn⟩ map₁ m) (hm₂ : Shows ⟨hash₂, equalFn⟩ map₂ m) :
    (Hashmap.execAll ⟨hash₁, equalFn⟩ ops map₁).2 =
      (Hashmap.execAll ⟨hash₂, equalFn⟩ ops map₂).2 := by
  induction ops generalizing map₁ map₂ m with
  | nil => rfl
  | cons op ops ih =>
    have hstep₁ := hm₁.exec hf₁ op
    have hstep₂ := hm₂.exec hf₂ op
    simp only [Hashmap.execAll]
    rw [hstep₁.2, hstep₂.2, ih hstep₁.1 hstep₂.1]

end LinuxKernel.Bpf
