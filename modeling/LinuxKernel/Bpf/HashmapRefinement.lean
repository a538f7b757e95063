import LinuxKernel.Bpf.Hashmap

/-!
# The hash map refines a finite map

A key of the abstract map is a class of keys that `equal_fn` identifies, and
the map itself is a `Finmap`. `Refines` relates a hash map to it through the
entries of all chains, and each operation is a step of the simulation.
-/

namespace LinuxKernel.Bpf

open Foundation List

variable {K V : Type}

/-! ## The abstract map -/

def HashFns.setoid (f : HashFns K) (hf : f.Lawful) : Setoid K where
  r a b := f.equalFn a b = true
  iseqv := ⟨hf.refl, fun h => hf.symm _ _ h, fun h h' => hf.trans _ _ _ h h'⟩

def KeyClass (f : HashFns K) (hf : f.Lawful) : Type := Quotient (f.setoid hf)

def keyClass {f : HashFns K} (hf : f.Lawful) (key : K) : KeyClass f hf :=
  Quotient.mk (f.setoid hf) key

instance (f : HashFns K) (hf : f.Lawful) : DecidableEq (KeyClass f hf) :=
  have : DecidableRel (f.setoid hf).r :=
    fun a b => inferInstanceAs (Decidable (f.equalFn a b = true))
  inferInstanceAs (DecidableEq (Quotient (f.setoid hf)))

theorem keyClass_eq_iff {f : HashFns K} (hf : f.Lawful) {a b : K} :
    keyClass hf a = keyClass hf b ↔ f.equalFn a b = true :=
  Quotient.eq

abbrev AbstractMap (f : HashFns K) (hf : f.Lawful) (V : Type) : Type :=
  Finmap fun _ : KeyClass f hf => V

inductive HashmapOp (K V : Type) where
  | add (key : K) (value : V)
  | set (key : K) (value : V)
  | update (key : K) (value : V)
  | delete (key : K)

inductive OpRet where
  | code (ret : Int)
  | deleted (found : Bool)
deriving DecidableEq

def HashmapOp.exec (f : HashFns K) (a : Alloc) (map : Hashmap K V) :
    HashmapOp K V → Hashmap K V × OpRet
  | .add key value =>
    let r := hashmapInsert f a map key value .add
    (r.map, .code r.ret)
  | .set key value =>
    let r := hashmapInsert f a map key value .set
    (r.map, .code r.ret)
  | .update key value =>
    let r := hashmapInsert f a map key value .update
    (r.map, .code r.ret)
  | .delete key =>
    let r := hashmapDelete f map key
    (r.map, .deleted r.found)

/-- What the operation does to the finite map, and the code it has to return. -/
def HashmapOp.absExec {f : HashFns K} {hf : f.Lawful} (A : AbstractMap f hf V) :
    HashmapOp K V → AbstractMap f hf V × OpRet
  | .add key value =>
    if keyClass hf key ∈ A then (A, .code (-EEXIST))
    else (A.insert (keyClass hf key) value, .code 0)
  | .set key value => (A.insert (keyClass hf key) value, .code 0)
  | .update key value =>
    if keyClass hf key ∈ A then (A.insert (keyClass hf key) value, .code 0)
    else (A, .code (-ENOENT))
  | .delete key => (A.erase (keyClass hf key), .deleted (decide (keyClass hf key ∈ A)))

/-- Run a sequence of operations, with the allocator's answers to each, and
collect what they return. -/
def runOps (f : HashFns K) (map : Hashmap K V) :
    List (HashmapOp K V × Alloc) → Hashmap K V × List OpRet
  | [] => (map, [])
  | (op, a) :: ops =>
    let step := op.exec f a map
    let rest := runOps f step.1 ops
    (rest.1, step.2 :: rest.2)

def absRunOps {f : HashFns K} {hf : f.Lawful} (A : AbstractMap f hf V) :
    List (HashmapOp K V × Alloc) → AbstractMap f hf V × List OpRet
  | [] => (A, [])
  | (op, _) :: ops =>
    let step := op.absExec A
    let rest := absRunOps step.1 ops
    (rest.1, step.2 :: rest.2)

/-! ## The simulation relation -/

/-- A list of entries without repeated keys that holds the pairs of the
abstract map. -/
structure Lists {f : HashFns K} (hf : f.Lawful) (es : List (HashmapEntry K V))
    (A : AbstractMap f hf V) : Prop where
  nodup : (es.map fun e => keyClass hf e.key).Nodup
  lookup : ∀ x v, A.lookup x = some v ↔ ∃ e ∈ es, keyClass hf e.key = x ∧ e.value = v

structure Refines {f : HashFns K} (hf : f.Lawful) (map : Hashmap K V)
    (A : AbstractMap f hf V) : Prop where
  wf : map.WF f
  lists : Lists hf map.buckets.flatten A

section
variable {f : HashFns K} {hf : f.Lawful} {es es' : List (HashmapEntry K V)}
  {e : HashmapEntry K V} {key : K} {value : V} {A : AbstractMap f hf V}

theorem Lists.mem_iff (h : Lists hf es A) (x : KeyClass f hf) :
    x ∈ A ↔ ∃ e ∈ es, keyClass hf e.key = x := by
  rw [← Finmap.lookup_isSome, Option.isSome_iff_exists]
  simp only [h.lookup]
  constructor
  · rintro ⟨v, e, he, hx, -⟩
    exact ⟨e, he, hx⟩
  · rintro ⟨e, he, hx⟩
    exact ⟨e.value, e, he, hx, rfl⟩

theorem Lists.card_keys (h : Lists hf es A) : A.keys.card = es.length := by
  have hkeys : A.keys = (es.map fun e => keyClass hf e.key).toFinset := by
    ext x
    simp [Finmap.mem_keys, h.mem_iff]
  rw [hkeys, toFinset_card_of_nodup h.nodup, length_map]

theorem Lists.of_perm (h : Lists hf es A) (hperm : es'.Perm es) : Lists hf es' A where
  nodup := ((hperm.map _).nodup_iff).mpr h.nodup
  lookup x v := by
    rw [h.lookup]
    simp only [hperm.mem_iff]

theorem Lists.notMem_of_cons (h : Lists hf (e :: es) A) :
    ∀ e' ∈ es, keyClass hf e'.key ≠ keyClass hf e.key := by
  intro e' he' heq
  have hnd := h.nodup
  rw [map_cons, nodup_cons] at hnd
  exact hnd.1 (heq ▸ mem_map_of_mem he')

theorem Lists.tail (h : Lists hf (e :: es) A) : Lists hf es (A.erase (keyClass hf e.key)) where
  nodup := by
    have hnd := h.nodup
    rw [map_cons, nodup_cons] at hnd
    exact hnd.2
  lookup x v := by
    by_cases hx : x = keyClass hf e.key
    · subst hx
      simp only [Finmap.lookup_erase, reduceCtorEq, false_iff]
      rintro ⟨e', he', hek, -⟩
      exact h.notMem_of_cons e' he' hek
    · have hne : ¬keyClass hf e.key = x := fun h => hx h.symm
      rw [Finmap.lookup_erase_ne hx, h.lookup]
      simp [hne]

theorem Lists.cons (h : Lists hf es A) (hfresh : keyClass hf key ∉ A) :
    Lists hf (⟨key, value⟩ :: es) (A.insert (keyClass hf key) value) where
  nodup := by
    rw [map_cons, nodup_cons]
    refine ⟨fun hmem => hfresh ?_, h.nodup⟩
    rw [h.mem_iff]
    simpa using hmem
  lookup x v := by
    by_cases hx : x = keyClass hf key
    · subst hx
      have hnone : ¬∃ e ∈ es, keyClass hf e.key = keyClass hf key ∧ e.value = v := by
        rintro ⟨e, he, hek, -⟩
        exact hfresh ((h.mem_iff _).mpr ⟨e, he, hek⟩)
      simp only [Finmap.lookup_insert, Option.some.injEq, mem_cons,
        exists_eq_or_imp, true_and, hnone, or_false]
    · have hne : ¬keyClass hf key = x := fun h => hx h.symm
      rw [Finmap.lookup_insert_of_ne _ hx, h.lookup]
      simp [hne]

theorem Lists.replace (h : Lists hf (e :: es) A) (hkey : keyClass hf e.key = keyClass hf key) :
    Lists hf (⟨key, value⟩ :: es) (A.insert (keyClass hf key) value) := by
  have hfresh : keyClass hf key ∉ A.erase (keyClass hf e.key) := by simp [Finmap.mem_erase, hkey]
  have hcons : Lists hf (⟨key, value⟩ :: es)
      ((A.erase (keyClass hf e.key)).insert (keyClass hf key) value) :=
    h.tail.cons hfresh
  have heq : (A.erase (keyClass hf e.key)).insert (keyClass hf key) value =
      A.insert (keyClass hf key) value := by
    apply Finmap.ext_lookup
    intro x
    by_cases hx : x = keyClass hf key
    · subst hx
      rw [Finmap.lookup_insert, Finmap.lookup_insert]
    · rw [Finmap.lookup_insert_of_ne _ hx, Finmap.lookup_insert_of_ne _ hx,
        Finmap.lookup_erase_ne (by rwa [hkey])]
  rwa [heq] at hcons

end

section
variable {f : HashFns K} {hf : f.Lawful} {map : Hashmap K V} {A : AbstractMap f hf V}

theorem refines_hashmapInit (f : HashFns K) (hf : f.Lawful) :
    Refines hf (hashmapInit : Hashmap K V) ∅ where
  wf := wf_hashmapInit f
  lists := ⟨by simp [hashmapInit], by simp [hashmapInit]⟩

variable {key : K}

section
variable (h : Refines hf map A)
include h

theorem Refines.notMem_of_find
    (hfind : hashmapFindEntry f map key (bucketOf f map.capBits key) = none) :
    keyClass hf key ∉ A := by
  rw [h.lists.mem_iff]
  rintro ⟨e, he, hek⟩
  have hne := hashmapFindEntry_eq_none hf h.wf hfind e he
  rw [keyClass_eq_iff hf, hne] at hek
  cases hek

theorem Refines.found {i : Nat}
    (hfind : hashmapFindEntry f map key (bucketOf f map.capBits key) = some i) :
    ∃ chain e, map.buckets[bucketOf f map.capBits key]? = some chain ∧
      chain[i]? = some e ∧ keyClass hf e.key = keyClass hf key ∧ keyClass hf key ∈ A ∧
      A.lookup (keyClass hf key) = some e.value ∧
      (map.buckets.getD (bucketOf f map.capBits key) [])[i]? = some e := by
  obtain ⟨chain, e, hchain, he, heq, hmem, hget⟩ := hashmapFindEntry_eq_some hfind
  have hkey : keyClass hf e.key = keyClass hf key := (keyClass_eq_iff hf).mpr heq
  exact ⟨chain, e, hchain, he, hkey, (h.lists.mem_iff _).mpr ⟨e, hmem, hkey⟩,
    (h.lists.lookup _ _).mpr ⟨e, hmem, hkey, rfl⟩, hget⟩

theorem Refines.hashmapFind_eq (key : K) : hashmapFind f map key = A.lookup (keyClass hf key) := by
  simp only [hashmapFind]
  cases hfind : hashmapFindEntry f map key (bucketOf f map.capBits key) with
  | none => exact (Finmap.lookup_eq_none.mpr (h.notMem_of_find hfind)).symm
  | some i =>
    obtain ⟨chain, e, -, -, -, -, hlookup, he⟩ := h.found hfind
    simp only [he, hlookup, Option.map_some]

theorem Refines.hashmapInsertNew (a : Alloc) {value : V}
    (hfresh : keyClass hf key ∉ A) (hok : (hashmapInsertNew f a map key value).ret ≠ -ENOMEM) :
    Refines hf (hashmapInsertNew f a map key value).map (A.insert (keyClass hf key) value) ∧
      (hashmapInsertNew f a map key value).ret = 0 := by
  obtain ⟨hwf, ⟨hret, hperm⟩ | ⟨hret, -⟩⟩ := hashmapInsertNew_spec a h.wf key value
  · exact ⟨⟨hwf, (h.lists.cons hfresh).of_perm hperm⟩, hret⟩
  · exact absurd hret hok

theorem Refines.set_found {value : V} {i : Nat}
    (hfind : hashmapFindEntry f map key (bucketOf f map.capBits key) = some i) :
    Refines hf { map with
        buckets := map.buckets.modify (bucketOf f map.capBits key) fun chain =>
          chain.set i ⟨key, value⟩ }
      (A.insert (keyClass hf key) value) := by
  obtain ⟨chain, e, hchain, he, hkey, -⟩ := h.found hfind
  obtain ⟨l, r, hflat, hset⟩ := Buckets.flatten_modify_set hchain he
  refine ⟨h.wf.set_entry hchain he rfl, ?_⟩
  have hfront : Lists hf (e :: (l ++ r)) A :=
    h.lists.of_perm (hflat ▸ perm_middle.symm)
  rw [hset]
  exact (hfront.replace hkey).of_perm perm_middle

/-- One operation, all of whose allocations succeed, is a step of the finite
map and returns what that step returns. -/
theorem Refines.exec (op : HashmapOp K V) (a : Alloc)
    (hok : (op.exec f a map).2 ≠ .code (-ENOMEM)) :
    Refines hf (op.exec f a map).1 (op.absExec A).1 ∧ (op.exec f a map).2 = (op.absExec A).2 := by
  cases op with
  | add key value =>
    simp only [HashmapOp.exec, HashmapOp.absExec, hashmapInsert, reduceCtorEq,
      if_false, if_true] at hok ⊢
    cases hfind : hashmapFindEntry f map key (bucketOf f map.capBits key) with
    | none =>
      have hfresh := h.notMem_of_find hfind
      simp only [hfind, hfresh, if_false, ne_eq, OpRet.code.injEq] at hok ⊢
      exact h.hashmapInsertNew a hfresh hok
    | some i =>
      obtain ⟨-, -, -, -, -, hmem, -⟩ := h.found hfind
      simp only [hmem, if_true, and_true]
      exact h
  | set key value =>
    simp only [HashmapOp.exec, HashmapOp.absExec, hashmapInsert, reduceCtorEq, if_false] at hok ⊢
    cases hfind : hashmapFindEntry f map key (bucketOf f map.capBits key) with
    | none =>
      have hfresh := h.notMem_of_find hfind
      simp only [hfind, ne_eq, OpRet.code.injEq] at hok ⊢
      exact h.hashmapInsertNew a hfresh hok
    | some i => exact ⟨h.set_found hfind, rfl⟩
  | update key value =>
    simp only [HashmapOp.exec, HashmapOp.absExec, hashmapInsert, reduceCtorEq, if_false, if_true]
    cases hfind : hashmapFindEntry f map key (bucketOf f map.capBits key) with
    | none =>
      simp only [h.notMem_of_find hfind, if_false, and_true]
      exact h
    | some i =>
      obtain ⟨-, -, -, -, -, hmem, -⟩ := h.found hfind
      simp only [hmem, if_true, and_true]
      exact h.set_found hfind
  | delete key =>
    simp only [HashmapOp.exec, HashmapOp.absExec, hashmapDelete]
    cases hfind : hashmapFindEntry f map key (bucketOf f map.capBits key) with
    | none =>
      have hnot := h.notMem_of_find hfind
      simp only [hnot, decide_false, and_true]
      have herase : A.erase (keyClass hf key) = A := by
        apply Finmap.ext_lookup
        intro x
        by_cases hx : x = keyClass hf key
        · subst hx
          rw [Finmap.lookup_erase, Finmap.lookup_eq_none.mpr hnot]
        · rw [Finmap.lookup_erase_ne hx]
      rwa [herase]
    | some i =>
      obtain ⟨chain, e, hchain, he, hkey, hmem, -⟩ := h.found hfind
      simp only [hmem, decide_true, and_true]
      refine ⟨h.wf.erase_entry hchain he, ?_⟩
      rw [← hkey]
      exact (h.lists.of_perm (Buckets.flatten_modify_eraseIdx hchain he).symm).tail

theorem Refines.runOps (ops : List (HashmapOp K V × Alloc))
    (hok : OpRet.code (-ENOMEM) ∉ (runOps f map ops).2) :
    Refines hf (Bpf.runOps f map ops).1 (absRunOps A ops).1 ∧
      (Bpf.runOps f map ops).2 = (absRunOps A ops).2 := by
  induction ops generalizing map A with
  | nil => exact ⟨h, rfl⟩
  | cons step ops ih =>
    obtain ⟨op, a⟩ := step
    simp only [Bpf.runOps, mem_cons, not_or] at hok
    obtain ⟨hstep, hret⟩ := h.exec op a (Ne.symm hok.1)
    obtain ⟨hrest, hrets⟩ := ih hstep hok.2
    exact ⟨hrest, by simp only [Bpf.runOps, absRunOps, hret, hrets]⟩

end

end

/-- Every sequence of insertions and deletions on an empty hash map, with all
allocations succeeding, returns the codes of the finite map, and leaves a hash
map that looks up what the finite map looks up, counts its keys, and has every
entry in the bucket of its key. -/
theorem hashmap_refines_finmap (f : HashFns K) (hf : f.Lawful) (ops : List (HashmapOp K V × Alloc))
    (hok : OpRet.code (-ENOMEM) ∉ (runOps f hashmapInit ops).2) :
    let map := (runOps f hashmapInit ops).1
    let A := (absRunOps (∅ : AbstractMap f hf V) ops).1
    (runOps f hashmapInit ops).2 = (absRunOps (∅ : AbstractMap f hf V) ops).2 ∧
      (∀ key, hashmapFind f map key = A.lookup (keyClass hf key)) ∧
      map.sz = A.keys.card ∧
      ∀ i chain, map.buckets[i]? = some chain → ∀ e ∈ chain,
        hashBits (f.hashFn e.key) map.capBits = i := by
  obtain ⟨hrefines, hrets⟩ := (refines_hashmapInit f hf).runOps ops hok
  refine ⟨hrets, hrefines.hashmapFind_eq, ?_, hrefines.wf.placed⟩
  rw [hrefines.lists.card_keys, hrefines.wf.sz_eq]

def sampleOps : List (HashmapOp (BitVec 64) Nat × Alloc) :=
  [(.add 7 1, {}), (.add 7 2, {}), (.update 9 3, {}), (.set 9 4, {}), (.delete 7, {})]

theorem hashmap_refines_finmap_sampleOps :
    hashmapFind identityFns (runOps identityFns hashmapInit sampleOps).1 9 =
        (absRunOps (∅ : AbstractMap identityFns identityFns_lawful Nat) sampleOps).1.lookup
          (keyClass identityFns_lawful 9) ∧
      hashmapFind identityFns (runOps identityFns hashmapInit sampleOps).1 9 = some 4 :=
  ⟨(hashmap_refines_finmap identityFns identityFns_lawful sampleOps (by decide)).2.1 9, by decide⟩

end LinuxKernel.Bpf
