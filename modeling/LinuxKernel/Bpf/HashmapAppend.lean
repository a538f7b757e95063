import LinuxKernel.Bpf.HashmapMultimap

/-!
# Finding the entry appended last

`hashmap.h` documents `HASHMAP_APPEND`: with several entries for one key,
`hashmap__find` returns the one that was inserted last. An append links its
entry in front of the chain, but `hashmap_grow` links the old entries in front
of their new chains and so turns their order around. This module follows the
entries of one key through a sequence of appends and growths.
-/

namespace LinuxKernel.Bpf

open List

variable {K V : Type}

/-- A sequence of appends, the most recent one first. The append that follows
`n` others stores the value `val n`. -/
def appendAll (f : HashFns K) (val : Nat → V) : List (K × Alloc) → Hashmap K V
  | [] => hashmapInit
  | (key, a) :: earlier =>
    (hashmapInsert f a (appendAll f val earlier) key (val earlier.length) .append).map

/-- Whether an insertion into the map makes the bucket array grow: it has to, and
the allocator grants the new array. -/
def Hashmap.grows (f : HashFns K) (a : Alloc) (map : Hashmap K V) : Bool :=
  hashmapNeedsToGrow map && (hashmapGrow f a.buckets map).isSome

/-- Whether an insertion into the map gets all the memory it asks for. -/
def Hashmap.links (f : HashFns K) (a : Alloc) (map : Hashmap K V) : Bool :=
  (!hashmapNeedsToGrow map || (hashmapGrow f a.buckets map).isSome) && mallocEntry a.entry map

/-- The append that follows `earlier` succeeds. This and the growths do not
depend on the values. -/
def appendLinks (f : HashFns K) (a : Alloc) (earlier : List (K × Alloc)) : Bool :=
  (appendAll f (fun _ => ()) earlier).links f a

def appendGrows (f : HashFns K) (a : Alloc) (earlier : List (K × Alloc)) : Bool :=
  (appendAll f (fun _ => ()) earlier).grows f a

def lastAppended (f : HashFns K) (k : K) : List (K × Alloc) → Option Nat
  | [] => none
  | (key, a) :: earlier =>
    if appendLinks f a earlier && f.equalFn key k then some earlier.length
    else lastAppended f k earlier

def appendCount (f : HashFns K) (k : K) : List (K × Alloc) → Nat
  | [] => 0
  | (key, a) :: earlier =>
    appendCount f k earlier + (if appendLinks f a earlier && f.equalFn key k then 1 else 0)

/-- How often the bucket array grew after the most recent append of `k`. -/
def growthsSince (f : HashFns K) (k : K) : List (K × Alloc) → Nat
  | [] => 0
  | (key, a) :: earlier =>
    if appendLinks f a earlier && f.equalFn key k then 0
    else growthsSince f k earlier + (if appendGrows f a earlier then 1 else 0)

/-- The numbers of the appends of `k` in the order of their chain. -/
def chainOrder (f : HashFns K) (k : K) : List (K × Alloc) → List Nat
  | [] => []
  | (key, a) :: earlier =>
    let order := if appendGrows f a earlier then (chainOrder f k earlier).reverse
      else chainOrder f k earlier
    if appendLinks f a earlier && f.equalFn key k then earlier.length :: order else order

/-! ## The order of the chain -/

section
variable {f : HashFns K} {k : K} {ops : List (K × Alloc)}

theorem length_chainOrder : (chainOrder f k ops).length = appendCount f k ops := by
  induction ops with
  | nil => rfl
  | cons op earlier ih =>
    simp only [chainOrder, appendCount, ← ih]
    split <;> split <;> simp

theorem lt_of_mem_chainOrder {n : Nat} (hn : n ∈ chainOrder f k ops) : n < ops.length := by
  induction ops with
  | nil => simp [chainOrder] at hn
  | cons op earlier ih =>
    have hmem : n = earlier.length ∨ n ∈ chainOrder f k earlier := by
      simp only [chainOrder] at hn
      split at hn <;> split at hn <;> simp_all
    simp only [length_cons]
    rcases hmem with rfl | hmem
    · omega
    · have := ih hmem
      omega

theorem nodup_chainOrder : (chainOrder f k ops).Nodup := by
  induction ops with
  | nil => simp [chainOrder]
  | cons op earlier ih =>
    have hnew : earlier.length ∉ chainOrder f k earlier := fun h =>
      Nat.lt_irrefl _ (lt_of_mem_chainOrder h)
    simp only [chainOrder]
    cases appendLinks f op.2 earlier && f.equalFn op.1 k <;>
      cases appendGrows f op.2 earlier <;> simp [ih, hnew, nodup_reverse]

/-- The most recent append is at the front of the chain after an even number of
growths and at its end after an odd number. -/
theorem lastAppended_eq :
    lastAppended f k ops = if Even (growthsSince f k ops) then (chainOrder f k ops).head?
      else (chainOrder f k ops).getLast? := by
  induction ops with
  | nil => rfl
  | cons op earlier ih =>
    by_cases hlink : (appendLinks f op.2 earlier && f.equalFn op.1 k) = true
    · simp [lastAppended, growthsSince, chainOrder, hlink]
    have hlast : lastAppended f k (op :: earlier) = lastAppended f k earlier := if_neg hlink
    have hsince : growthsSince f k (op :: earlier) = growthsSince f k earlier +
        (if appendGrows f op.2 earlier then 1 else 0) := if_neg hlink
    have horder : chainOrder f k (op :: earlier) = if appendGrows f op.2 earlier
        then (chainOrder f k earlier).reverse else chainOrder f k earlier := if_neg hlink
    rw [hlast, ih, hsince, horder]
    by_cases hgrow : appendGrows f op.2 earlier = true
    · by_cases heven : Even (growthsSince f k earlier) <;>
        simp [hgrow, heven, Nat.even_add_one]
    · simp [hgrow]

/-- The front of the chain is the most recent append of the key exactly when
the key has at most one entry or the array grew an even number of times since. -/
theorem head?_chainOrder_iff : (chainOrder f k ops).head? = lastAppended f k ops ↔
      appendCount f k ops ≤ 1 ∨ Even (growthsSince f k ops) := by
  rw [lastAppended_eq, ← length_chainOrder]
  by_cases heven : Even (growthsSince f k ops)
  · simp [heven]
  simp only [heven, if_false, or_false]
  have hnodup : (chainOrder f k ops).Nodup := nodup_chainOrder
  match horder : chainOrder f k ops, hnodup with
  | [], _ => simp
  | [n], _ => simp
  | n :: n' :: rest, hnodup =>
    have hlast : (n' :: rest).getLast? ≠ some n := by
      intro h
      exact (nodup_cons.mp hnodup).1 (mem_of_getLast? h)
    simpa [eq_comm] using hlast

end

/-! ## Values do not matter -/

section
variable {W : Type} {f : HashFns K}

/-- Two maps that grow and fill alike. -/
def SameFill (map : Hashmap K V) (map' : Hashmap K W) : Prop :=
  map.cap = map'.cap ∧ map.capBits = map'.capBits ∧ map.sz = map'.sz

theorem hashmapGrow_sameFill {map : Hashmap K V} {map' : Hashmap K W} (hshape : SameFill map map')
    (ok : Bool) : Option.Rel SameFill (hashmapGrow f ok map) (hashmapGrow f ok map') := by
  unfold hashmapGrow
  rw [hshape.2.1]
  generalize (if map'.capBits + 1 < hashmapMinCapBits then hashmapMinCapBits
    else map'.capBits + 1) = bits
  by_cases hcalloc : callocBuckets ok (2 ^ bits % sizeSpan) = true
  · rw [if_pos hcalloc, if_pos hcalloc]
    exact Option.Rel.some (And.intro rfl (And.intro rfl hshape.2.2))
  · rw [if_neg hcalloc, if_neg hcalloc]
    exact Option.Rel.none

theorem hashmapInsertNew_sameFill {map : Hashmap K V} {map' : Hashmap K W}
    (hshape : SameFill map map') (a : Alloc) (key : K) (value : V) (value' : W) :
    (hashmapInsertNew f a map key value).ret = (hashmapInsertNew f a map' key value').ret ∧
      SameFill (hashmapInsertNew f a map key value).map
        (hashmapInsertNew f a map' key value').map := by
  have hgrown : Option.Rel SameFill
      (if hashmapNeedsToGrow map then hashmapGrow f a.buckets map else some map)
      (if hashmapNeedsToGrow map' then hashmapGrow f a.buckets map' else some map') := by
    have hneed : hashmapNeedsToGrow map = hashmapNeedsToGrow map' := by
      rw [hashmapNeedsToGrow, hshape.1, hshape.2.2, hashmapNeedsToGrow]
    rw [hneed]
    split
    · exact hashmapGrow_sameFill hshape a.buckets
    · exact Option.Rel.some hshape
  unfold hashmapInsertNew
  generalize (if hashmapNeedsToGrow map then hashmapGrow f a.buckets map else some map) = grown,
    (if hashmapNeedsToGrow map' then hashmapGrow f a.buckets map' else some map') = grown' at hgrown
  cases hgrown with
  | none => exact ⟨rfl, hshape⟩
  | @some after after' hafter =>
    have hmalloc : mallocEntry a.entry after = mallocEntry a.entry after' := by
      rw [mallocEntry, hafter.2.2, mallocEntry]
    simp only [hmalloc]
    split
    · exact ⟨rfl, hafter.1, hafter.2.1, congrArg (fun n => (n + 1) % sizeSpan) hafter.2.2⟩
    · exact ⟨rfl, hafter⟩

theorem appendAll_sameFill (val : Nat → V) (val' : Nat → W) (ops : List (K × Alloc)) :
    SameFill (appendAll f val ops) (appendAll f val' ops) := by
  induction ops with
  | nil => exact ⟨rfl, rfl, rfl⟩
  | cons op earlier ih =>
    exact (hashmapInsertNew_sameFill ih op.2 op.1 (val earlier.length) (val' earlier.length)).2

theorem hashmapInsertNew_cases (a : Alloc) (map : Hashmap K V) (key : K) (value : V) :
    ((hashmapInsertNew f a map key value).ret == 0) = map.links f a ∧
      ((hashmapInsertNew f a map key value).map.capBits != map.capBits) = map.grows f a := by
  unfold hashmapInsertNew Hashmap.links Hashmap.grows
  cases hneed : hashmapNeedsToGrow map with
  | false => cases hmem : mallocEntry a.entry map <;> simp [hmem, ENOMEM]
  | true =>
    cases hgrow : hashmapGrow f a.buckets map with
    | none => simp [ENOMEM]
    | some grown =>
      have hgrown : grown.sz = map.sz ∧ grown.capBits ≠ map.capBits := by
        unfold hashmapGrow at hgrow
        dsimp only at hgrow
        split_ifs at hgrow
        all_goals
          cases hgrow
          exact ⟨rfl, by dsimp only; omega⟩
      have hsame : mallocEntry a.entry grown = mallocEntry a.entry map := by
        rw [mallocEntry, hgrown.1, mallocEntry]
      cases hmem : mallocEntry a.entry map <;> simp [hsame, hmem, hgrown.2, ENOMEM]

theorem appendLinks_eq (val : Nat → V) (key : K) (a : Alloc) (earlier : List (K × Alloc)) :
    appendLinks f a earlier =
      ((hashmapInsertNew f a (appendAll f val earlier) key (val earlier.length)).ret == 0) := by
  have hshape : SameFill (appendAll f (fun _ => ()) earlier) (appendAll f val earlier) :=
    appendAll_sameFill _ val earlier
  have hret := (hashmapInsertNew_sameFill (f := f) hshape a key () (val earlier.length)).1
  rw [appendLinks, ← (hashmapInsertNew_cases a _ key ()).1, hret]

theorem appendAll_shows (hf : f.Lawful) (val : Nat → V) (ops : List (K × Alloc)) :
    ∃ m, Shows f (appendAll f val ops) m ∧ ∀ k,
      (m.entries (classOf f.equalFn k)).map (·.value) = (chainOrder f k ops).map val := by
  induction ops with
  | nil => exact ⟨Multimap.init, shows_init f, fun k => rfl⟩
  | cons op earlier ih =>
    obtain ⟨key, a⟩ := op
    obtain ⟨m, hm, hentries⟩ := ih
    have hstep := hm.insertNew hf.compatible a key (val earlier.length)
    obtain ⟨ret, hret, hspec⟩ := m.insertNew_spec a key (val earlier.length)
    refine ⟨_, hstep.1, fun k => ?_⟩
    have hgrows : ((m.insertNew a key (val earlier.length)).1.capBits != m.capBits) =
        appendGrows f a earlier := by
      rw [← hstep.1.capBits, ← hm.capBits, appendGrows, ← (hashmapInsertNew_cases a _ key ()).2,
        ← (appendAll_sameFill (fun _ => ()) val earlier).2.1]
      exact congrArg (· != _) (appendAll_sameFill val (fun _ => ()) ((key, a) :: earlier)).2.1
    have hlinks : (ret = 0 ∧ classOf f.equalFn key = classOf f.equalFn k) ↔
        (appendLinks f a earlier && f.equalFn key k) = true := by
      rw [hret] at hstep
      rw [hf.classOf_eq_iff, appendLinks_eq val key, ← (MultimapRet.inserted.inj hstep.2).1]
      simp
    have hspec := hspec (classOf f.equalFn k)
    simp only [hgrows, hlinks] at hspec
    rw [hspec, chainOrder]
    split <;> split <;> simp [hentries]

theorem hashmapFind_appendAll (hf : f.Lawful) (val : Nat → V) (ops : List (K × Alloc)) (k : K) :
    hashmapFind f (appendAll f val ops) k = (chainOrder f k ops).head?.map val := by
  obtain ⟨m, hm, hentries⟩ := appendAll_shows hf val ops
  have hmatch : ∀ e ∈ m.entries (classOf f.equalFn k), f.equalFn e.key k = true := by
    intro e he
    rw [← hm.entries, mem_filter, inClass_eq_true, hf.classOf_eq_iff] at he
    exact he.2
  have hfirst : m.first k = (m.entries (classOf f.equalFn k)).head? := by
    unfold Multimap.first
    cases hlist : m.entries (classOf f.equalFn k) with
    | nil => rfl
    | cons e rest => simp [hmatch e (by simp [hlist])]
  rw [hm.hashmapFind hf.compatible, hfirst, ← head?_map, hentries, head?_map]

/-- A search finds the entry appended last, whatever the values are, exactly when
the key was appended at most once or the bucket array grew an even number of
times after its last append. -/
theorem hashmapFind_lastAppended_iff [Nontrivial V] (hf : f.Lawful) (ops : List (K × Alloc))
    (k : K) :
    (∀ val : Nat → V, hashmapFind f (appendAll f val ops) k = (lastAppended f k ops).map val) ↔
      appendCount f k ops ≤ 1 ∨ Even (growthsSince f k ops) := by
  rw [← head?_chainOrder_iff]
  constructor
  · intro h
    obtain ⟨x, y, hxy⟩ := exists_pair_ne V
    -- the values tell the append in front of the chain from every other one
    have hval := h fun n => if (chainOrder f k ops).head? = some n then x else y
    rw [hashmapFind_appendAll hf] at hval
    cases hhead : (chainOrder f k ops).head? with
    | none =>
      rw [hhead] at hval
      simpa [eq_comm] using hval
    | some n =>
      rw [hhead] at hval
      obtain ⟨n', hlast, hn'⟩ := Option.map_eq_some_iff.mp hval.symm
      by_contra hne
      have hnn' : n ≠ n' := fun heq => hne (by rw [hlast, heq])
      simp [hnn', hxy.symm] at hn'
  · intro h val
    rw [hashmapFind_appendAll hf, h]

/-- Two appends of one key and one of another: the array grew before all three. -/
theorem hashmapFind_lastAppended_two :
    hashmapFind identityFns (appendAll identityFns (fun n => n) [(2, {}), (1, {}), (1, {})]) 1 =
      some 1 := by
  have hlast : lastAppended identityFns 1 [(2, {}), (1, {}), (1, {})] = some 1 := by decide
  have hfind := (hashmapFind_lastAppended_iff (V := Nat) identityFns_lawful
    [(2, {}), (1, {}), (1, {})] 1).2 (Or.inr (by decide)) fun n => n
  rw [hfind, hlast]
  rfl

/-- A fourth append grows the array, and the search returns the first value. -/
theorem hashmapFind_after_growth :
    hashmapFind identityFns
        (appendAll identityFns (fun n => n) [(3, {}), (2, {}), (1, {}), (1, {})]) 1 = some 0 ∧
      lastAppended identityFns 1 [(3, {}), (2, {}), (1, {}), (1, {})] = some 1 := by
  decide

end

end LinuxKernel.Bpf
