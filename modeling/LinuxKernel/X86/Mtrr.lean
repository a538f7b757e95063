import LinuxKernel.Foundation.Segments

/-!
# MTRRs: the map of cache modes

`arch/x86/kernel/cpu/mtrr/generic.c`. The fixed and the variable range registers are combined into
`cache_map`, a sorted array of address ranges with their memory types, which is built at boot and
built again after each change of a variable register, and which `mtrr_type_lookup` reads.

The array is the list of the entries below `cache_map_n`; `size` is `cache_map_size`. When the array
is too small, `add_map_entry_at` warns and gives up all variable entries: here it has no result, and
the proofs show that this never happens.

The generic driver is the one in use, and `kcalloc` gives `mtrr_copy_map` its memory.
-/

namespace LinuxKernel.X86

open Foundation Foundation.Segments

/-! ## Memory types -/

/-- A byte, also when it is not one of the types the hardware knows. -/
@[ext] structure MtrrType where
  byte : BitVec 8
  deriving DecidableEq, Repr

namespace MtrrType

def uncachable : MtrrType := ⟨0⟩

def wrthrough : MtrrType := ⟨4⟩

def wrback : MtrrType := ⟨6⟩

def invalid : MtrrType := ⟨0xff⟩

end MtrrType

def getEffectiveType (type1 type2 : MtrrType) : MtrrType :=
  if type1 = .uncachable ∨ type2 = .uncachable then .uncachable
  else if (type1 = .wrback ∧ type2 = .wrthrough) ∨ (type1 = .wrthrough ∧ type2 = .wrback) then
    .wrthrough
  else if type1 ≠ type2 then .uncachable
  else type1

theorem getEffectiveType_comm (a b : MtrrType) : getEffectiveType a b = getEffectiveType b a := by
  unfold getEffectiveType
  split_ifs <;> grind

theorem getEffectiveType_assoc (a b c : MtrrType) :
    getEffectiveType (getEffectiveType a b) c = getEffectiveType a (getEffectiveType b c) := by
  unfold getEffectiveType
  grind

theorem getEffectiveType_self (a : MtrrType) : getEffectiveType a a = a := by
  unfold getEffectiveType
  grind

/-- Combining types is taking the greatest lower bound in an order where `UC` is below all types
and `WT` below `WB`. -/
instance : SemilatticeInf MtrrType :=
  letI : Min MtrrType := ⟨getEffectiveType⟩
  SemilatticeInf.mk' getEffectiveType_comm getEffectiveType_assoc getEffectiveType_self

theorem inf_eq_getEffectiveType (a b : MtrrType) : a ⊓ b = getEffectiveType a b := rfl

/-! ## The array of ranges -/

/-- The addresses from `start` to below `stop`. Nothing reads `flags`. -/
structure CacheMap where
  start : Nat
  stop : Nat
  type : MtrrType
  fixed : Bool
  deriving DecidableEq, Repr

/-- The map as segments with a type, some of them fixed. -/
def cacheMapLayout : Layout CacheMap Nat (MtrrType × Bool) where
  start := CacheMap.start
  stop := CacheMap.stop
  value := fun e => (e.type, e.fixed)

theorem lookup_cons_cacheMap (x : CacheMap) (m : List CacheMap) (a : Nat) :
    cacheMapLayout.lookup (x :: m) a =
      if x.start ≤ a ∧ a < x.stop then some (x.type, x.fixed) else cacheMapLayout.lookup m a :=
  lookup_cons x m a

/-- `cache_map[idx]`, in memory that starts zeroed. -/
def cacheMapAt (map : List CacheMap) (idx : Nat) : CacheMap :=
  map.getD idx ⟨0, 0, .uncachable, false⟩

def rmMapEntryAt (map : List CacheMap) (idx : Nat) : List CacheMap :=
  map.eraseIdx idx

/-- The new array and the number of merges. -/
def addMapEntryAt (size : Nat) (map : List CacheMap) (start stop : Nat) (type : MtrrType)
    (idx : Nat) : Option (List CacheMap × Nat) :=
  if stop ≤ start then
    some (map, 0)
  else
    let prev := cacheMapAt map (idx - 1)
    let next := cacheMapAt map idx
    let mergePrev := decide (0 < idx) && !prev.fixed && start == prev.stop && type == prev.type
    let mergeNext :=
      decide (idx < map.length) && !next.fixed && stop == next.start && type == next.type
    if mergePrev && mergeNext then
      some (rmMapEntryAt (map.modify (idx - 1) ({ · with stop := next.stop })) idx, 2)
    else if mergePrev then
      some (map.modify (idx - 1) ({ · with stop := stop }), 1)
    else if mergeNext then
      some (map.modify idx ({ · with start := start }), 1)
    else if map.length = size then
      none
    else
      some (map.insertIdx idx ⟨start, stop, type, false⟩, 0)

/-- The new array, and 1 if the start of the entry is still there. -/
def clrMapRangeAt (size : Nat) (map : List CacheMap) (start stop idx : Nat) :
    Option (List CacheMap × Nat) :=
  let cur := cacheMapAt map idx
  let ret := if start ≠ cur.start then 1 else 0
  if start = cur.start ∧ stop = cur.stop then
    some (rmMapEntryAt map idx, ret)
  else if start = cur.start then
    some (map.modify idx ({ · with start := stop }), ret)
  else if stop = cur.stop then
    some (map.modify idx ({ · with stop := start }), ret)
  else do
    let (map, _) ← addMapEntryAt size (map.modify idx ({ · with stop := start })) stop cur.stop
      cur.type (idx + 1)
    return (map, ret)

/-- The loop of `add_map_entry` from index `i` on, with what remains of the new range. The index the
loop goes on with is `i + 1` less the merges: it is never corrected below -1. -/
def addMapEntryFrom (size : Nat) (stop : Nat) (type : MtrrType) (map : List CacheMap)
    (start i : Nat) : Option (List CacheMap) :=
  if _h : i < map.length ∧ start < stop then
    let cur := cacheMapAt map i
    if cur.stop ≤ start then
      addMapEntryFrom size stop type map start (i + 1)
    else if start < cur.start then do
      -- Region start has no overlap.
      let tmp := min stop cur.start
      let (map, merges) ← addMapEntryAt size map start tmp type i
      addMapEntryFrom size stop type map tmp (i + 1 - merges)
    else
      let newType := getEffectiveType type cur.type
      if cur.fixed || newType == cur.type then
        -- Cut off start of new entry.
        addMapEntryFrom size stop type map cur.stop (i + 1)
      else do
        -- Handle only overlapping part of region.
        let tmp := min stop cur.stop
        let (map, kept) ← clrMapRangeAt size map start tmp i
        let (map, merges) ← addMapEntryAt size map start tmp newType (i + kept)
        addMapEntryFrom size stop type map tmp (i + kept + 1 - merges)
  else do
    let (map, _) ← addMapEntryAt size map start stop type i
    return map
termination_by (stop - start, map.length - i)
decreasing_by all_goals grind

def addMapEntry (size : Nat) (map : List CacheMap) (start stop : Nat) (type : MtrrType) :
    Option (List CacheMap) :=
  addMapEntryFrom size stop type map start 0

/-! ## The registers -/

def PAGE_MASK : BitVec 64 := ~~~0xfff

def MTRR_PHYSMASK_V : BitVec 32 := 0x800

abbrev MTRR_NUM_FIXED_RANGES : Nat := 88
def MTRR_MAX_VAR_RANGES : Nat := 256
def CACHE_MAP_MAX : Nat := MTRR_NUM_FIXED_RANGES + MTRR_MAX_VAR_RANGES * 2

structure MtrrVarRange where
  baseLo : BitVec 32
  baseHi : BitVec 32
  maskLo : BitVec 32
  maskHi : BitVec 32
  deriving DecidableEq, Repr

/-- The registers, as `mtrr_state` and the variables next to it hold them. `varRanges` are the
registers below `num_var_ranges`: a count of 8 bits when it is read from `MSR_MTRRcap`, and at most
`MTRR_MAX_VAR_RANGES` when `mtrr_overwrite_state` sets it, and then `TOP_MEM2` is never read. -/
structure MtrrState where
  varRanges : List MtrrVarRange
  fixedRanges : Vector MtrrType MTRR_NUM_FIXED_RANGES
  fixedEnabled : Bool
  tom2 : BitVec 64
  physHiRsvd : BitVec 32
  numVarRanges_le : varRanges.length < 2 ^ 8 ∨ varRanges.length ≤ MTRR_MAX_VAR_RANGES ∧ tom2 = 0

def getMtrrSize (physHiRsvd : BitVec 32) (mask : BitVec 64) : BitVec 64 :=
  -(mask ||| physHiRsvd.setWidth 64 <<< 32)

/-- The type, the start and the size of a variable range; start and size are only set with a type
other than `MTRR_TYPE_INVALID`. -/
def getVarMtrrState (physHiRsvd : BitVec 32) (mtrr : MtrrVarRange) :
    MtrrType × BitVec 64 × BitVec 64 :=
  if mtrr.maskLo &&& MTRR_PHYSMASK_V = 0 then
    (.invalid, 0, 0)
  else
    (⟨mtrr.baseLo.setWidth 8⟩,
      (mtrr.baseHi.setWidth 64 <<< 32) + (mtrr.baseLo.setWidth 64 &&& PAGE_MASK),
      getMtrrSize physHiRsvd
        ((mtrr.maskHi.setWidth 64 <<< 32) + (mtrr.maskLo.setWidth 64 &&& PAGE_MASK)))

/-! ## Building the map -/

def addVarRange (size : Nat) (physHiRsvd : BitVec 32) (map : List CacheMap)
    (mtrr : MtrrVarRange) : Option (List CacheMap) :=
  let (type, start, len) := getVarMtrrState physHiRsvd mtrr
  if type ≠ .invalid then
    addMapEntry size map start.toNat (start + len).toNat type
  else
    some map

/-- `TOP_MEM2`, above 4GB, goes last and is marked fixed. -/
def addTom2 (size : Nat) (tom2 : BitVec 64) (map : List CacheMap) : Option (List CacheMap) :=
  if tom2 ≠ 0 then do
    let map ← addMapEntry size map (2 ^ 32) tom2.toNat .wrback
    return map.modify (map.length - 1) ({ · with fixed := true })
  else
    some map

def mapAddVar (size : Nat) (s : MtrrState) (map : List CacheMap) : Option (List CacheMap) := do
  let map ← addTom2 size s.tom2 map
  s.varRanges.foldlM (addVarRange size s.physHiRsvd) map

def addFixedRanges (size : Nat) : List MtrrType → (i start stop len : Nat) → MtrrType →
    List CacheMap → Option (List CacheMap)
  | [], _, start, stop, _, type, map => addMapEntry size map start stop type
  | next :: ranges, i, start, stop, len, type, map =>
    -- 8 64k entries, then 16 16k ones, rest 4k.
    let len := if i = 8 ∨ i = 24 then len >>> 2 else len
    if next ≠ type then do
      let map ← addMapEntry size map start stop type
      addFixedRanges size ranges (i + 1) stop (stop + len) len next map
    else
      addFixedRanges size ranges (i + 1) start (stop + len) len type map

/-- The map with `cache_map_size` and `cache_map_fixed`. -/
structure MtrrMap where
  map : List CacheMap
  size : Nat
  fixed : Nat
  deriving DecidableEq, Repr

def addFixed (size : Nat) (s : MtrrState) : Option (List CacheMap) :=
  if s.fixedEnabled then
    addFixedRanges size s.fixedRanges.toList.tail 1 0 0x10000 0x10000 (s.fixedRanges.get 0) []
  else
    some []

def mtrrBuildMap (s : MtrrState) : Option MtrrMap := do
  let map ← addFixed CACHE_MAP_MAX s
  -- Mark fixed, they take precedence.
  let fixed := map.map ({ · with fixed := true })
  let map ← mapAddVar CACHE_MAP_MAX s fixed
  return ⟨map, CACHE_MAP_MAX, fixed.length⟩

def genericRebuildMap (s : MtrrState) (m : MtrrMap) : Option MtrrMap := do
  let map ← mapAddVar m.size s (m.map.take m.fixed)
  return { m with map := map }

def getCacheMapSize (s : MtrrState) (m : MtrrMap) : Nat :=
  m.fixed + 2 * s.varRanges.length + if s.tom2 ≠ 0 then 1 else 0

def mtrrCopyMap (s : MtrrState) (m : MtrrMap) : MtrrMap :=
  if getCacheMapSize s m = 0 then m else { m with size := getCacheMapSize s m }

/-! ## The addresses of the fixed ranges -/

def fixedBound (i : Nat) : Nat :=
  if i ≤ 8 then i * 0x10000
  else if i ≤ 24 then 0x80000 + (i - 8) * 0x4000
  else 0xc0000 + (i - 24) * 0x1000

def fixedLen (i : Nat) : Nat :=
  if i < 8 then 0x10000 else if i < 24 then 0x4000 else 0x1000

def fixedIndex (a : Nat) : Nat :=
  if a < 0x80000 then a / 0x10000
  else if a < 0xc0000 then 8 + (a - 0x80000) / 0x4000
  else 24 + (a - 0xc0000) / 0x1000

theorem fixedBound_succ (i : Nat) : fixedBound (i + 1) = fixedBound i + fixedLen i := by
  unfold fixedBound fixedLen
  split_ifs <;> omega

theorem fixedLen_succ {i : Nat} (hi : 1 ≤ i) :
    (if i = 8 ∨ i = 24 then fixedLen (i - 1) >>> 2 else fixedLen (i - 1)) = fixedLen i := by
  unfold fixedLen
  grind

theorem fixedBound_lt {i j : Nat} (hlt : i < j) : fixedBound i < fixedBound j := by
  unfold fixedBound
  split_ifs <;> omega

theorem fixedIndex_eq {i a : Nat} (hi : i < 88) (hlo : fixedBound i ≤ a)
    (hhi : a < fixedBound (i + 1)) : fixedIndex a = i := by
  unfold fixedBound at hlo hhi
  unfold fixedIndex
  split_ifs at hlo hhi ⊢ <;> omega

end LinuxKernel.X86
