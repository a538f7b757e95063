import LinuxKernel.Foundation.Events

/-!
# The reverse map lists of KVM

`arch/x86/kvm/mmu/mmu.c` keeps the SPTEs that map a page in one word: zero, a pointer to the only
SPTE, or a pointer with the lowest bit set to a list of descriptors. New SPTEs enter the descriptor
at the head, and a removed one is replaced by the last of the head, so that every descriptor behind
the head is full.
-/

namespace LinuxKernel.X86.KvmRmap

open Foundation Function Nat Option
open BitVec (ofNat ofNat_add)
open List hiding getElem?_eq_some_iff

def PTE_LIST_EXT : Nat := 14

/-- `struct pte_list_desc`; NULL is 0. -/
structure PteListDesc where
  more : Nat
  spteCount : BitVec 32
  tailCount : BitVec 32
  sptes : List Nat
  deriving DecidableEq, Repr

/-- `rmap_head->val`, the descriptors at their addresses and the addresses that are allocated. -/
structure RmapState where
  val : Nat
  descs : Nat → PteListDesc
  live : List Nat

def tagged (desc : Nat) : Nat := desc ||| 1

def untagged (val : Nat) : Nat := val - val % 2

/-! ## Adding -/

def zeroDesc : PteListDesc where
  more := 0
  spteCount := 0
  tailCount := 0
  sptes := List.replicate PTE_LIST_EXT 0

def PteListDesc.push (desc : PteListDesc) (spte : Nat) : PteListDesc :=
  { desc with
    sptes := desc.sptes.set desc.spteCount.toNat spte
    spteCount := desc.spteCount + 1 }

/-- The allocation of the zeroed descriptor `fresh`, which is then filled and made the head. -/
def RmapState.newHead (s : RmapState) (fresh : Nat) (desc : PteListDesc) : RmapState where
  val := tagged fresh
  descs := Function.update s.descs fresh desc
  live := fresh :: s.live

def pteListAdd (s : RmapState) (spte fresh : Nat) : RmapState × Int :=
  if s.val = 0 then ({ s with val := spte }, 0)
  else if s.val % 2 = 0 then
    let sptes := (zeroDesc.sptes.set 0 s.val).set 1 spte
    (s.newHead fresh { zeroDesc with sptes := sptes, spteCount := 2, tailCount := 0 }, 1)
  else
    let head := untagged s.val
    let desc := s.descs head
    let count := desc.tailCount + desc.spteCount
    if desc.spteCount = BitVec.ofNat 32 PTE_LIST_EXT then
      let desc := { zeroDesc with more := head, spteCount := 0, tailCount := count }
      (s.newHead fresh (desc.push spte), count.toInt)
    else ({ s with descs := Function.update s.descs head (desc.push spte) }, count.toInt)

/-! ## Removing -/

def RmapState.setSpte (s : RmapState) (desc i spte : Nat) : RmapState :=
  let d := s.descs desc
  { s with descs := Function.update s.descs desc { d with sptes := d.sptes.set i spte } }

/-- The head descriptor loses its last entry, and is freed when it is empty. -/
def RmapState.popHead (s : RmapState) (head : Nat) : RmapState :=
  let d := s.descs head
  let j := d.spteCount.toNat - 1
  let d := { d with sptes := d.sptes.set j 0, spteCount := d.spteCount - 1 }
  let s := { s with descs := Function.update s.descs head d }
  if d.spteCount ≠ 0 then s
  else
    { s with
      val := if d.more = 0 then 0 else tagged d.more
      live := s.live.erase head }

/-- `pte_list_desc_remove_entry`; `none` is data corruption. -/
def pteListDescRemoveEntry (s : RmapState) (desc i : Nat) : Option RmapState :=
  let head := untagged s.val
  let headDesc := s.descs head
  if headDesc.spteCount = 0 then none
  else
    let last := headDesc.sptes.getD (headDesc.spteCount.toNat - 1) 0
    some ((s.setSpte desc i last).popHead head)

def findSpte (descs : Nat → PteListDesc) (spte : Nat) : Nat → Nat → Option (Nat × Nat)
  | 0, _ => none
  | fuel + 1, desc =>
    if desc = 0 then none
    else
      match ((descs desc).sptes.take (descs desc).spteCount.toNat).idxOf? spte with
      | some i => some (desc, i)
      | none => findSpte descs spte fuel (descs desc).more

/-- `pte_list_remove`; `none` is data corruption. -/
def pteListRemove (fuel : Nat) (s : RmapState) (spte : Nat) : Option RmapState :=
  if s.val = 0 then none
  else if s.val % 2 = 0 then if s.val = spte then some { s with val := 0 } else none
  else (findSpte s.descs spte fuel (untagged s.val)).bind fun p =>
    pteListDescRemoveEntry s p.1 p.2

def pteListCount (s : RmapState) : BitVec 32 :=
  if s.val = 0 then 0
  else if s.val % 2 = 0 then 1
  else
    let desc := s.descs (untagged s.val)
    desc.tailCount + desc.spteCount

/-! ## Iterating -/

structure RmapIterator where
  desc : Nat
  pos : Nat
  deriving DecidableEq, Repr

def checkPresent (isShadowPresent : Nat → Bool) (sptep : Nat) (iter : RmapIterator) :
    Option (Nat × RmapIterator) :=
  if isShadowPresent sptep then some (sptep, iter) else none

def rmapGetFirst (isShadowPresent : Nat → Bool) (s : RmapState) (iter : RmapIterator) :
    Option (Nat × RmapIterator) :=
  if s.val = 0 then some (0, iter)
  else if s.val % 2 = 0 then checkPresent isShadowPresent s.val { iter with desc := 0 }
  else
    let desc := untagged s.val
    checkPresent isShadowPresent ((s.descs desc).sptes.getD 0 0) ⟨desc, 0⟩

def rmapNextDesc (isShadowPresent : Nat → Bool) (s : RmapState) (iter : RmapIterator) :
    Option (Nat × RmapIterator) :=
  let desc := (s.descs iter.desc).more
  if desc = 0 then some (0, { iter with desc := desc })
  else checkPresent isShadowPresent ((s.descs desc).sptes.getD 0 0) ⟨desc, 0⟩

def rmapGetNext (isShadowPresent : Nat → Bool) (s : RmapState) (iter : RmapIterator) :
    Option (Nat × RmapIterator) :=
  if iter.desc = 0 then some (0, iter)
  else if iter.pos < PTE_LIST_EXT - 1 then
    let iter := { iter with pos := iter.pos + 1 }
    let sptep := (s.descs iter.desc).sptes.getD iter.pos 0
    if sptep ≠ 0 then checkPresent isShadowPresent sptep iter
    else rmapNextDesc isShadowPresent s iter
  else rmapNextDesc isShadowPresent s iter

/-- The rest of a `for_each_rmap_spte` loop that stands at `sptep`: the SPTEs it visits. -/
def rmapVisits (isShadowPresent : Nat → Bool) (s : RmapState) :
    Nat → Nat → RmapIterator → Option (List Nat)
  | 0, _, _ => none
  | fuel + 1, sptep, iter =>
    if sptep = 0 then some []
    else do
      let (next, iter) ← rmapGetNext isShadowPresent s iter
      let rest ← rmapVisits isShadowPresent s fuel next iter
      return sptep :: rest

def forEachRmapSpte (isShadowPresent : Nat → Bool) (fuel : Nat) (s : RmapState)
    (iter : RmapIterator) : Option (List Nat) := do
  let (sptep, iter) ← rmapGetFirst isShadowPresent s iter
  rmapVisits isShadowPresent s fuel sptep iter

/-! ## What a list represents -/

/-- A pointer the list can hold: not NULL, with the lowest bit clear. -/
def IsPtr (p : Nat) : Prop := p ≠ 0 ∧ p % 2 = 0

instance (p : Nat) : Decidable (IsPtr p) := inferInstanceAs (Decidable (_ ∧ _))

abbrev Block : Type := Nat × List Nat

def firstDesc : List Block → Nat
  | [] => 0
  | b :: _ => b.1

def elements (blocks : List Block) : List Nat := blocks.flatMap Prod.snd

@[simp]
theorem elements_nil : elements [] = [] := rfl

@[simp]
theorem elements_cons (b : Block) (blocks : List Block) :
    elements (b :: blocks) = b.2 ++ elements blocks := rfl

@[simp]
theorem elements_append (bs cs : List Block) :
    elements (bs ++ cs) = elements bs ++ elements cs := flatMap_append ..

/-- The descriptor that holds `l` in front of the descriptors `tails`: filled with NULL beyond
`spte_count`, which is the length of `l`, and `tail_count` the number of SPTEs in `tails`. -/
def descOf (l : List Nat) (tails : List Block) : PteListDesc where
  more := firstDesc tails
  spteCount := BitVec.ofNat 32 l.length
  tailCount := BitVec.ofNat 32 (elements tails).length
  sptes := l ++ List.replicate (PTE_LIST_EXT - l.length) 0

def DescList (descs : Nat → PteListDesc) : List Block → Prop
  | [] => True
  | b :: blocks => descs b.1 = descOf b.2 blocks ∧ DescList descs blocks

/-- Descriptors at distinct allocated addresses, none overfull. -/
structure BlocksOk (s : RmapState) (blocks : List Block) : Prop where
  desc : DescList s.descs blocks
  nodup : (blocks.map Prod.fst).Nodup
  ptr : ∀ b ∈ blocks, IsPtr b.1
  live : ∀ b ∈ blocks, b.1 ∈ s.live
  length_le : ∀ b ∈ blocks, b.2.length ≤ PTE_LIST_EXT

/-- The three encodings of a list of SPTEs. In the third the descriptor at the head is not empty
and every descriptor behind it is full. -/
inductive Encodes (s : RmapState) : List Nat → Prop
  | empty : s.val = 0 → Encodes s []
  | single {spte : Nat} : s.val = spte → Encodes s [spte]
  | descs {a : Nat} {l : List Nat} {tails : List Block} : s.val = tagged a →
      BlocksOk s ((a, l) :: tails) → l ≠ [] → (∀ b ∈ tails, b.2.length = PTE_LIST_EXT) →
      Encodes s (elements ((a, l) :: tails))

/-! ### Pointers with a tag -/

variable {a : Nat}

theorem untagged_tagged (ha : IsPtr a) :
    tagged a ≠ 0 ∧ tagged a % 2 ≠ 0 ∧ untagged (tagged a) = a := by
  have hdiv : (a ||| 1) / 2 = a / 2 := by rw [or_div_two]; simp
  have hmod : (a ||| 1) % 2 = 1 := by simp [or_mod_two_eq_one]
  have := ha.2
  rw [untagged, tagged]
  omega

/-! ### Descriptors in memory -/

variable {blocks : List Block}

theorem DescList.congr {descs descs' : Nat → PteListDesc}
    (h : DescList descs blocks) (heq : ∀ b ∈ blocks, descs' b.1 = descs b.1) :
    DescList descs' blocks := by
  induction blocks with
  | nil => trivial
  | cons b blocks ih =>
    refine ⟨?_, ih h.2 fun c hc => heq c (mem_cons_of_mem b hc)⟩
    rw [heq b mem_cons_self]
    exact h.1

theorem DescList.update {descs : Nat → PteListDesc}
    (h : DescList descs blocks) (ha : a ∉ blocks.map Prod.fst) (d : PteListDesc) :
    DescList (update descs a d) blocks := by
  refine h.congr fun b hb => update_of_ne ?_ d descs
  rintro rfl
  exact ha (mem_map_of_mem hb)

variable {l : List Nat}

theorem toNat_ofNat_length (hl : l.length ≤ PTE_LIST_EXT) :
    (ofNat 32 l.length).toNat = l.length := by
  simp only [PTE_LIST_EXT] at hl
  rw [BitVec.toNat_ofNat]
  omega

/-! ### Adding keeps the encoding -/

variable {tails : List Block}

theorem push_descOf (spte : Nat) (hl : l.length < PTE_LIST_EXT) :
    (descOf l tails).push spte = descOf (l ++ [spte]) tails := by
  have hcount : (ofNat 32 l.length).toNat = l.length := toNat_ofNat_length (by omega)
  have hfill : PTE_LIST_EXT - l.length = (PTE_LIST_EXT - (l ++ [spte]).length) + 1 := by
    rw [length_append, length_singleton]
    omega
  simp only [PteListDesc.push, descOf, hcount, hfill, replicate_succ]
  congr 1
  · rw [length_append, ofNat_add]
    rfl
  · rw [set_append_right _ _ le_rfl, Nat.sub_self, set_cons_zero, append_assoc, singleton_append]

variable {fresh : Nat}

section
variable {s : RmapState} {a : Nat} {l : List Nat} {tails : List Block}

theorem BlocksOk.count (h : BlocksOk s ((a, l) :: tails)) :
    (s.descs a).tailCount + (s.descs a).spteCount =
      ofNat 32 (elements ((a, l) :: tails)).length := by
  have hlen : (elements ((a, l) :: tails)).length = (elements tails).length + l.length := by
    rw [elements_cons, length_append, Nat.add_comm]
  rw [h.desc.1, hlen, ofNat_add]
  rfl

theorem BlocksOk.tail {b : Block} (h : BlocksOk s (b :: tails)) : BlocksOk s tails where
  desc := h.desc.2
  nodup := (nodup_cons.mp h.nodup).2
  ptr := (forall_mem_cons.mp h.ptr).2
  live := (forall_mem_cons.mp h.live).2
  length_le := (forall_mem_cons.mp h.length_le).2

theorem BlocksOk.length_head (h : BlocksOk s ((a, l) :: tails)) : l.length ≤ PTE_LIST_EXT :=
  h.length_le _ mem_cons_self

theorem BlocksOk.toNat_spteCount (h : BlocksOk s ((a, l) :: tails)) :
    (s.descs a).spteCount.toNat = l.length := by
  rw [h.desc.1]
  exact toNat_ofNat_length h.length_head

theorem BlocksOk.getD_zero {p : Nat} (h : BlocksOk s ((a, p :: l) :: tails)) :
    (s.descs a).sptes.getD 0 0 = p := by
  rw [h.desc.1]
  rfl

theorem BlocksOk.val (h : BlocksOk s ((a, l) :: tails)) (hval : s.val = tagged a) :
    s.val ≠ 0 ∧ s.val % 2 ≠ 0 ∧ untagged s.val = a :=
  hval ▸ untagged_tagged (h.ptr _ mem_cons_self)

theorem ne_nil_of_full (hfull : ∀ b ∈ tails, b.2.length = PTE_LIST_EXT) :
    ∀ b ∈ tails, b.2 ≠ [] := by
  intro b hb hnil
  have hlen := hfull b hb
  rw [hnil] at hlen
  exact absurd hlen (by decide)

/-- The head may get any SPTEs that fit, if its descriptor is written to match. -/
theorem BlocksOk.setHead (h : BlocksOk s ((a, l) :: tails)) (l' : List Nat)
    (hl' : l'.length ≤ PTE_LIST_EXT) :
    BlocksOk { s with descs := update s.descs a (descOf l' tails) } ((a, l') :: tails) where
  desc := ⟨update_self .., h.desc.2.update (nodup_cons.mp h.nodup).1 _⟩
  nodup := h.nodup
  ptr := by simpa using h.ptr
  live := by simpa using h.live
  length_le := forall_mem_cons.mpr ⟨hl', h.tail.length_le⟩

theorem BlocksOk.not_mem_of_not_live {blocks : List Block} (h : BlocksOk s blocks)
    (hlive : fresh ∉ s.live) : fresh ∉ blocks.map Prod.fst := by
  intro hmem
  obtain ⟨b, hb, hbf⟩ := mem_map.mp hmem
  exact hlive (hbf ▸ h.live b hb)

theorem BlocksOk.newHead {blocks : List Block} (h : BlocksOk s blocks)
    (hfresh : IsPtr fresh) (hlive : fresh ∉ s.live) (hl : l.length ≤ PTE_LIST_EXT) :
    BlocksOk (s.newHead fresh (descOf l blocks)) ((fresh, l) :: blocks) where
  desc := ⟨update_self .., h.desc.update (h.not_mem_of_not_live hlive) _⟩
  nodup := nodup_cons.mpr ⟨h.not_mem_of_not_live hlive, h.nodup⟩
  ptr := forall_mem_cons.mpr ⟨hfresh, h.ptr⟩
  live := forall_mem_cons.mpr ⟨mem_cons_self, fun b hb => mem_cons_of_mem fresh (h.live b hb)⟩
  length_le := forall_mem_cons.mpr ⟨hl, h.length_le⟩

end

variable {s : RmapState} {L : List Nat} {spte : Nat}

theorem pteListAdd_spec (h : Encodes s L)
    (hL : ∀ p ∈ L, IsPtr p) (hfresh : IsPtr fresh) (hlive : fresh ∉ s.live) :
    (∃ L', Encodes (pteListAdd s spte fresh).1 L' ∧ L'.Perm (spte :: L)) ∧
      (pteListAdd s spte fresh).2 = (ofNat 32 L.length).toInt := by
  cases h with
  | empty hval =>
    rw [pteListAdd, if_pos hval]
    exact ⟨⟨[spte], .single rfl, List.Perm.refl _⟩, rfl⟩
  | @single old hval =>
    obtain ⟨hne, heven⟩ := hL old (mem_singleton_self old)
    rw [pteListAdd, hval, if_neg hne, if_pos heven]
    have hnil : BlocksOk s [] := ⟨trivial, nodup_nil, by simp, by simp, by simp⟩
    exact ⟨⟨_, .descs rfl (hnil.newHead (l := [old, spte]) hfresh hlive
      (by simp [PTE_LIST_EXT])) (by simp) (by simp), List.Perm.swap ..⟩, rfl⟩
  | @descs a l tails hval hok hne hfull =>
    have hlen := hok.length_head
    have hdesc : s.descs a = descOf l tails := hok.desc.1
    obtain ⟨hne0, hodd, hhead⟩ := hok.val hval
    rw [pteListAdd, if_neg hne0, if_neg hodd]
    simp only [hhead, hok.count]
    by_cases hmax : l.length = PTE_LIST_EXT
    · have htest : (s.descs a).spteCount = ofNat 32 PTE_LIST_EXT := by
        rw [hdesc, ← hmax]
        rfl
      rw [if_pos htest]
      exact ⟨⟨_, .descs rfl (hok.newHead (l := [spte]) hfresh hlive (by simp [PTE_LIST_EXT]))
        (by simp) (forall_mem_cons.mpr ⟨hmax, hfull⟩), List.Perm.refl _⟩, rfl⟩
    · have htest : (s.descs a).spteCount ≠ ofNat 32 PTE_LIST_EXT :=
        fun heq => hmax (hok.toNat_spteCount.symm.trans (congrArg BitVec.toNat heq))
      rw [if_neg htest, hdesc, push_descOf spte (by omega)]
      refine ⟨⟨_, .descs hval (hok.setHead (l ++ [spte]) ?_) (by simp) hfull, ?_⟩, rfl⟩
      · rw [length_append, length_singleton]
        omega
      · simp only [elements_cons, append_assoc, singleton_append]
        exact perm_middle

/-! ### Removing keeps the encoding -/

variable {fuel : Nat}

theorem findSpte_spec (hok : BlocksOk s blocks)
    (hmem : spte ∈ elements blocks) (hfuel : blocks.length ≤ fuel) :
    ∃ pre a l post i, blocks = pre ++ (a, l) :: post ∧ l[i]? = some spte ∧
      findSpte s.descs spte fuel (firstDesc blocks) = some (a, i) := by
  induction blocks generalizing fuel with
  | nil => exact absurd hmem not_mem_nil
  | cons b blocks ih =>
    obtain ⟨fuel, rfl⟩ := exists_eq_add_one.mpr (zero_lt_of_lt hfuel)
    have hb : b.1 ≠ 0 := (hok.ptr b mem_cons_self).1
    have htake : (s.descs b.1).sptes.take (s.descs b.1).spteCount.toNat = b.2 := by
      rw [hok.toNat_spteCount, hok.desc.1]
      exact take_left
    rw [firstDesc, findSpte, if_neg hb, htake]
    cases hidx : b.2.idxOf? spte with
    | some i =>
      refine ⟨[], b.1, b.2, blocks, i, rfl, ?_, rfl⟩
      obtain ⟨hi, hget, -⟩ := idxOf?_eq_some_iff.mp hidx
      rw [getElem?_eq_getElem hi, hget]
    | none =>
      have hnot : spte ∉ b.2 := idxOf?_eq_none_iff.mp hidx
      have hmem' : spte ∈ elements blocks := by
        rw [elements_cons, mem_append] at hmem
        exact hmem.resolve_left hnot
      obtain ⟨pre, a, l, post, i, hblocks, hget, hfind⟩ :=
        ih hok.tail hmem' (le_of_succ_le_succ hfuel)
      refine ⟨b :: pre, a, l, post, i, by rw [hblocks]; rfl, hget, ?_⟩
      rw [← hfind, hok.desc.1]
      rfl

variable {pre post : List Block} {i : Nat}

theorem DescList.setSpte (x : Nat) (h : DescList s.descs (pre ++ (a, l) :: post))
    (hnodup : ((pre ++ (a, l) :: post).map Prod.fst).Nodup) (hi : i < l.length) :
    DescList (s.setSpte a i x).descs (pre ++ (a, l.set i x) :: post) := by
  induction pre with
  | nil =>
    refine ⟨?_, h.2.update (nodup_cons.mp hnodup).1 _⟩
    have hdesc : s.descs a = descOf l post := h.1
    simp only [RmapState.setSpte, update_self, hdesc, descOf, set_append_left _ _ hi, length_set]
  | cons b pre ih =>
    have hnodup' := nodup_cons.mp hnodup
    refine ⟨?_, ih h.2 hnodup'.2⟩
    have hne : b.1 ≠ a := by
      intro hba
      refine hnodup'.1 (mem_map.mpr ⟨(a, l), ?_, hba.symm⟩)
      exact mem_append_right _ mem_cons_self
    -- the tails keep their address and their size
    have htails : descOf b.2 (pre ++ (a, l.set i x) :: post) =
        descOf b.2 (pre ++ (a, l) :: post) := by
      have hfirst : firstDesc (pre ++ (a, l.set i x) :: post) =
          firstDesc (pre ++ (a, l) :: post) := by cases pre <;> rfl
      simp only [descOf, hfirst, elements_append, elements_cons, length_append, length_set]
    exact (update_of_ne hne _ _).trans (h.1.trans htails.symm)

theorem BlocksOk.setSpte (x : Nat) (h : BlocksOk s (pre ++ (a, l) :: post)) (hi : i < l.length) :
    BlocksOk (s.setSpte a i x) (pre ++ (a, l.set i x) :: post) where
  desc := h.desc.setSpte x h.nodup hi
  nodup := by simpa using h.nodup
  ptr := by simpa [or_imp, forall_and] using h.ptr
  live := by simpa [RmapState.setSpte, or_imp, forall_and] using h.live
  length_le := by simpa [or_imp, forall_and] using h.length_le

variable {x : Nat}

theorem pop_descOf (hl : (l ++ [x]).length ≤ PTE_LIST_EXT) : { descOf (l ++ [x]) tails with
      sptes := (descOf (l ++ [x]) tails).sptes.set ((descOf (l ++ [x]) tails).spteCount.toNat - 1) 0
      spteCount := (descOf (l ++ [x]) tails).spteCount - 1 } = descOf l tails := by
  have hcount := toNat_ofNat_length hl
  have hfill : PTE_LIST_EXT - l.length = (PTE_LIST_EXT - (l ++ [x]).length) + 1 := by
    rw [length_append, length_singleton] at hl ⊢
    omega
  simp only [descOf, hcount]
  congr 1
  · rw [length_append, ofNat_add]
    exact BitVec.add_sub_cancel ..
  · rw [hfill, length_append, length_singleton,
      Nat.add_sub_cancel, append_assoc, set_append_right _ _ le_rfl, Nat.sub_self]
    rfl

/-- The head loses its last SPTE; an empty head makes room for the next descriptor, which is
full. -/
theorem popHead_spec (hval : s.val = tagged a) (hok : BlocksOk s ((a, l ++ [x]) :: tails))
    (hfull : ∀ b ∈ tails, b.2.length = PTE_LIST_EXT) :
    Encodes (s.popHead a) (l ++ elements tails) := by
  have hlen := hok.length_head
  have hlen' : l.length ≤ PTE_LIST_EXT := by
    rw [length_append] at hlen
    omega
  have hdesc : s.descs a = descOf (l ++ [x]) tails := hok.desc.1
  have hpopped := hok.setHead l hlen'
  have hcount : (descOf l tails).spteCount = 0 ↔ l = [] := by
    constructor
    · intro h0
      have hzero := congrArg BitVec.toNat h0
      rw [descOf, toNat_ofNat_length hlen'] at hzero
      exact eq_nil_of_length_eq_zero hzero
    · rintro rfl
      rfl
  have hpop := @pop_descOf l tails x hlen
  have hspte : (descOf (l ++ [x]) tails).spteCount - 1 = (descOf l tails).spteCount :=
    congrArg PteListDesc.spteCount hpop
  simp only [RmapState.popHead, hdesc, hpop]
  rw [hspte]
  by_cases hl : l = []
  · subst hl
    cases tails with
    | nil => exact .empty rfl
    | cons b tails =>
      have htail := hpopped.tail
      refine .descs (l := b.2) (if_neg (htail.ptr b mem_cons_self).1)
        { htail with live := fun c hc => ?_ } (ne_nil_of_full hfull b mem_cons_self)
        (forall_mem_cons.mp hfull).2
      refine (mem_erase_of_ne ?_).mpr (htail.live c hc)
      exact fun hca => (nodup_cons.mp hok.nodup).1 (mem_map.mpr ⟨c, hc, hca⟩)
  · rw [if_pos (mt hcount.mp hl)]
    exact .descs hval hpopped hl hfull

theorem length_blocks_le (h : ∀ b ∈ blocks, b.2 ≠ []) :
    blocks.length ≤ (elements blocks).length := by
  induction blocks with
  | nil => exact le_refl 0
  | cons b blocks ih =>
    have hb := length_pos_iff.mpr (h b mem_cons_self)
    have := ih fun c hc => h c (mem_cons_of_mem b hc)
    rw [elements_cons, length_append, length_cons]
    omega

theorem perm_elements_set (x : Nat) (hget : l[i]? = some spte) :
    (spte :: elements (pre ++ (a, l.set i x) :: post)).Perm
      (x :: elements (pre ++ (a, l) :: post)) := by
  obtain ⟨hi, hli⟩ := List.getElem?_eq_some_iff.mp hget
  have hset := set_perm_cons_eraseIdx hi x
  have herase := getElem_cons_eraseIdx_perm hi
  rw [hli] at herase
  have hmid : (spte :: l.set i x).Perm (x :: l) :=
    (hset.cons spte).trans ((List.Perm.swap ..).trans (herase.cons x))
  have hfront : ∀ (y : Nat) (ys : List Nat), (y :: elements (pre ++ (a, ys) :: post)).Perm
      (elements pre ++ (y :: ys ++ elements post)) := by
    intro y ys
    simp only [elements_append, elements_cons, cons_append]
    exact perm_middle.symm
  exact (hfront spte _).trans (((hmid.append_right _).append_left _).trans (hfront x l).symm)

/-- After the last SPTE of the head was stored over another one, it is still the last of the head,
and the tails are as full as before. -/
theorem exists_head_of_set {head : Nat} {l₁ : List Nat}
    (hfull : ∀ b ∈ tails, b.2.length = PTE_LIST_EXT)
    (hsplit : (head, l₁ ++ [x]) :: tails = pre ++ (a, l) :: post) (hi : i < l.length) :
    ∃ l₂ tails', pre ++ (a, l.set i x) :: post = (head, l₂ ++ [x]) :: tails' ∧
      ∀ b ∈ tails', b.2.length = PTE_LIST_EXT := by
  cases pre with
  | nil =>
    obtain ⟨⟨rfl, rfl⟩, rfl⟩ : (head = a ∧ l₁ ++ [x] = l) ∧ tails = post := by
      simpa using hsplit
    by_cases hi' : i < l₁.length
    · exact ⟨l₁.set i x, tails, by rw [set_append_left _ _ hi']; rfl, hfull⟩
    have hieq : i = l₁.length := by
      rw [length_append, length_singleton] at hi
      omega
    exact ⟨l₁, tails, by rw [set_append_right _ _ (by omega), hieq, Nat.sub_self]; rfl, hfull⟩
  | cons b pre =>
    obtain ⟨rfl, rfl⟩ : (head, l₁ ++ [x]) = b ∧ tails = pre ++ (a, l) :: post := by
      simpa using hsplit
    exact ⟨l₁, _, rfl, by simpa [or_imp, forall_and] using hfull⟩

/-- Putting the last SPTE of the head in the place of the removed one, and then taking it off the
head, removes this one. -/
theorem pteListDescRemoveEntry_spec {head : Nat} {l₀ : List Nat} (hval : s.val = tagged head)
    (hok : BlocksOk s ((head, l₀) :: tails)) (hne : l₀ ≠ [])
    (hfull : ∀ b ∈ tails, b.2.length = PTE_LIST_EXT)
    (hsplit : (head, l₀) :: tails = pre ++ (a, l) :: post) (hget : l[i]? = some spte) :
    ∃ s' L', pteListDescRemoveEntry s a i = some s' ∧ Encodes s' L' ∧
      (spte :: L').Perm (elements ((head, l₀) :: tails)) := by
  obtain ⟨l₁, x, rfl⟩ := (eq_nil_or_concat' l₀).resolve_left hne
  have hhead := (hok.val hval).2.2
  have hdesc : s.descs head = descOf (l₁ ++ [x]) tails := hok.desc.1
  have hcount := hok.toNat_spteCount
  have hcount0 : (s.descs head).spteCount ≠ 0 := by
    intro h0
    rw [h0] at hcount
    simp at hcount
  have hlast : (s.descs head).sptes.getD ((s.descs head).spteCount.toNat - 1) 0 = x := by
    rw [hcount, hdesc]
    simp [descOf]
  obtain ⟨hi, -⟩ := List.getElem?_eq_some_iff.mp hget
  obtain ⟨l₂, tails', hnew, hfull'⟩ := exists_head_of_set hfull hsplit hi
  have hset := (hsplit ▸ hok).setSpte x hi
  have hperm := @perm_elements_set a l spte pre post i x hget
  rw [hnew] at hset hperm
  rw [← hsplit] at hperm
  refine ⟨_, _, ?_, popHead_spec (s := s.setSpte a i x) hval hset hfull', ?_⟩
  · simp only [pteListDescRemoveEntry, hhead, if_neg hcount0, hlast]
  · have hx : (elements ((head, l₂ ++ [x]) :: tails')).Perm (x :: (l₂ ++ elements tails')) := by
      simp only [elements_cons, append_assoc, singleton_append]
      exact perm_middle
    exact (((List.Perm.swap ..).trans ((hx.symm.cons spte).trans hperm)).cons_inv)

theorem pteListRemove_spec (h : Encodes s L)
    (hL : ∀ p ∈ L, IsPtr p) (hmem : spte ∈ L) (hfuel : L.length ≤ fuel) :
    ∃ s' L', pteListRemove fuel s spte = some s' ∧ Encodes s' L' ∧ (spte :: L').Perm L := by
  cases h with
  | empty hval => exact absurd hmem not_mem_nil
  | @single old hval =>
    have hold : spte = old := mem_singleton.mp hmem
    obtain ⟨hne, heven⟩ := hL old (mem_singleton_self old)
    rw [← hval] at hne heven hold
    refine ⟨{ s with val := 0 }, [], ?_, .empty rfl, ?_⟩
    · rw [pteListRemove, if_neg hne, if_pos heven, if_pos hold.symm]
    · rw [hold, hval]
  | @descs head l tails hval hok hne hfull =>
    have hnonempty : ∀ b ∈ (head, l) :: tails, b.2 ≠ [] :=
      forall_mem_cons.mpr ⟨hne, ne_nil_of_full hfull⟩
    obtain ⟨pre, a, l', post, i, hsplit, hget, hfind⟩ :=
      findSpte_spec hok hmem (le_trans (length_blocks_le hnonempty) hfuel)
    obtain ⟨s', L', hremove, hencodes, hperm⟩ :=
      pteListDescRemoveEntry_spec hval hok hne hfull hsplit hget
    refine ⟨s', L', ?_, hencodes, hperm⟩
    obtain ⟨hne0, hodd, hhead⟩ := hok.val hval
    rw [firstDesc, ← hhead] at hfind
    rw [pteListRemove, if_neg hne0, if_neg hodd, hfind]
    exact hremove

/-! ### Iterating visits the elements -/

section
variable {present : Nat → Bool} {s : RmapState}

/-- What a loop over the list relies on: no SPTE pointer is NULL, every SPTE is shadow-present. -/
def Visitable (present : Nat → Bool) (L : List Nat) : Prop :=
  ∀ p ∈ L, p ≠ 0 ∧ present p = true

variable {p : Nat}

theorem checkPresent_eq (hp : present p = true) (iter : RmapIterator) :
    checkPresent present p iter = some (p, iter) := if_pos hp

variable {a : Nat} {xs : List Nat} {tails : List Block}

theorem rmapGetNext_inside {q : Nat} {ys : List Nat} (ha : IsPtr a)
    (hdesc : s.descs a = descOf (xs ++ p :: q :: ys) tails)
    (hlen : (xs ++ p :: q :: ys).length ≤ PTE_LIST_EXT) (hq : q ≠ 0 ∧ present q = true) :
    rmapGetNext present s ⟨a, xs.length⟩ = some (q, ⟨a, xs.length + 1⟩) := by
  have hpos : xs.length < PTE_LIST_EXT - 1 := by
    simp only [length_append, length_cons] at hlen
    omega
  have hget : (descOf (xs ++ p :: q :: ys) tails).sptes.getD (xs.length + 1) 0 = q := by
    simp [descOf]
  simp only [rmapGetNext, if_neg ha.1, if_pos hpos, hdesc, hget]
  rw [if_pos hq.1, checkPresent_eq hq.2]

theorem rmapGetNext_last (ha : IsPtr a) (hdesc : s.descs a = descOf (xs ++ [p]) tails) :
    ∃ pos, rmapGetNext present s ⟨a, xs.length⟩ = rmapNextDesc present s ⟨a, pos⟩ := by
  by_cases hpos : xs.length < PTE_LIST_EXT - 1
  · have hget : (descOf (xs ++ [p]) tails).sptes.getD (xs.length + 1) 0 = 0 := by
      have hlast : xs.length + 1 = (xs ++ [p]).length := by simp
      rw [hlast, descOf, getD_append_right _ _ _ _ le_rfl]
      rw [Nat.sub_self]
      cases PTE_LIST_EXT - (xs ++ [p]).length <;> rfl
    refine ⟨xs.length + 1, ?_⟩
    simp only [rmapGetNext, if_neg ha.1, if_pos hpos, hdesc, hget]
    rfl
  · refine ⟨xs.length, ?_⟩
    simp only [rmapGetNext, if_neg ha.1, if_neg hpos]

theorem rmapVisits_spec {fuel : Nat} {ys : List Nat}
    (hok : BlocksOk s ((a, xs ++ p :: ys) :: tails)) (hne : ∀ b ∈ tails, b.2 ≠ [])
    (hvis : Visitable present (p :: ys ++ elements tails))
    (hfuel : (p :: ys ++ elements tails).length < fuel) :
    rmapVisits present s fuel p ⟨a, xs.length⟩ = some (p :: ys ++ elements tails) := by
  induction fuel generalizing a p xs ys tails with
  | zero => exact absurd hfuel (not_lt_zero _)
  | succ fuel ih =>
    have ha : IsPtr a := hok.ptr _ mem_cons_self
    have hp := hvis p mem_cons_self
    have hfuel' : (ys ++ elements tails).length < fuel := by exact lt_of_succ_lt_succ hfuel
    have hvis' : Visitable present (ys ++ elements tails) :=
      fun q hq => hvis q (mem_cons_of_mem p hq)
    rw [rmapVisits, if_neg hp.1]
    cases ys with
    | cons q ys =>
      rw [rmapGetNext_inside ha hok.desc.1 hok.length_head (hvis' q mem_cons_self)]
      have hshift : xs ++ p :: q :: ys = (xs ++ [p]) ++ q :: ys := by simp
      rw [hshift] at hok
      have hrest := ih hok hne hvis' hfuel'
      rw [length_append, length_singleton] at hrest
      simp only [bind_eq_bind, bind_some, hrest]
      rfl
    | nil =>
      obtain ⟨pos, hnext⟩ := @rmapGetNext_last present s p a xs tails ha hok.desc.1
      rw [hnext, rmapNextDesc]
      have hmore : (s.descs a).more = firstDesc tails := by rw [hok.desc.1]; rfl
      simp only [hmore]
      cases tails with
      | nil =>
        obtain ⟨fuel, rfl⟩ := exists_eq_add_one.mpr (zero_lt_of_lt hfuel')
        rfl
      | cons b tails =>
        obtain ⟨a', l'⟩ := b
        have hb : a' ≠ 0 := (hok.tail.ptr _ mem_cons_self).1
        obtain ⟨q, ys, rfl⟩ := exists_cons_of_ne_nil (hne _ mem_cons_self)
        have hq := hvis' q mem_cons_self
        have hrest := @ih q a' [] tails ys hok.tail (forall_mem_cons.mp hne).2 hvis' hfuel'
        simp only [firstDesc, if_neg hb, hok.tail.getD_zero, checkPresent_eq hq.2,
          bind_eq_bind, bind_some]
        rw [length_nil] at hrest
        rw [hrest]
        rfl

theorem forEachRmapSpte_spec {L : List Nat} (h : Encodes s L) (hL : ∀ p ∈ L, IsPtr p)
    (hpresent : ∀ p ∈ L, present p = true) {fuel : Nat} (hfuel : L.length < fuel)
    (iter : RmapIterator) : forEachRmapSpte present fuel s iter = some L := by
  obtain ⟨fuel, rfl⟩ := exists_eq_add_one.mpr (zero_lt_of_lt hfuel)
  cases h with
  | empty hval => simp [forEachRmapSpte, rmapGetFirst, hval, rmapVisits]
  | @single p hval =>
    have hp := mem_singleton_self p
    obtain ⟨hne, heven⟩ := hL p hp
    obtain ⟨fuel, rfl⟩ := exists_eq_add_one.mpr (lt_of_succ_lt_succ hfuel)
    rw [forEachRmapSpte, rmapGetFirst, hval, if_pos heven, checkPresent_eq (hpresent p hp)]
    simp [rmapVisits, rmapGetNext, hne]
  | @descs a l tails hval hok hne hfull =>
    obtain ⟨hne0, hodd, hhead⟩ := hok.val hval
    obtain ⟨p, ys, rfl⟩ := exists_cons_of_ne_nil hne
    have hp : p ∈ elements ((a, p :: ys) :: tails) := mem_cons_self
    rw [forEachRmapSpte, rmapGetFirst, if_neg hne0, if_neg hodd]
    simp only [hhead, hok.getD_zero, checkPresent_eq (hpresent p hp), bind_eq_bind, bind_some]
    exact @rmapVisits_spec present s p a [] tails _ ys hok (ne_nil_of_full hfull)
      (fun q hq => ⟨(hL q hq).1, hpresent q hq⟩) hfuel

end

/-! ## Runs -/

inductive RmapCall where
  | add (spte fresh : Nat)
  | remove (spte : Nat)
  deriving DecidableEq, Repr

def rmapCall (fuel : Nat) (s : RmapState) : RmapCall → Option RmapState
  | .add spte fresh => some (pteListAdd s spte fresh).1
  | .remove spte => pteListRemove fuel s spte

/-- The SPTEs that were added and not removed. -/
def RmapCall.effect (m : Multiset Nat) : RmapCall → Multiset Nat
  | .add spte _ => spte ::ₘ m
  | .remove spte => m.erase spte

/-- What a call may rely on: aligned pointers, a descriptor that is not in use, and that only
elements of the list are removed. -/
def RmapCall.Ok (s : RmapState) (m : Multiset Nat) : RmapCall → Prop
  | .add spte fresh => IsPtr spte ∧ IsPtr fresh ∧ fresh ∉ s.live
  | .remove spte => spte ∈ m

instance (s : RmapState) (m : Multiset Nat) : (c : RmapCall) → Decidable (c.Ok s m)
  | .add _ _ => inferInstanceAs (Decidable (_ ∧ _ ∧ _))
  | .remove spte => inferInstanceAs (Decidable (spte ∈ m))

def CallsOk (fuel : Nat) : RmapState → Multiset Nat → List RmapCall → Prop
  | _, _, [] => True
  | s, m, c :: calls =>
    c.Ok s m ∧ ∀ s', rmapCall fuel s c = some s' → CallsOk fuel s' (c.effect m) calls

structure Represents (s : RmapState) (m : Multiset Nat) (L : List Nat) : Prop where
  encodes : Encodes s L
  eq : (L : Multiset Nat) = m
  ptr : ∀ p ∈ L, IsPtr p

variable {m : Multiset Nat}

theorem rmapCall_represents
    (h : Represents s m L) {c : RmapCall} (hc : c.Ok s m) (hfuel : L.length ≤ fuel) :
    ∃ s' L', rmapCall fuel s c = some s' ∧ Represents s' (c.effect m) L' ∧
      L'.length ≤ L.length + 1 := by
  cases c with
  | add spte fresh =>
    obtain ⟨hspte, hfresh, hlive⟩ := hc
    obtain ⟨⟨L', hencodes, hperm⟩, -⟩ :=
      pteListAdd_spec h.encodes h.ptr hfresh hlive
    refine ⟨_, L', rfl, ⟨hencodes, ?_, ?_⟩, ?_⟩
    · rw [RmapCall.effect, ← h.eq, Multiset.cons_coe]
      exact Multiset.coe_eq_coe.mpr hperm
    · intro p hp
      rcases mem_cons.mp (hperm.mem_iff.mp hp) with rfl | hp
      · exact hspte
      · exact h.ptr p hp
    · rw [hperm.length_eq, length_cons]
  | remove spte =>
    have hmem : spte ∈ L := by
      have hspte : spte ∈ m := hc
      rwa [← h.eq, Multiset.mem_coe] at hspte
    obtain ⟨s', L', hremove, hencodes, hperm⟩ :=
      pteListRemove_spec h.encodes h.ptr hmem hfuel
    refine ⟨s', L', hremove, ⟨hencodes, ?_, ?_⟩, ?_⟩
    · rw [RmapCall.effect, ← h.eq, Multiset.coe_erase]
      refine Multiset.coe_eq_coe.mpr ?_
      simpa using hperm.erase spte
    · exact fun p hp => h.ptr p (hperm.mem_iff.mp (mem_cons_of_mem spte hp))
    · have := hperm.length_eq
      rw [length_cons] at this
      omega

theorem runCalls_represents (h : Represents s m L) {calls : List RmapCall}
    (hfuel : L.length + calls.length ≤ fuel) (hok : CallsOk fuel s m calls) :
    ∃ s' L', runEvents (rmapCall fuel) s calls = some s' ∧
      Represents s' (calls.foldl RmapCall.effect m) L' := by
  induction calls generalizing s m L with
  | nil => exact ⟨s, L, rfl, h⟩
  | cons c calls ih =>
    rw [length_cons] at hfuel
    have hfuel₁ : L.length ≤ fuel := by omega
    obtain ⟨s₁, L₁, hcall, hrep, hlen⟩ := rmapCall_represents h hok.1 hfuel₁
    obtain ⟨s', L', hrun, hrep'⟩ := ih hrep (by omega) (hok.2 s₁ hcall)
    refine ⟨s', L', ?_, hrep'⟩
    rw [runEvents, hcall]
    exact hrun

theorem pteListCount_spec (h : Encodes s L)
    (hL : ∀ p ∈ L, IsPtr p) : pteListCount s = ofNat 32 L.length := by
  cases h with
  | empty hval => exact if_pos hval
  | @single p hval =>
    obtain ⟨hne, heven⟩ := hL p (mem_singleton_self p)
    rw [pteListCount, hval, if_neg hne, if_pos heven]
    rfl
  | @descs a l tails hval hok hne hfull =>
    obtain ⟨hne0, hodd, hhead⟩ := hok.val hval
    rw [pteListCount, if_neg hne0, if_neg hodd]
    simp only [hhead]
    exact hok.count

def RmapState.init (descs : Nat → PteListDesc) (live : List Nat) : RmapState := ⟨0, descs, live⟩

/-- After any calls from the empty list on, the list encodes the SPTEs that were added and not
removed. The two counts are their number modulo `2 ^ 32`, and a loop over the list visits each of
them once. -/
theorem pteList_run (descs : Nat → PteListDesc) (live : List Nat) (calls : List RmapCall)
    {fuel : Nat} (hfuel : calls.length ≤ fuel) (hok : CallsOk fuel (.init descs live) 0 calls) :
    ∃ s L, runEvents (rmapCall fuel) (.init descs live) calls = some s ∧ Encodes s L ∧
      (L : Multiset Nat) = calls.foldl RmapCall.effect 0 ∧
      pteListCount s = BitVec.ofNat 32 L.length ∧
      (∀ spte fresh, RmapCall.Ok s L (.add spte fresh) →
        (pteListAdd s spte fresh).2 = (BitVec.ofNat 32 L.length).toInt) ∧
      ∀ present : Nat → Bool, (∀ p ∈ L, present p = true) → ∀ n iter, L.length < n →
        forEachRmapSpte present n s iter = some L := by
  have hinit : Represents (.init descs live) 0 [] := ⟨.empty rfl, rfl, by simp⟩
  obtain ⟨s, L, hrun, hrep⟩ := runCalls_represents hinit (by simpa using hfuel) hok
  refine ⟨s, L, hrun, hrep.encodes, hrep.eq, pteListCount_spec hrep.encodes hrep.ptr, ?_, ?_⟩
  · intro spte fresh hadd
    exact (pteListAdd_spec hrep.encodes hrep.ptr hadd.2.1 hadd.2.2).2
  · intro present hpresent n iter hn
    exact forEachRmapSpte_spec hrep.encodes hrep.ptr hpresent hn iter

theorem pteList_run_threeCalls :
    ∃ s L, runEvents (rmapCall 3) (.init (fun _ => zeroDesc) [])
        [.add 8 16, .add 24 32, .remove 8] = some s ∧ Encodes s L ∧
      (L : Multiset Nat) =
        [RmapCall.add 8 16, .add 24 32, .remove 8].foldl RmapCall.effect 0 ∧
      pteListCount s = BitVec.ofNat 32 L.length ∧
      (∀ spte fresh, RmapCall.Ok s L (.add spte fresh) →
        (pteListAdd s spte fresh).2 = (BitVec.ofNat 32 L.length).toInt) ∧
      ∀ present : Nat → Bool, (∀ p ∈ L, present p = true) → ∀ n iter, L.length < n →
        forEachRmapSpte present n s iter = some L := by
  refine pteList_run _ _ _ (by decide) ⟨by decide, ?_⟩
  rintro s₁ ⟨⟩
  refine ⟨by decide, ?_⟩
  rintro s₂ ⟨⟩
  exact ⟨by decide, fun _ _ => trivial⟩

/-- One SPTE added `n` times, with fresh descriptors from address `2 * (k + 1)` on. -/
def addMany (k n : Nat) : List RmapCall :=
  (List.range' k n).map fun i => .add 8 (2 * (i + 1))

theorem live_pteListAdd (s : RmapState) (spte fresh a : Nat)
    (ha : a ∈ (pteListAdd s spte fresh).1.live) : a = fresh ∨ a ∈ s.live := by
  simp only [pteListAdd] at ha
  repeat' split at ha
  all_goals first | exact .inr ha | exact mem_cons.mp ha

theorem callsOk_addMany (fuel : Nat) {k : Nat} (n : Nat)
    (hlive : ∀ a ∈ s.live, a ≤ 2 * k) : CallsOk fuel s m (addMany k n) := by
  induction n generalizing s m k with
  | zero => trivial
  | succ n ih =>
    refine ⟨⟨by decide, ⟨by omega, by omega⟩, fun h => ?_⟩, ?_⟩
    · have := hlive _ h
      omega
    rintro s' ⟨⟩
    refine ih fun a ha => ?_
    rcases live_pteListAdd _ _ _ _ ha with rfl | ha
    · exact le_rfl
    · have := hlive a ha
      omega

theorem card_effect_addMany (m : Multiset Nat) (k n : Nat) :
    ((addMany k n).foldl RmapCall.effect m).card = m.card + n := by
  induction n generalizing m k with
  | zero => rfl
  | succ n ih =>
    rw [addMany, range'_succ, map_cons, foldl_cons]
    have h := ih (RmapCall.effect m (.add 8 (2 * (k + 1)))) (k + 1)
    rw [addMany] at h
    rw [h, RmapCall.effect, Multiset.card_cons]
    omega

theorem pteListCount_addMany (n : Nat) : CallsOk n (.init (fun _ => zeroDesc) []) 0 (addMany 0 n) ∧
      ∃ s, runEvents (rmapCall n) (.init (fun _ => zeroDesc) []) (addMany 0 n) = some s ∧
        pteListCount s = ofNat 32 n := by
  have hinit : Represents (.init (fun _ => zeroDesc) []) 0 [] := ⟨.empty rfl, rfl, by simp⟩
  have hlen : (addMany 0 n).length = n := by simp [addMany]
  have hok := @callsOk_addMany (.init (fun _ => zeroDesc) []) 0 n 0 n (by simp [RmapState.init])
  obtain ⟨s, L, hrun, hrep⟩ := runCalls_represents hinit (by simp [hlen]) hok
  refine ⟨hok, s, hrun, ?_⟩
  have hcard := congrArg Multiset.card hrep.eq
  rw [Multiset.coe_card, card_effect_addMany, Multiset.card_zero, Nat.zero_add] at hcard
  rw [pteListCount_spec hrep.encodes hrep.ptr, hcard]

/-- With `2 ^ 32` SPTEs in the list the count has wrapped around to 0. -/
theorem pteListCount_wraps :
    ∃ s, CallsOk (2 ^ 32) (.init (fun _ => zeroDesc) []) 0 (addMany 0 (2 ^ 32)) ∧
      runEvents (rmapCall (2 ^ 32)) (.init (fun _ => zeroDesc) []) (addMany 0 (2 ^ 32)) = some s ∧
      ((addMany 0 (2 ^ 32)).foldl RmapCall.effect 0).card = 2 ^ 32 ∧ pteListCount s = 0 := by
  obtain ⟨hok, s, hrun, hcount⟩ := pteListCount_addMany (2 ^ 32)
  refine ⟨s, hok, hrun, ?_, ?_⟩
  · rw [card_effect_addMany, Multiset.card_zero, Nat.zero_add]
  · rw [hcount]
    decide

end LinuxKernel.X86.KvmRmap
