import LinuxKernel.Foundation.CString
import LinuxKernel.Bpf.Hashmap

/-!
# The string set of libbpf

`tools/lib/bpf/strset.c`: a buffer of NUL-terminated strings with a hash map from the strings to
their offsets. The keys of the hash map are offsets into the buffer, so a string is looked up by
writing it behind the strings that are there. `strsData` is the whole allocated region, of which
the first `strsDataLen` bytes are in use; its length is `strs_data_cap`.

Sizes are natural numbers: a region that was allocated is far smaller than the span of `size_t`.
-/

namespace LinuxKernel.Bpf

open Foundation List Function

def toCInt (n : Nat) : Int := (BitVec.ofNat 32 n).toInt

/-- The `new_cnt` of `libbpf_add_mem`: a quarter more, at least 16, at most the limit, and
enough. -/
def grownCnt (cap maxCnt need : Nat) : Nat :=
  let newCnt := cap + cap / 4
  let newCnt := if newCnt < 16 then 16 else newCnt
  let newCnt := if maxCnt < newCnt then maxCnt else newCnt
  if newCnt < need then need else newCnt

/-- `libbpf_add_mem` for elements that are `zero` when freshly allocated; `none` is `NULL`. -/
def libbpfAddMem {α : Type} (zero : α) (ok : Bool) (data : List α) (curCnt maxCnt addCnt : Nat) :
    Option (List α) :=
  if curCnt + addCnt ≤ data.length then some data
  else if maxCnt < curCnt + addCnt then none
  else if ok then
    let newCnt := grownCnt data.length maxCnt (curCnt + addCnt)
    some (data ++ List.replicate (newCnt - data.length) zero)
  else none

structure Strset where
  strsData : List Byte
  strsDataLen : Nat
  strsDataMaxLen : Nat
  strsHash : Hashmap Nat Nat
  deriving DecidableEq

/-- `str_hash`; a `char` is signed. -/
def strHash (s : List Byte) : BitVec 64 :=
  s.foldl (fun h c => h * 31 + c.signExtend 64) 0

def strsetFns (strsData : List Byte) : HashFns Nat where
  hashFn key := strHash (cstrAt strsData key)
  equalFn key1 key2 := cstrAt strsData key1 == cstrAt strsData key2

/-- What the allocator answers to `strset__new`: for the set, the hash map and the buffer, and to
the insertion of the string at an offset. -/
structure StrsetNewAlloc where
  set : Bool := true
  hash : Bool := true
  data : Bool := true
  entry : Nat → Alloc := fun _ => {}

structure StrsetAlloc where
  mem : Bool := true
  hash : Alloc := {}
  deriving DecidableEq

/-- The loop of `strset__new` over the strings of the buffer. Every round moves `off` on, so as
many rounds as there are bytes are enough. -/
def strsetIndex (a : Nat → Alloc) (data : List Byte) :
    Nat → Nat → Hashmap Nat Nat → Except Int (Hashmap Nat Nat)
  | 0, _, hash => .ok hash
  | rounds + 1, off, hash =>
    if off < data.length then
      let r := hashmapInsert (strsetFns data) (a off) hash off off .add
      if r.ret = -EEXIST ∨ r.ret = 0 then
        strsetIndex a data rounds (off + (cstrAt data off).length + 1) r.map
      else .error r.ret
    else .ok hash

def strsetNew (a : StrsetNewAlloc) (maxDataSz : Nat) (initData : Option (List Byte)) :
    Except Int Strset :=
  if !a.set || !a.hash then .error (-ENOMEM)
  else
    match initData with
    | none => .ok ⟨[], 0, maxDataSz, hashmapInit⟩
    | some data =>
      if !a.data then .error (-ENOMEM)
      else
        match strsetIndex a.entry data data.length 0 hashmapInit with
        | .error err => .error err
        | .ok hash => .ok ⟨data, data.length, maxDataSz, hash⟩

/-- `strset_add_str_mem`, with the string copied to the memory it returns. -/
def strsetProbe (ok : Bool) (set : Strset) (s : CStr) : Option (List Byte) :=
  (libbpfAddMem 0 ok set.strsData set.strsDataLen set.strsDataMaxLen s.stored.length).map
    fun data => writeAt data set.strsDataLen s.stored

def strsetFindStr (a : StrsetAlloc) (set : Strset) (s : CStr) : Int × Strset :=
  match strsetProbe a.mem set s with
  | none => (-ENOMEM, set)
  | some data =>
    let newOff := set.strsDataLen
    match hashmapFind (strsetFns data) set.strsHash newOff with
    | some oldOff => (toCInt oldOff, { set with strsData := data })
    | none => (-ENOENT, { set with strsData := data })

def strsetAddStr (a : StrsetAlloc) (set : Strset) (s : CStr) : Int × Strset :=
  match strsetProbe a.mem set s with
  | none => (-ENOMEM, set)
  | some data =>
    let newOff := set.strsDataLen
    let r := hashmapInsert (strsetFns data) a.hash set.strsHash newOff newOff .add
    let set := { set with strsData := data, strsHash := r.map }
    if r.ret = -EEXIST then (toCInt (r.oldKey.getD 0), set)
    else if r.ret ≠ 0 then (r.ret, set)
    else (toCInt newOff, { set with strsDataLen := set.strsDataLen + s.stored.length })

theorem strsetFns_lawful (data : List Byte) : (strsetFns data).Lawful where
  refl a := by simp [strsetFns]
  symm a b h := by
    simp only [strsetFns, beq_iff_eq] at h ⊢
    exact h.symm
  trans a b c hab hbc := by simp_all [strsetFns]
  hash_eq a b h := by
    have heq : cstrAt data a = cstrAt data b := by simpa [strsetFns] using h
    simp [strsetFns, heq]

/-! ## What the set stands for -/

structure StringTable where
  text : List Byte
  offsetOf : List Byte → Option Nat

def StringTable.add (t : StringTable) (s : CStr) : Nat × StringTable :=
  match t.offsetOf s.bytes with
  | some off => (off, t)
  | none =>
    (t.text.length, ⟨t.text ++ s.stored, Function.update t.offsetOf s.bytes (some t.text.length)⟩)

def textIndex (text : List Byte) : Nat → Nat → (List Byte → Option Nat) → List Byte → Option Nat
  | 0, _, offsetOf => offsetOf
  | rounds + 1, off, offsetOf =>
    if off < text.length then
      textIndex text rounds (off + (cstrAt text off).length + 1)
        (match offsetOf (cstrAt text off) with
          | some _ => offsetOf
          | none => Function.update offsetOf (cstrAt text off) (some off))
    else offsetOf

def StringTable.ofText (text : List Byte) : StringTable :=
  ⟨text, textIndex text text.length 0 fun _ => none⟩

/-- The hash map has an entry for every string of the index, and no others. -/
structure Indexes (data : List Byte) (hash : Hashmap Nat Nat) (len : Nat)
    (offsetOf : List Byte → Option Nat) : Prop where
  wf : hash.WF (strsetFns data)
  entry : ∀ e ∈ hash.buckets.flatten,
    e.value = e.key ∧ e.key < len ∧ offsetOf (cstrAt data e.key) = some e.key
  listed : ∀ s off, offsetOf s = some off →
    cstrAt data off = s ∧ ∃ e ∈ hash.buckets.flatten, e.key = off
  nodup : (hash.buckets.flatten.map (·.key)).Nodup

namespace Indexes

variable {data data' : List Byte} {hash : Hashmap Nat Nat} {len len' : Nat}
  {offsetOf : List Byte → Option Nat}

theorem lt_of_offsetOf (h : Indexes data hash len offsetOf) {s : List Byte} {off : Nat}
    (hs : offsetOf s = some off) : off < len := by
  obtain ⟨-, e, he, rfl⟩ := h.listed s off hs
  exact (h.entry e he).2.1

theorem sz_le (h : Indexes data hash len offsetOf) : hash.sz ≤ len := by
  have hsub : hash.buckets.flatten.map (·.key) ⊆ range len := by
    intro off hoff
    obtain ⟨e, he, rfl⟩ := mem_map.1 hoff
    exact mem_range.2 (h.entry e he).2.1
  have hle := (subperm_of_subset h.nodup hsub).length_le
  rwa [length_map, length_range, ← h.wf.sz_eq] at hle

theorem init (data : List Byte) : Indexes data hashmapInit 0 fun _ => none where
  wf := wf_hashmapInit _
  entry := by simp [hashmapInit]
  listed := by simp
  nodup := by simp [hashmapInit]

section
variable (h : Indexes data hash len offsetOf)
include h

theorem congr (hlen : len ≤ len') (hstr : ∀ off < len, cstrAt data' off = cstrAt data off) :
    Indexes data' hash len' offsetOf where
  wf := by
    refine h.wf.congr fun e he => ?_
    show strHash (cstrAt data' e.key) = strHash (cstrAt data e.key)
    rw [hstr e.key (h.entry e he).2.1]
  entry := by
    intro e he
    obtain ⟨hvalue, hlt, hoff⟩ := h.entry e he
    refine ⟨hvalue, by omega, ?_⟩
    rw [hstr e.key hlt, hoff]
  listed := by
    intro s off hs
    obtain ⟨hcstr, hentry⟩ := h.listed s off hs
    refine ⟨?_, hentry⟩
    rw [hstr off (h.lt_of_offsetOf hs), hcstr]
  nodup := h.nodup

variable {hash' : Hashmap Nat Nat}

theorem of_perm
    (hwf : hash'.WF (strsetFns data)) (hperm : hash'.buckets.flatten.Perm hash.buckets.flatten) :
    Indexes data hash' len offsetOf where
  wf := hwf
  entry e he := h.entry e (hperm.mem_iff.1 he)
  listed s off hs := by
    obtain ⟨hcstr, e, he, hkey⟩ := h.listed s off hs
    exact ⟨hcstr, e, hperm.mem_iff.2 he, hkey⟩
  nodup := (hperm.map _).nodup_iff.2 h.nodup

variable {off : Nat}

theorem cons (hfresh : offsetOf (cstrAt data off) = none) (hwf : hash'.WF (strsetFns data))
    (hperm : hash'.buckets.flatten.Perm (⟨off, off⟩ :: hash.buckets.flatten))
    (hlen : len ≤ len') (hoff : off < len') :
    Indexes data hash' len' (update offsetOf (cstrAt data off) (some off)) where
  wf := hwf
  entry := by
    intro e he
    rcases mem_cons.1 (hperm.mem_iff.1 he) with rfl | he
    · exact ⟨rfl, hoff, by simp⟩
    obtain ⟨hvalue, hlt, hof⟩ := h.entry e he
    have hne : cstrAt data e.key ≠ cstrAt data off := by
      intro heq
      rw [heq, hfresh] at hof
      cases hof
    exact ⟨hvalue, by omega, by rw [update_of_ne hne, hof]⟩
  listed := by
    intro s off' hs
    by_cases hsame : s = cstrAt data off
    · subst hsame
      obtain rfl : off = off' := by simpa using hs
      exact ⟨rfl, ⟨off, off⟩, hperm.mem_iff.2 mem_cons_self, rfl⟩
    · rw [update_of_ne hsame] at hs
      obtain ⟨hcstr, e, he, hkey⟩ := h.listed s off' hs
      exact ⟨hcstr, e, hperm.mem_iff.2 (mem_cons_of_mem _ he), hkey⟩
  nodup := by
    refine (hperm.map _).nodup_iff.2 (nodup_cons.2 ⟨fun hmem => ?_, h.nodup⟩)
    obtain ⟨e, he, rfl⟩ := mem_map.1 hmem
    rw [(h.entry e he).2.2] at hfresh
    cases hfresh

theorem offsetOf_eq_none
    (hne : ∀ e ∈ hash.buckets.flatten, (strsetFns data).equalFn e.key off = false) :
    offsetOf (cstrAt data off) = none := by
  cases hof : offsetOf (cstrAt data off) with
  | none => rfl
  | some off' =>
    obtain ⟨hcstr, e, he, rfl⟩ := h.listed _ off' hof
    have hfalse := hne e he
    simp [strsetFns, hcstr] at hfalse

theorem offsetOf_eq_some {e : HashmapEntry Nat Nat}
    (he : e ∈ hash.buckets.flatten) (heq : (strsetFns data).equalFn e.key off = true) :
    offsetOf (cstrAt data off) = some e.key := by
  have hcstr : cstrAt data e.key = cstrAt data off := by simpa [strsetFns] using heq
  rw [← hcstr]
  exact (h.entry e he).2.2

theorem hashmapFind_eq (off : Nat) :
    hashmapFind (strsetFns data) hash off = offsetOf (cstrAt data off) := by
  rcases hashmapFind_cases (strsetFns_lawful data) h.wf off with ⟨e, he, heq, hfind⟩ | ⟨hne, hfind⟩
  · rw [hfind, h.offsetOf_eq_some he heq, (h.entry e he).1]
  · rw [hfind, h.offsetOf_eq_none hne]

/-- Entering the string at `off`: it was there, it is there now, or memory was refused. -/
theorem hashmapInsert (a : Alloc) (hlen : len ≤ len') (hoff : off < len') :
    let r := hashmapInsert (strsetFns data) a hash off off .add
    (∃ old, offsetOf (cstrAt data off) = some old ∧ r.map = hash ∧ r.ret = -EEXIST ∧
        r.oldKey = some old) ∨
      offsetOf (cstrAt data off) = none ∧
        (r.ret = 0 ∧ Indexes data r.map len'
            (update offsetOf (cstrAt data off) (some off)) ∨
          r.ret = -ENOMEM ∧ Indexes data r.map len offsetOf) := by
  rcases hashmapInsert_add_cases (strsetFns_lawful data) a h.wf off off with
    ⟨e, he, heq, hmap, hret, hold⟩ | ⟨hne, hwf, hcases⟩
  · exact .inl ⟨e.key, h.offsetOf_eq_some he heq, hmap, hret, hold⟩
  have hfresh := h.offsetOf_eq_none hne
  refine .inr ⟨hfresh, ?_⟩
  rcases hcases with ⟨hret, hperm⟩ | ⟨hret, hperm⟩
  · exact .inl ⟨hret, h.cons hfresh hwf hperm hlen hoff⟩
  · exact .inr ⟨hret, h.of_perm hwf hperm⟩

end

end Indexes

/-! ## The set shows a table -/

/-- The used part of the buffer is the text, and the hash map is its index. The buffer does not
exceed the limit, unless the initial strings already did. -/
structure Strset.Shows (set : Strset) (t : StringTable) : Prop where
  len_le : set.strsDataLen ≤ set.strsData.length
  text : set.strsData.take set.strsDataLen = t.text
  terminated : Terminated t.text
  cap : set.strsData.length ≤ set.strsDataMaxLen ∨ set.strsData.length = set.strsDataLen
  index : Indexes set.strsData set.strsHash set.strsDataLen t.offsetOf

theorem grownCnt_bounds {cap maxCnt need : Nat} (h : need ≤ maxCnt) :
    need ≤ grownCnt cap maxCnt need ∧ grownCnt cap maxCnt need ≤ maxCnt := by
  simp only [grownCnt]
  split_ifs <;> omega

theorem libbpfAddMem_spec {α : Type} {zero : α} {ok : Bool} {data data' : List α}
    {curCnt maxCnt addCnt : Nat} (h : libbpfAddMem zero ok data curCnt maxCnt addCnt = some data') :
    curCnt + addCnt ≤ data'.length ∧
      (data' = data ∨ data'.length ≤ maxCnt ∧ ∃ pad, data' = data ++ pad) := by
  simp only [libbpfAddMem] at h
  split_ifs at h with hfit hfull hok
  · cases h
    exact ⟨hfit, .inl rfl⟩
  cases h
  have hbounds := @grownCnt_bounds data.length maxCnt (curCnt + addCnt) (by omega)
  refine ⟨?_, .inr ⟨?_, _, rfl⟩⟩
  · rw [length_append, length_replicate]
    omega
  · rw [length_append, length_replicate]
    omega

namespace Strset.Shows

variable {set : Strset} {t : StringTable}

theorem length_text (h : set.Shows t) : t.text.length = set.strsDataLen := by
  rw [← h.text, length_take, Nat.min_eq_left h.len_le]

variable {off : Nat}

theorem cstrAt_text (h : set.Shows t) (hoff : off < set.strsDataLen) :
    cstrAt set.strsData off = cstrAt t.text off := by
  rw [← h.text]
  refine cstrAt_take (h.text ▸ h.terminated) ?_
  rw [h.text, h.length_text]
  exact hoff

theorem cstrAt_offsetOf (h : set.Shows t) {s : List Byte}
    (hs : t.offsetOf s = some off) : off < t.text.length ∧ cstrAt t.text off = s := by
  have hlt := h.index.lt_of_offsetOf hs
  rw [← h.cstrAt_text hlt, h.length_text]
  exact ⟨hlt, (h.index.listed s off hs).1⟩

/-- The buffer with the probe string behind the text. -/
structure Probed (set : Strset) (t : StringTable) (s : CStr) (data : List Byte) : Prop where
  room : set.strsDataLen + s.stored.length ≤ data.length
  limit : data.length ≤ set.strsDataMaxLen
  text : data.take set.strsDataLen = t.text
  appended : data.take (set.strsDataLen + s.stored.length) = t.text ++ s.stored
  probe : cstrAt data set.strsDataLen = s.bytes
  index : Indexes data set.strsHash set.strsDataLen t.offsetOf

variable {s : CStr} {data : List Byte}

theorem probed (h : set.Shows t) {ok : Bool}
    (hprobe : strsetProbe ok set s = some data) : Probed set t s data := by
  obtain ⟨buf, hbuf, rfl⟩ := Option.map_eq_some_iff.1 hprobe
  obtain ⟨hroom, hgrown⟩ := libbpfAddMem_spec hbuf
  have hle := h.len_le
  have hpos : 0 < s.stored.length := by simp
  have htake : buf.take set.strsDataLen = t.text := by
    rw [← h.text]
    rcases hgrown with rfl | ⟨-, pad, rfl⟩
    · rfl
    · exact take_append_of_le_length hle
  have hlimit : buf.length ≤ set.strsDataMaxLen := by
    rcases hgrown with rfl | ⟨hmax, -⟩
    · rcases h.cap with hcap | hcap <;> omega
    · exact hmax
  have htake' : (writeAt buf set.strsDataLen s.stored).take set.strsDataLen = t.text := by
    rw [take_writeAt le_rfl (by omega), htake]
  refine ⟨?_, ?_, htake', ?_, cstrAt_writeAt _ _ (by omega), ?_⟩
  · rw [length_writeAt hroom]
    exact hroom
  · rw [length_writeAt hroom]
    exact hlimit
  · rw [take_writeAt_self (by omega), htake]
  · refine h.index.congr le_rfl fun off hoff => ?_
    refine cstrAt_congr (h.text ▸ h.terminated) (htake'.trans h.text.symm) ?_
    rw [h.text, h.length_text]
    exact hoff

theorem of_probed (h : set.Shows t) (hp : Probed set t s data)
    {hash : Hashmap Nat Nat} (hindex : Indexes data hash set.strsDataLen t.offsetOf) :
    ({ set with strsData := data, strsHash := hash } : Strset).Shows t where
  len_le := by
    have hroom := hp.room
    show set.strsDataLen ≤ data.length
    omega
  text := hp.text
  terminated := h.terminated
  cap := .inl hp.limit
  index := hindex

end Strset.Shows

end LinuxKernel.Bpf
