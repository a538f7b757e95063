import Mathlib

/-!
# The BPF dispatcher

`arch_prepare_bpf_dispatcher` of `arch/x86/net/bpf_jit_comp.c` emits a binary search over function
addresses. The code is modelled by its instructions and their lengths; a `jg` is emitted before the
part that it skips, and its displacement is filled in when the length of that part is known.
-/

namespace LinuxKernel.X86.Dispatcher

open BitVec (add_assoc ofNat ofNat_add toNat_ofNat)
open Option List Nat

/-! ## Instructions and their execution -/

abbrev Addr := BitVec 64

/-- `nop n` is one of `x86_nops`, of `n + 1` bytes. -/
inductive Insn
  | cmpRdx (imm : Addr)
  | je (disp : Addr)
  | jg (near : Bool) (disp : Addr)
  | nop (n : Nat)
  | lfence
  | jmp (disp : Addr)
  | jmpRdx
  | int3

def Insn.size : Insn → Nat
  | .cmpRdx _ => 7
  | .je _ => 6
  | .jg near _ => if near then 6 else 2
  | .nop n => n + 1
  | .lfence => 3
  | .jmp _ => 5
  | .jmpRdx => 2
  | .int3 => 1

def codeSize (code : List Insn) : Nat := (code.map Insn.size).sum

/-- What `emit_indirect_jump` depends on: `X86_FEATURE_RETPOLINE_LFENCE`, `X86_FEATURE_RETPOLINE`
with the address of the thunk for `rdx`, or neither, with or without an `int3` behind the jump. -/
inductive Retpoline
  | lfence
  | thunk (addr : Addr)
  | off (int3 : Bool)

/-- Where the dispatcher ends: at a direct jump that is taken or at the jump through `rdx`. -/
inductive Outcome
  | direct (target : Addr)
  | indirect
  deriving DecidableEq

def fetch : List Insn → Nat → Option Insn
  | [], _ => none
  | i :: code, off => if off = 0 then some i else if off < i.size then none
      else fetch code (off - i.size)

/-- The processor with `x` in `rdx`; `last` is what `rdx` was compared with. -/
def run (retpoline : Retpoline) (code : List Insn) (image x : Addr) :
    Nat → Addr → Addr → Option Outcome
  | 0, _, _ => none
  | fuel + 1, pc, last =>
    match fetch code (pc - image).toNat with
    | none => none
    | some i =>
      let next := pc + BitVec.ofNat 64 i.size
      match i with
      | .cmpRdx imm => run retpoline code image x fuel next imm
      | .je disp =>
        if x = last then some (.direct (next + disp)) else run retpoline code image x fuel next last
      | .jg _ disp => run retpoline code image x fuel
          (if last.slt x then next + disp else next) last
      | .nop _ | .lfence => run retpoline code image x fuel next last
      | .jmp disp =>
        -- the thunk jumps through `rdx`
        match retpoline with
        | .thunk addr => some (if next + disp = addr then .indirect else .direct (next + disp))
        | _ => some (.direct (next + disp))
      | .jmpRdx => some .indirect
      | .int3 => none

/-! ## The code -/

/-- The low `w` bits as the processor extends them -/
def sext (w : Nat) (v : Addr) : Addr := (v.setWidth w).signExtend 64

def isSimm32 (v : Addr) : Bool := v == sext 32 v

/-- `emit_cond_near_jump` with `X86_JE` -/
def emitCondNearJump (func ip : Addr) : Option (List Insn) :=
  let offset := func - (ip + 6)
  if isSimm32 offset then some [.je (sext 32 offset)] else none

/-- `emit_jump`, of which the callers here ignore the result -/
def emitJump (func ip : Addr) : List Insn :=
  let offset := func - (ip + 5)
  if isSimm32 offset then [.jmp (sext 32 offset)] else []

def emitIndirectJump (retpoline : Retpoline) (ip : Addr) : List Insn :=
  match retpoline with
  | .lfence => [.lfence, .jmpRdx]
  | .thunk addr => emitJump addr ip
  | .off int3 => .jmpRdx :: if int3 then [.int3] else []

/-- `emit_nops` for less than 16 bytes, with `ASM_NOP_MAX` = 11 -/
def emitNops (len : Nat) : List Insn :=
  if len = 0 then [] else if len ≤ 11 then [.nop (len - 1)] else [.nop 10, .nop (len - 11 - 1)]

def emitAlign (prog : Nat) : List Insn := emitNops ((16 - prog % 16) % 16)

def patch (near : Bool) (offset : Nat) : Addr :=
  if near then sext 32 (BitVec.ofNat 64 offset) else sext 8 (BitVec.ofNat 64 offset)

/-- `emit_bpf_dispatcher` at `off = prog - buf`; `buf` is the address of the buffer. -/
def emitBpfDispatcher (retpoline : Retpoline) (progs : Nat → Addr) (image : Addr) (buf : Nat)
    (a b off : Nat) : Option (List Insn) :=
  if b ≤ a then
    -- Leaf node of recursion, i.e. not a range of indices anymore.
    if isSimm32 (progs a) then do
      let je ← emitCondNearJump (progs a) (image + BitVec.ofNat 64 (off + 7))
      pure (.cmpRdx (sext 32 (progs a)) :: je ++
        emitIndirectJump retpoline (image + BitVec.ofNat 64 (off + 13)))
    else none
  else
    let pivot := (b - a) / 2
    if isSimm32 (progs (a + pivot)) then do
      let near := decide (pivot > 2)
      let jgReloc := off + 7 + Insn.size (.jg near 0)
      let lower ← emitBpfDispatcher retpoline progs image buf a (a + pivot) jgReloc
      let lower := lower ++ emitAlign (buf + jgReloc + codeSize lower)
      let jgOffset := codeSize lower
      let upper ← emitBpfDispatcher retpoline progs image buf (a + pivot + 1) b (jgReloc + jgOffset)
      pure (.cmpRdx (sext 32 (progs (a + pivot))) :: .jg near (patch near jgOffset) ::
        (lower ++ upper))
    else none
termination_by b - a

/-- `cmp_ips` -/
def ipLe (a b : Addr) : Bool := a.sle b

def archPrepareBpfDispatcher (retpoline : Retpoline) (image : Addr) (buf : Nat)
    (funcs : List Addr) : Option (List Insn) :=
  let progs := funcs.mergeSort ipLe
  emitBpfDispatcher retpoline (progs.getD · 0) image buf 0 (funcs.length - 1) 0

/-! ## Code at an offset -/

theorem Insn.size_pos (i : Insn) : 0 < i.size := by
  cases i with
  | jg near _ => cases near <;> simp [Insn.size]
  | _ => simp [Insn.size]

@[simp] theorem codeSize_nil : codeSize [] = 0 := rfl

@[simp] theorem codeSize_cons (i : Insn) (code : List Insn) :
    codeSize (i :: code) = i.size + codeSize code := rfl

@[simp] theorem codeSize_append (code code' : List Insn) :
    codeSize (code ++ code') = codeSize code + codeSize code' := by
  simp [codeSize]

theorem fetch_append (pre code : List Insn) (off : Nat) :
    fetch (pre ++ code) (codeSize pre + off) = fetch code off := by
  induction pre with
  | nil => simp
  | cons i pre ih =>
    have hpos := i.size_pos
    rw [cons_append, fetch, codeSize_cons, if_neg (by omega), if_neg (by omega)]
    rw [← ih]
    congr 1
    omega

/-- The fragment starts at this offset of the code. -/
def At (code : List Insn) (off : Nat) (frag : List Insn) : Prop :=
  ∃ pre post, code = pre ++ (frag ++ post) ∧ codeSize pre = off

section
variable {code frag frag' : List Insn} {off : Nat} {i : Insn}

theorem At.append (h : At code off (frag ++ frag')) :
    At code off frag ∧ At code (off + codeSize frag) frag' := by
  obtain ⟨pre, post, hcode, hsize⟩ := h
  refine ⟨⟨pre, frag' ++ post, by simp [hcode], hsize⟩, ⟨pre ++ frag, post, by simp [hcode], ?_⟩⟩
  rw [codeSize_append, hsize]

theorem At.tail (h : At code off (i :: frag)) : At code (off + i.size) frag := by
  have happend : At code off ([i] ++ frag) := h
  exact happend.append.2

theorem At.fetch (h : At code off (i :: frag)) : fetch code off = some i := by
  obtain ⟨pre, post, rfl, rfl⟩ := h
  exact fetch_append pre _ 0

theorem At.le (h : At code off frag) : off + codeSize frag ≤ codeSize code := by
  obtain ⟨pre, post, rfl, rfl⟩ := h
  simp only [codeSize_append]
  omega

end

/-! ## Displacements -/

theorem sext_ofNat {w d : Nat} (hw : w ≤ 64) (hd : 2 * d < 2 ^ w) :
    sext w (ofNat 64 d) = ofNat 64 d := by
  have hpow : 2 ^ w ≤ 2 ^ 64 := Nat.pow_le_pow_right (by decide) hw
  have hmod : d % 2 ^ 64 % 2 ^ w = d := by
    rw [mod_eq_of_lt (by omega : d < 2 ^ 64), mod_eq_of_lt (by omega)]
  have hmsb : ((ofNat 64 d).setWidth w).msb = false := by
    rw [BitVec.msb_eq_false_iff_two_mul_lt, BitVec.toNat_setWidth, toNat_ofNat, hmod]
    exact hd
  rw [sext, BitVec.signExtend_eq_setWidth_of_msb_false hmsb]
  apply BitVec.eq_of_toNat_eq
  simp only [BitVec.toNat_setWidth, toNat_ofNat, hmod]

theorem isSimm32_iff {v : Addr} : isSimm32 v = true ↔ sext 32 v = v := by
  rw [isSimm32, beq_iff_eq, eq_comm]

/-- A displacement that fits leads from the end of the jump to its target. -/
theorem next_add_sext {func next : Addr} (h : isSimm32 (func - next) = true) :
    next + sext 32 (func - next) = func := by
  rw [isSimm32_iff.1 h, BitVec.add_comm, BitVec.sub_add_cancel]

/-! ## Execution of fragments -/

variable {near : Bool}

section
variable {retpoline : Retpoline} {code frag : List Insn} {image x last : Addr} {off : Nat}
    {o : Outcome}

/-- Execution from an offset comes to this end. -/
def Runs (retpoline : Retpoline) (code : List Insn) (image x : Addr) (off : Nat) (last : Addr)
    (o : Outcome) : Prop :=
  ∃ fuel, run retpoline code image x fuel (image + BitVec.ofNat 64 off) last = some o

variable (hsize : codeSize code < 2 ^ 31)
include hsize

theorem fetch_pc {i : Insn} (h : At code off (i :: frag)) :
    fetch code (image + ofNat 64 off - image).toNat = some i := by
  have hle := h.le
  rw [BitVec.add_comm, BitVec.add_sub_cancel, toNat_ofNat, mod_eq_of_lt (by omega)]
  exact h.fetch

theorem Runs.cmpRdx {imm : Addr} (h : At code off (.cmpRdx imm :: frag))
    (hruns : Runs retpoline code image x (off + 7) imm o) :
    Runs retpoline code image x off last o := by
  obtain ⟨fuel, hfuel⟩ := hruns
  refine ⟨fuel + 1, ?_⟩
  rw [run, fetch_pc hsize h]
  simpa [Insn.size, add_assoc, ← ofNat_add] using hfuel

theorem Runs.je {disp : Addr} (h : At code off (.je disp :: frag))
    (hruns : x ≠ last → Runs retpoline code image x (off + 6) last o)
    (htaken : x = last → o = .direct (image + ofNat 64 (off + 6) + disp)) :
    Runs retpoline code image x off last o := by
  by_cases hx : x = last
  · refine ⟨1, ?_⟩
    rw [run, fetch_pc hsize h, htaken hx]
    simp [hx, Insn.size, add_assoc, ← ofNat_add]
  · obtain ⟨fuel, hfuel⟩ := hruns hx
    refine ⟨fuel + 1, ?_⟩
    rw [run, fetch_pc hsize h]
    simpa [hx, Insn.size, add_assoc, ← ofNat_add] using hfuel

theorem Runs.jg {d : Nat} (h : At code off (.jg near (ofNat 64 d) :: frag))
    (hruns : Runs retpoline code image x
      (if last.slt x then off + Insn.size (.jg near 0) + d else off + Insn.size (.jg near 0))
        last o) :
    Runs retpoline code image x off last o := by
  obtain ⟨fuel, hfuel⟩ := hruns
  refine ⟨fuel + 1, ?_⟩
  rw [run, fetch_pc hsize h]
  dsimp only
  split
  next hgt =>
    rw [if_pos hgt] at hfuel
    simpa [Insn.size, add_assoc, ← ofNat_add] using hfuel
  next hle =>
    rw [if_neg hle] at hfuel
    simpa [Insn.size, add_assoc, ← ofNat_add] using hfuel

/-- The thunk is in reach of a jump from this offset. -/
def Retpoline.InReach (retpoline : Retpoline) (image : Addr) (off : Nat) : Prop :=
  ∀ addr, retpoline = .thunk addr → isSimm32 (addr - (image + BitVec.ofNat 64 off + 5)) = true

theorem runs_indirectJump (h : At code off (emitIndirectJump retpoline (image + ofNat 64 off)))
    (hreach : retpoline.InReach image off) : Runs retpoline code image x off last .indirect := by
  cases retpoline with
  | lfence =>
    refine ⟨2, ?_⟩
    have hnext : fetch code (image + ofNat 64 (off + Insn.lfence.size) - image).toNat =
        some .jmpRdx :=
      fetch_pc hsize (At.tail h)
    rw [run, fetch_pc hsize h]
    simp only [add_assoc, ← ofNat_add]
    rw [run, hnext]
  | thunk addr =>
    have hfits := hreach addr rfl
    rw [emitIndirectJump, emitJump, if_pos hfits] at h
    refine ⟨1, ?_⟩
    rw [run, fetch_pc hsize h]
    simp only [some.injEq, ite_eq_left_iff, reduceCtorEq, imp_false, not_not]
    exact next_add_sext hfits
  | off int3 =>
    refine ⟨1, ?_⟩
    rw [run, fetch_pc hsize h]

theorem runs_leaf {p : Addr} {je : List Insn} (hp : isSimm32 p = true)
    (hje : emitCondNearJump p (image + ofNat 64 (off + 7)) = some je)
    (h : At code off (.cmpRdx (sext 32 p) :: je ++
      emitIndirectJump retpoline (image + ofNat 64 (off + 13))))
    (hreach : retpoline.InReach image (off + 13)) :
    Runs retpoline code image x off last (if x = p then .direct x else .indirect) := by
  obtain ⟨hfits, hje⟩ := ite_none_right_eq_some.1 hje
  cases hje
  rw [isSimm32_iff.1 hp] at h
  refine Runs.cmpRdx hsize h (Runs.je hsize h.tail (fun hne => ?_) fun heq => ?_)
  · rw [if_neg hne]
    exact runs_indirectJump hsize h.tail.tail hreach
  · rw [if_pos heq, heq, ofNat_add _ 6, ← add_assoc]
    exact congrArg _ (next_add_sext hfits).symm

end

/-! ## Sizes -/

theorem codeSize_emitNops {len : Nat} (h : len < 16) : codeSize (emitNops len) = len := by
  unfold emitNops
  split
  next h0 => rw [h0]; rfl
  next h0 =>
    split
    · simp [Insn.size]
      omega
    · simp [Insn.size]
      omega

theorem jg_notMem_emitNops (len : Nat) (near : Bool) (disp : Addr) :
    .jg near disp ∉ emitNops len := by
  unfold emitNops
  split
  · simp
  · split <;> simp

theorem codeSize_emitAlign_le (prog : Nat) : codeSize (emitAlign prog) ≤ 15 := by
  rw [emitAlign, codeSize_emitNops (by omega)]
  omega

theorem codeSize_emitIndirectJump_le (retpoline : Retpoline) (ip : Addr) :
    codeSize (emitIndirectJump retpoline ip) ≤ 5 := by
  cases retpoline with
  | lfence => exact le_refl 5
  | thunk addr =>
    rw [emitIndirectJump, emitJump]
    split
    · exact le_refl 5
    · exact zero_le 5
  | off int3 => cases int3 <;> simp [emitIndirectJump, Insn.size]

section
variable {retpoline : Retpoline} {progs : Nat → Addr} {image : Addr} {buf a b off : Nat}
  {code : List Insn}

section
variable (h : emitBpfDispatcher retpoline progs image buf a b off = some code)
include h

theorem emitBpfDispatcher_cases : (b ≤ a ∧ isSimm32 (progs a) = true ∧
      ∃ je, emitCondNearJump (progs a) (image + ofNat 64 (off + 7)) = some je ∧
        code = .cmpRdx (sext 32 (progs a)) :: je ++
          emitIndirectJump retpoline (image + ofNat 64 (off + 13))) ∨
    ∃ pivot near reloc lower upper, a < b ∧ pivot = (b - a) / 2 ∧ near = decide (pivot > 2) ∧
      reloc = off + 7 + Insn.size (.jg near 0) ∧ isSimm32 (progs (a + pivot)) = true ∧
      emitBpfDispatcher retpoline progs image buf a (a + pivot) reloc = some lower ∧
      ∃ pad, codeSize pad ≤ 15 ∧ (∀ near disp, .jg near disp ∉ pad) ∧
        emitBpfDispatcher retpoline progs image buf (a + pivot + 1) b
          (reloc + codeSize (lower ++ pad)) = some upper ∧
        code = .cmpRdx (sext 32 (progs (a + pivot))) ::
          .jg near (patch near (codeSize (lower ++ pad))) :: (lower ++ pad ++ upper) := by
  rw [emitBpfDispatcher] at h
  split at h
  next hle =>
    obtain ⟨hp, h⟩ := ite_none_right_eq_some.1 h
    obtain ⟨je, hje, h⟩ := bind_eq_some_iff.1 h
    exact .inl ⟨hle, hp, je, hje, (some.inj h).symm⟩
  next hlt =>
    obtain ⟨hp, h⟩ := ite_none_right_eq_some.1 h
    obtain ⟨lower, hlower, h⟩ := bind_eq_some_iff.1 h
    obtain ⟨upper, hupper, h⟩ := bind_eq_some_iff.1 h
    exact .inr ⟨_, _, _, lower, upper, Nat.lt_of_not_le hlt, rfl, rfl, rfl, hp, hlower, _,
      codeSize_emitAlign_le _, jg_notMem_emitNops _, hupper, (some.inj h).symm⟩

theorem codeSize_le
    (hb : b ≤ a + 2) : codeSize code ≤ 18 + 42 * (b - a) := by
  induction hn : b - a using Nat.strong_induction_on generalizing a b off code with
  | _ n ih =>
    rcases emitBpfDispatcher_cases h with ⟨hle, _, je, hje, rfl⟩ |
        ⟨pivot, near, reloc, lower, upper, hlt, hpivot, hnear, _, _, hlower, pad, hpad, _,
        hupper, rfl⟩
    · obtain ⟨_, hje⟩ := ite_none_right_eq_some.1 hje
      cases hje
      have hind := codeSize_emitIndirectJump_le retpoline (image + ofNat 64 (off + 13))
      simp only [cons_append, nil_append, codeSize_cons, Insn.size]
      omega
    · have hl := ih pivot (by omega) hlower (by omega) (by omega)
      have hu := ih (b - (a + pivot + 1)) (by omega) hupper (by omega) rfl
      have hshort : near = false := by
        rw [hnear, decide_eq_false_iff_not]
        omega
      simp only [hshort, codeSize_cons, codeSize_append, Insn.size]
      simp only [Bool.false_eq_true, if_false]
      omega

end

theorem patch_eq {lower pad : List Insn} {pivot reloc : Nat}
    (hlower : emitBpfDispatcher retpoline progs image buf a (a + pivot) reloc = some lower)
    (hpad : codeSize pad ≤ 15) (hnear : near = decide (pivot > 2))
    (hsize : codeSize (lower ++ pad) < 2 ^ 31) :
    patch near (codeSize (lower ++ pad)) = ofNat 64 (codeSize (lower ++ pad)) := by
  cases near with
  | true => exact sext_ofNat (by decide) (by omega)
  | false =>
    have hsmall : pivot ≤ 2 := by
      have := of_decide_eq_false hnear.symm
      omega
    have hle := codeSize_le hlower (by omega)
    rw [codeSize_append] at hsize ⊢
    exact sext_ofNat (by decide) (by omega)

theorem append_eq_append_cons {l r pre post : List Insn} {i : Insn}
    (h : l ++ r = pre ++ i :: post) :
    (∃ post', l = pre ++ i :: post' ∧ post = post' ++ r) ∨ ∃ pre', r = pre' ++ i :: post := by
  rcases append_eq_append_iff.1 h with ⟨as, rfl, hr⟩ | ⟨bs, rfl, hi⟩
  · exact .inr ⟨as, hr⟩
  · rcases cons_eq_append_iff.1 hi with ⟨_, hr⟩ | ⟨post', rfl, hpost⟩
    · exact .inr ⟨[], hr⟩
    · exact .inl ⟨post', rfl, hpost⟩

theorem jg_exact {pre post : List Insn} {disp : Addr}
    (h : emitBpfDispatcher retpoline progs image buf a b off = some code)
    (hsize : codeSize code < 2 ^ 31) (hcode : code = pre ++ .jg near disp :: post) :
    ∃ lower upper rest a' b' off', post = lower ++ (upper ++ rest) ∧
      emitBpfDispatcher retpoline progs image buf a' b' off' = some upper ∧
      disp = ofNat 64 (codeSize lower) := by
  induction hn : b - a using Nat.strong_induction_on generalizing a b off code pre post with
  | _ n ih =>
    rcases emitBpfDispatcher_cases h with ⟨hle, _, je, hje, rfl⟩ |
        ⟨pivot, near', reloc, lower, upper, hlt, hpivot, hnear, _, _, hlower, pad, hpad,
        hnojg, hupper,
          rfl⟩
    · have hmem : Insn.jg near disp ∈ pre ++ .jg near disp :: post := by simp
      obtain ⟨_, hje⟩ := ite_none_right_eq_some.1 hje
      cases hje
      rw [← hcode] at hmem
      cases retpoline with
      | lfence => simp [emitIndirectJump] at hmem
      | thunk addr =>
        rw [emitIndirectJump, emitJump] at hmem
        split at hmem <;> simp at hmem
      | off int3 => cases int3 <;> simp [emitIndirectJump] at hmem
    · simp only [codeSize_cons, codeSize_append] at hsize
      rcases cons_eq_append_iff.1 hcode with ⟨_, hhead⟩ | ⟨pre₁, _, hcode₁⟩
      · cases hhead
      rcases cons_eq_append_iff.1 hcode₁ with ⟨_, hhead⟩ | ⟨pre₂, _, hcode₂⟩
      · cases hhead
        exact ⟨lower ++ pad, upper, [], _, _, _, by simp, hupper,
          patch_eq hlower hpad hnear (by rw [codeSize_append]; omega)⟩
      rcases append_eq_append_cons hcode₂ with ⟨post₁, hcode₃, rfl⟩ | ⟨pre₃, hcode₃⟩
      · rcases append_eq_append_cons hcode₃ with ⟨post₂, hcode₄, rfl⟩ | ⟨pre₄, hcode₄⟩
        · obtain ⟨lo, up, rest, a', b', off', rfl, hup, hdisp⟩ :=
            ih _ (by omega) hlower (by omega) hcode₄ rfl
          exact ⟨lo, up, rest ++ (pad ++ upper), a', b', off', by simp, hup, hdisp⟩
        · exact absurd (by rw [hcode₄]; simp) (hnojg near disp)
      · exact ih _ (by omega) hupper (by omega) hcode₃ rfl

/-! ## The search -/

/-- The address is among those of a part. -/
def Found (progs : Nat → Addr) (a b : Nat) (x : Addr) : Prop := ∃ i, a ≤ i ∧ i ≤ b ∧ progs i = x

/-- Comparing with the pivot leaves the part that can have the address. -/
theorem found_iff {x : Addr} {p : Nat} (hap : a ≤ p) (hpb : p < b)
    (hsorted : ∀ i j, a ≤ i → i ≤ j → j ≤ b → (progs i).toInt ≤ (progs j).toInt) :
    Found progs a b x ↔ if (progs p).slt x then Found progs (p + 1) b x else Found progs a p x := by
  split
  next hgt =>
    rw [BitVec.slt_iff_toInt_lt] at hgt
    refine ⟨fun ⟨i, hai, hib, hi⟩ => ⟨i, ?_, hib, hi⟩, fun ⟨i, hpi, hib, hi⟩ =>
      ⟨i, by omega, hib, hi⟩⟩
    by_contra hle
    have := hsorted i p hai (by omega) (by omega)
    rw [hi] at this
    omega
  next hle =>
    rw [BitVec.slt_iff_toInt_lt] at hle
    refine ⟨fun ⟨i, hai, hib, hi⟩ => ?_, fun ⟨i, hai, hip, hi⟩ => ⟨i, hai, by omega, hi⟩⟩
    by_cases hip : i ≤ p
    · exact ⟨i, hai, hip, hi⟩
    · -- an equal address above the pivot is that of the pivot
      have := hsorted p i hap (by omega) hib
      rw [hi] at this
      exact ⟨p, hap, le_refl p, BitVec.eq_of_toInt_eq (by omega)⟩

theorem runs_emitBpfDispatcher {frag : List Insn} {x last : Addr} {o : Outcome}
    (hsize : codeSize code < 2 ^ 31) (hreach : ∀ k ≤ codeSize code, retpoline.InReach image k)
    (hemit : emitBpfDispatcher retpoline progs image buf a b off = some frag)
    (hat : At code off frag)
    (hab : a ≤ b) (hsorted : ∀ i j, a ≤ i → i ≤ j → j ≤ b → (progs i).toInt ≤ (progs j).toInt)
    (ho : Found progs a b x ∧ o = .direct x ∨ ¬Found progs a b x ∧ o = .indirect) :
    Runs retpoline code image x off last o := by
  induction hn : b - a using Nat.strong_induction_on generalizing a b off frag last with
  | _ n ih =>
    rcases emitBpfDispatcher_cases hemit with ⟨hle, hp, je, hje, rfl⟩ |
        ⟨pivot, near, reloc, lower, upper, hlt, hpivot, hnear, hreloc, hp, hlower, pad, hpad,
        _, hupper,
          rfl⟩
    · have hend := hat.le
      have hleaf : Found progs a b x ↔ x = progs a := by
        refine ⟨fun ⟨i, hai, hib, hi⟩ => ?_, fun heq => ⟨a, le_refl a, hab, heq.symm⟩⟩
        rw [← hi, show i = a by omega]
      obtain ⟨hfits, hje'⟩ := ite_none_right_eq_some.1 hje
      have hin : off + 13 ≤ codeSize code := by
        cases hje'
        simp only [cons_append, nil_append, codeSize_cons, Insn.size] at hend
        omega
      have hrun : Runs _ _ _ x off last _ := runs_leaf hsize hp hje hat (hreach (off + 13) hin)
      rw [hleaf] at ho
      rcases ho with ⟨heq, rfl⟩ | ⟨hne, rfl⟩
      · rwa [if_pos heq] at hrun
      · rwa [if_neg hne] at hrun
    · have hd := hat.tail.tail.append.1.le
      rw [isSimm32_iff.1 hp, patch_eq hlower hpad hnear (by omega)] at hat
      have hrest := hat.tail.tail.append
      rw [found_iff (p := a + pivot) (by omega) (by omega) hsorted] at ho
      subst hreloc
      refine Runs.cmpRdx hsize hat (Runs.jg hsize hat.tail ?_)
      split
      next hgt =>
        rw [if_pos hgt] at ho
        exact ih _ (by omega) hupper hrest.2 (by omega)
          (fun i j hi hij hj => hsorted i j (by omega) hij hj) ho rfl
      next hle =>
        rw [if_neg hle] at ho
        exact ih _ (by omega) hlower hrest.1.append.1 (by omega)
          (fun i j hi hij hj => hsorted i j hi hij (by omega)) ho rfl

end

/-- If the code is returned, is shorter than 2 GiB and has the thunk in reach, then it jumps to
`rdx`: directly for one of the functions, and else indirectly. Every `jg` leads to the start of a
part. -/
theorem dispatcher_search (retpoline : Retpoline) (image : Addr) (buf : Nat) (funcs : List Addr)
    (hne : funcs ≠ []) (code : List Insn)
    (hok : archPrepareBpfDispatcher retpoline image buf funcs = some code)
    (hsize : codeSize code < 2 ^ 31) (hreach : ∀ k ≤ codeSize code, retpoline.InReach image k) :
    (∀ x last, Runs retpoline code image x 0 last (if x ∈ funcs then .direct x else .indirect)) ∧
    ∀ pre near disp post, code = pre ++ .jg near disp :: post →
      ∃ lower upper rest a b off, post = lower ++ (upper ++ rest) ∧
        emitBpfDispatcher retpoline ((funcs.mergeSort ipLe).getD · 0) image buf a b off =
          some upper ∧
        disp = BitVec.ofNat 64 (codeSize lower) := by
  refine ⟨fun x last => ?_, fun pre near disp post hcode => jg_exact hok hsize hcode⟩
  have hlen := length_pos_iff.2 hne
  have hperm := mergeSort_perm funcs ipLe
  have hpairs : (funcs.mergeSort ipLe).Pairwise (ipLe · ·) := by
    apply pairwise_mergeSort
    · intro a b c hab hbc
      rw [ipLe, BitVec.sle_iff_toInt_le] at *
      omega
    · intro a b
      rw [Bool.or_eq_true, ipLe, ipLe, BitVec.sle_iff_toInt_le, BitVec.sle_iff_toInt_le]
      omega
  rw [pairwise_iff_getElem] at hpairs
  unfold archPrepareBpfDispatcher at hok
  have hlength := hperm.length_eq
  generalize funcs.mergeSort ipLe = progs at hok hperm hpairs hlength
  have hget : ∀ i (hi : i < progs.length), progs.getD i 0 = progs[i] := by
    intro i hi
    simp [hi]
  have hfound : Found (progs.getD · 0) 0 (funcs.length - 1) x ↔ x ∈ funcs := by
    rw [← hperm.mem_iff, mem_iff_getElem]
    refine ⟨fun ⟨i, _, hi, hx⟩ => ⟨i, by omega, ?_⟩, fun ⟨i, hi, hx⟩ =>
      ⟨i, zero_le i, by omega, ?_⟩⟩
    · exact (hget i (by omega)).symm.trans hx
    · exact (hget i hi).trans hx
  refine runs_emitBpfDispatcher hsize hreach hok ⟨[], [], by simp, rfl⟩ (zero_le _) ?_
    (by rw [hfound]; split <;> simp [*])
  intro i j _ hij hj
  rw [hget i (by omega), hget j (by omega)]
  rcases eq_or_lt_of_le hij with rfl | hlt
  · exact Int.le_refl _
  · exact BitVec.sle_iff_toInt_le.1 (hpairs i j (by omega) (by omega) hlt)

/-- `emit_jump` fails without notice when the thunk is out of reach: there is no jump through
`rdx`. -/
theorem dispatcher_without_jump :
    archPrepareBpfDispatcher (.thunk 0xffffffff81000000) 0x40000000 0 [0x40000100] =
        some [.cmpRdx 0x40000100, .je 0xf3] ∧
      ∀ fuel, run (.thunk 0xffffffff81000000) [.cmpRdx 0x40000100, .je 0xf3] 0x40000000 0 fuel
        0x40000000 0 = none := by
  refine ⟨?_, fun fuel => ?_⟩
  · simp only [archPrepareBpfDispatcher, mergeSort_singleton]
    rw [emitBpfDispatcher]
    rfl
  · rcases fuel with _ | _ | _ | fuel <;> rfl

theorem emitBpfDispatcher_two {retpoline : Retpoline} {progs : Nat → Addr} {image : Addr}
    {buf : Nat}
    {lower upper : List Insn} (hsimm : isSimm32 (progs 0))
    (hlower : emitBpfDispatcher retpoline progs image buf 0 0 9 = some lower)
    (hupper : emitBpfDispatcher retpoline progs image buf 1 1
      (9 + codeSize (lower ++ emitAlign (buf + 9 + codeSize lower))) = some upper) :
    emitBpfDispatcher retpoline progs image buf 0 1 0 = some (.cmpRdx (sext 32 (progs 0)) ::
      .jg false (patch false (codeSize (lower ++ emitAlign (buf + 9 + codeSize lower)))) ::
      (lower ++ emitAlign (buf + 9 + codeSize lower) ++ upper)) := by
  rw [emitBpfDispatcher]
  simp only [Nat.reduceLeDiff, if_false, Nat.sub_zero, Nat.reduceDiv, Nat.add_zero, hsimm, if_true,
    Nat.reduceGT, decide_false, Insn.size, Bool.false_eq_true, Nat.zero_add, Nat.reduceAdd, hlower,
    Option.bind_eq_bind, Option.bind_some, hupper]
  rfl

def twoFuncs : List Addr := [0x40000100, 0x40000200]

theorem dispatcher_search_two :
    ∃ code, archPrepareBpfDispatcher (.off true) 0x40000000 0 twoFuncs = some code ∧
      Runs (.off true) code 0x40000000 0x40000200 0 0 (.direct 0x40000200) ∧
      Runs (.off true) code 0x40000000 0x40000300 0 0 .indirect := by
  have hlower : emitBpfDispatcher (.off true) (twoFuncs.getD · 0) 0x40000000 0 0 0 9 =
      some [.cmpRdx 0x40000100, .je 0xea, .jmpRdx, .int3] := by
    rw [emitBpfDispatcher]
    rfl
  have hupper : emitBpfDispatcher (.off true) (twoFuncs.getD · 0) 0x40000000 0 1 1 32 =
      some [.cmpRdx 0x40000200, .je 0x1d3, .jmpRdx, .int3] := by
    rw [emitBpfDispatcher]
    rfl
  have hsorted : twoFuncs.mergeSort ipLe = twoFuncs := mergeSort_of_pairwise (by decide)
  have hok : archPrepareBpfDispatcher (.off true) 0x40000000 0 twoFuncs =
      some [.cmpRdx 0x40000100, .jg false 23, .cmpRdx 0x40000100, .je 0xea, .jmpRdx, .int3, .nop 6,
        .cmpRdx 0x40000200, .je 0x1d3, .jmpRdx, .int3] := by
    rw [archPrepareBpfDispatcher, hsorted]
    exact emitBpfDispatcher_two (by decide) hlower hupper
  have hsearch := (dispatcher_search _ _ _ _ (by decide) _ hok (by decide)
    (fun k _ addr hthunk => by cases hthunk)).1
  exact ⟨_, hok, hsearch 0x40000200 0, hsearch 0x40000300 0⟩

end LinuxKernel.X86.Dispatcher
