import LinuxKernel.Bpf.ReloCore

/-!
# The size of a type

`tools/lib/bpf/btf.c`, `btf__resolve_size` in the arithmetic of the machine: the number
of elements is a `__u32`, the product with the size a `__s64`.
-/

namespace LinuxKernel.Bpf

open BitVec BtfType

def resolvedSize64 (nelems : U32) (size : Nat) : Except CoreFailure (BitVec 64) :=
  if nelems.toNat ≠ 0 ∧ UINT32_MAX / nelems.toNat < size then .error .e2big
  else .ok (nelems.setWidth 64 * BitVec.ofNat 64 size)

def resolveSizeFrom64 (btf : BtfView) : Nat → U32 → Nat → Except CoreFailure (BitVec 64)
  | 0, _, _ => .error .einval
  | depth + 1, nelems, id =>
    match btf.typeById id with
    | none => .error .einval
    | some t =>
      match t.kind with
      | .int | .struct | .union | .enum | .enum64 | .datasec | .float =>
        resolvedSize64 nelems t.size.toNat
      | .ptr => resolvedSize64 nelems btf.ptrSz
      | .typedef | .volatile | .const | .restrict | .var | .declTag | .typeTag =>
        resolveSizeFrom64 btf depth nelems t.type
      | .array =>
        if nelems.toNat ≠ 0 ∧ UINT32_MAX / nelems.toNat < t.array.nelems.toNat then .error .e2big
        else resolveSizeFrom64 btf depth (nelems * t.array.nelems) t.array.type.toNat
      | _ => .error .einval

def btfResolveSize64 (btf : BtfView) (id : Nat) : Except CoreFailure (BitVec 64) :=
  resolveSizeFrom64 btf MAX_RESOLVE_DEPTH 1 id

theorem mul_le_of_checked {a b : Nat} (h : ¬ (a ≠ 0 ∧ UINT32_MAX / a < b)) :
    a * b ≤ UINT32_MAX := by
  by_cases ha : a = 0
  · simp [ha]
  · rw [Nat.mul_comm]
    exact (Nat.le_div_iff_mul_le (by omega)).mp (by omega)

theorem toNat_resolvedSize64 (nelems : U32) (size : Nat) :
    (resolvedSize64 nelems size).map BitVec.toNat = resolvedSize nelems.toNat size := by
  rw [resolvedSize64, resolvedSize]
  split
  next => rfl
  next h =>
    have hle := mul_le_of_checked h
    have hmax : UINT32_MAX < 2 ^ 64 := by decide
    have := nelems.isLt
    simp only [Except.map, toNat_mul, toNat_ofNat, Nat.mul_mod_mod, toNat_setWidth, Nat.mod_mul_mod]
    rw [Nat.mod_eq_of_lt (by omega)]

theorem toNat_resolveSizeFrom64 (btf : BtfView) (depth : Nat) (nelems : U32) (id : Nat) :
    (resolveSizeFrom64 btf depth nelems id).map BitVec.toNat =
      resolveSizeFrom btf depth nelems.toNat id := by
  induction depth generalizing nelems id with
  | zero => rfl
  | succ depth ih =>
    rw [resolveSizeFrom64, resolveSizeFrom]
    cases btf.typeById id with
    | none => rfl
    | some t =>
      dsimp only
      cases hk : t.kind
      case array =>
        dsimp only
        split
        next => rfl
        next h =>
          rw [ih, toNat_mul, Nat.mod_eq_of_lt]
          exact Nat.lt_of_le_of_lt (mul_le_of_checked h) (by decide)
      all_goals first
        | rfl
        | exact toNat_resolvedSize64 _ _
        | exact ih _ _

/-! ## Chains of types -/

/-- The dimensions of the arrays on the way from a type to one with a size of its own,
and that size. -/
def sizeChain (follow : BtfType → Bool) (btf : BtfView) : Nat → Nat → Option (List Nat × Nat)
  | 0, _ => none
  | depth + 1, id => do
    let t ← btf.typeById id
    if follow t then sizeChain follow btf depth t.type
    else match t.kind with
      | .int | .struct | .union | .enum | .enum64 | .datasec | .float => some ([], t.size.toNat)
      | .ptr => some ([], btf.ptrSz)
      | .array =>
        (sizeChain follow btf depth t.array.type.toNat).map fun (dims, size) =>
          (t.array.nelems.toNat :: dims, size)
      | _ => none

def BtfType.isAlias (t : BtfType) : Bool :=
  t.isMod || t.isTypedef || t.kind = .var || t.kind = .declTag

theorem resolveSizeFrom_ok {btf : BtfView} {depth nelems id v : Nat}
    (hn : nelems ≤ UINT32_MAX) (h : resolveSizeFrom btf depth nelems id = .ok v) :
    ∃ dims size, sizeChain isAlias btf depth id = some (dims, size) ∧
      v = nelems * dims.prod * size ∧ v ≤ UINT32_MAX ∧
      ∀ k, nelems * (dims.take k).prod ≤ UINT32_MAX := by
  have hdone : ∀ {nelems size : Nat}, resolvedSize nelems size = .ok v →
      v = nelems * [].prod * size ∧ v ≤ UINT32_MAX := by
    intro nelems size h
    rw [resolvedSize] at h
    split at h
    next => cases h
    next hc =>
      cases h
      exact ⟨by simp, mul_le_of_checked hc⟩
  induction depth generalizing nelems id with
  | zero => cases h
  | succ depth ih =>
    rw [resolveSizeFrom] at h
    rw [sizeChain]
    cases ht : btf.typeById id with
    | none => simp [ht] at h
    | some t =>
      simp only [ht] at h
      cases hk : t.kind
      case array =>
        simp only [hk] at h
        split at h
        next => cases h
        next hc =>
          obtain ⟨dims, size, hchain, hv, hle, hprefix⟩ := ih (mul_le_of_checked hc) h
          refine ⟨t.array.nelems.toNat :: dims, size,
            by simp [isAlias, isMod, isTypedef, hk, hchain],
            by rw [hv, List.prod_cons, Nat.mul_assoc nelems], hle, fun k => ?_⟩
          cases k with
          | zero => simpa using hn
          | succ k =>
            rw [List.take_succ_cons, List.prod_cons, ← Nat.mul_assoc]
            exact hprefix k
      case int | struct | union | enum | enum64 | datasec | float | ptr =>
        simp only [hk] at h
        obtain ⟨hv, hle⟩ := hdone h
        refine ⟨[], _, ?_, hv, hle, by simpa using hn⟩
        simp [isAlias, isMod, isTypedef, hk]
      case typedef | volatile | const | restrict | var | declTag | typeTag =>
        simp only [hk] at h
        obtain ⟨dims, size, hchain, hrest⟩ := ih hn h
        refine ⟨dims, size, ?_, hrest⟩
        simpa [isAlias, isMod, isTypedef, hk] using hchain
      all_goals simp [hk] at h

/-- A size that is returned is the exact product of the dimensions and the size at the
end of the chain, which is reached within `MAX_RESOLVE_DEPTH` steps; a product beyond
32 bits is an error. -/
theorem btfResolveSize_exact (btf : BtfView) (id : Nat) :
    (∀ v, btfResolveSize64 btf id = .ok v →
      ∃ dims size, sizeChain BtfType.isAlias btf MAX_RESOLVE_DEPTH id = some (dims, size) ∧
        v.toNat = dims.prod * size ∧ ∀ k, (dims.take k).prod ≤ UINT32_MAX) ∧
    ∀ dims size, sizeChain BtfType.isAlias btf MAX_RESOLVE_DEPTH id = some (dims, size) →
      UINT32_MAX < dims.prod * size → ∃ e, btfResolveSize64 btf id = .error e := by
  have hok : ∀ v, btfResolveSize64 btf id = .ok v →
      resolveSizeFrom btf MAX_RESOLVE_DEPTH 1 id = .ok v.toNat := by
    intro v hv
    have := toNat_resolveSizeFrom64 btf MAX_RESOLVE_DEPTH 1 id
    rwa [show resolveSizeFrom64 btf MAX_RESOLVE_DEPTH 1 id = .ok v from hv, eq_comm] at this
  constructor
  · intro v hv
    obtain ⟨dims, size, hchain, hval, -, hprefix⟩ := resolveSizeFrom_ok (by decide) (hok v hv)
    exact ⟨dims, size, hchain, by simpa using hval, by simpa using hprefix⟩
  intro dims size hchain hbig
  cases hv : btfResolveSize64 btf id with
  | error e => exact ⟨e, rfl⟩
  | ok v =>
    obtain ⟨_, _, hchain', hval, hle, -⟩ := resolveSizeFrom_ok (by decide) (hok v hv)
    cases hchain.symm.trans hchain'
    rw [Nat.one_mul] at hval
    omega

/-- The size of a variable is found, which is no typedef, modifier or array. -/
theorem btfResolveSize_var :
    let btf : BtfView := ⟨[⟨0, 0x01000000, 4, [32], rfl⟩, ⟨0, 0x0e000000, 1, [0], rfl⟩], [], 8⟩
    btfResolveSize64 btf 2 = .ok 4 ∧
      sizeChain (fun t => t.isMod || t.isTypedef) btf MAX_RESOLVE_DEPTH 2 = none := by
  decide

end LinuxKernel.Bpf
