import LinuxKernel.Bpf.BtfDedup

/-!
# The comparison of two aggregates

`btf_dedup_identical_structs` calls itself for members of different type, with nothing that stops it
from coming back to a pair it is comparing already. Where it ends, its result does not depend on the
depth that is allowed.
-/

namespace LinuxKernel.Bpf

open List BtfType Except

def RefsInRange (n : Nat) (types : List BtfType) : Prop :=
  ∀ t ∈ types, ∀ id ∈ t.typeIds, id.toNat < n

instance (n : Nat) (types : List BtfType) : Decidable (RefsInRange n types) :=
  decidable_of_iff ((types.all fun t => t.typeIds.all fun id => decide (id.toNat < n)) = true)
    (by simp [RefsInRange])

variable {types : List BtfType}

theorem typeAt_eq_ok {id : Nat} {t : BtfType} : typeAt types id = .ok t ↔ types[id]? = some t := by
  unfold typeAt
  cases types[id]? <;> simp

theorem except_bind_eq_ok {ε α β : Type} {x : Except ε α} {f : α → Except ε β} {b : β} :
    (x >>= f) = .ok b ↔ ∃ a, x = .ok a ∧ f a = .ok b := by
  cases x with
  | ok a | error e => simp [bind, Except.bind]

variable {fuel id1 id2 : Nat} {b : Bool}

theorem identicalStructs_succ_eq_ok : identicalStructs types (fuel + 1) id1 id2 = .ok b ↔
      ∃ t1 t2, types[id1]? = some t1 ∧ types[id2]? = some t2 ∧
        (if (t1.isComposite && t1.kind = t2.kind && btfShallowEqualStruct t1 t2) = true then
          identicalMembers types (identicalStructs types fuel) (t1.members.zip t2.members)
        else pure false) = .ok b := by
  rw [identicalStructs]
  simp only [except_bind_eq_ok, typeAt_eq_ok]
  constructor
  · rintro ⟨t1, ht1, t2, ht2, h⟩
    exact ⟨t1, t2, ht1, ht2, h⟩
  · rintro ⟨t1, t2, ht1, ht2, h⟩
    exact ⟨t1, ht1, t2, ht2, h⟩

variable {identical : Nat → Nat → Except Failure Bool} {rest : List (BtfMember × BtfMember)}

theorem identicalMembers_cons_eq_ok {m1 m2 : BtfMember} :
    identicalMembers types identical ((m1, m2) :: rest) = .ok b ↔
      if m1.type = m2.type then identicalMembers types identical rest = .ok b
      else ∃ same, identicalArrays types m1.type.toNat m2.type.toNat = .ok same ∧
        if same = true then identicalMembers types identical rest = .ok b
        else ∃ same, identical m1.type.toNat m2.type.toNat = .ok same ∧
          if same = true then identicalMembers types identical rest = .ok b else b = false := by
  rw [identicalMembers]
  split
  · rfl
  simp only [except_bind_eq_ok]
  refine exists_congr fun same => and_congr_right fun _ => ?_
  split
  · rfl
  simp only [except_bind_eq_ok]
  refine exists_congr fun same => and_congr_right fun _ => ?_
  split
  · rfl
  · simp [pure, Except.pure, eq_comm]

variable {l : List (BtfMember × BtfMember)}

theorem identicalMembers_mono {identical' : Nat → Nat → Except Failure Bool}
    (hle : ∀ id1 id2 b, identical id1 id2 = .ok b → identical' id1 id2 = .ok b)
    (h : identicalMembers types identical l = .ok b) :
    identicalMembers types identical' l = .ok b := by
  induction l with
  | nil => exact h
  | cons p l ih =>
    rw [identicalMembers_cons_eq_ok] at h ⊢
    split
    next heq =>
      rw [if_pos heq] at h
      exact ih h
    next hne =>
      rw [if_neg hne] at h
      obtain ⟨same, harr, h⟩ := h
      refine ⟨same, harr, ?_⟩
      split
      · rename_i hsame
        rw [if_pos hsame] at h
        exact ih h
      rename_i hsame
      rw [if_neg hsame] at h
      obtain ⟨same', hrec, h⟩ := h
      refine ⟨same', hle _ _ _ hrec, ?_⟩
      split
      · rename_i hsame'
        rw [if_pos hsame'] at h
        exact ih h
      · rename_i hsame'
        rwa [if_neg hsame'] at h

variable {fuel' : Nat}

theorem identicalStructs_mono (hle : fuel ≤ fuel')
    (h : identicalStructs types fuel id1 id2 = .ok b) :
    identicalStructs types fuel' id1 id2 = .ok b := by
  induction fuel generalizing fuel' id1 id2 b with
  | zero => simp [identicalStructs, throw, throwThe, MonadExceptOf.throw] at h
  | succ fuel ih =>
    obtain ⟨fuel', rfl⟩ : ∃ k, fuel' = k + 1 := ⟨fuel' - 1, by omega⟩
    rw [identicalStructs_succ_eq_ok] at h ⊢
    obtain ⟨t1, t2, ht1, ht2, h⟩ := h
    refine ⟨t1, t2, ht1, ht2, ?_⟩
    split
    next hcond =>
      rw [if_pos hcond] at h
      exact identicalMembers_mono (fun _ _ _ => ih (by omega)) h
    next hcond => rwa [if_neg hcond] at h

theorem identicalArrays_ok (h1 : id1 < types.length) (h2 : id2 < types.length) :
    ∃ same, identicalArrays types id1 id2 = .ok same := by
  unfold identicalArrays
  rw [typeAt_eq_ok.2 (getElem?_eq_getElem h1), typeAt_eq_ok.2 (getElem?_eq_getElem h2)]
  exact ⟨_, rfl⟩

end LinuxKernel.Bpf
