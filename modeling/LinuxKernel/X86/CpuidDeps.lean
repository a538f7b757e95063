import Mathlib

/-!
# Clearing a CPU capability and what depends on it

`clear_cpu_cap` and `setup_clear_cpu_cap` of `arch/x86/kernel/cpu/cpuid-deps.c` scan the table of
dependencies until a scan disables nothing more. A table is the list before its end mark.
-/

namespace LinuxKernel.X86.CpuidDeps

open Finset Relation

/-- `(NCAPINTS + NBUGINTS) * sizeof(u32) * 8` -/
def MAX_FEATURE_BITS : Nat := (22 + 2) * 4 * 8

/-- A bit of the bitmap `disable`. -/
abbrev Feature := Fin MAX_FEATURE_BITS

structure CpuidDep where
  (feature depends : Feature)

/-- `x86_capability` of the CPU, and `cpu_caps_cleared`. -/
structure CpuCaps where
  (capability cleared : Feature → Bool)

structure Scan where
  caps : CpuCaps
  disable : Finset Feature
  changed : Bool

section
variable (clear : CpuCaps → Feature → CpuCaps) (table : List CpuidDep)

def scanDep (st : Scan) (d : CpuidDep) : Scan :=
  if d.depends ∉ st.disable then st
  else if d.feature ∈ st.disable then st
  else ⟨clear st.caps d.feature, insert d.feature st.disable, true⟩

/-- A scan finds every entry in order, or it disables a feature. -/
theorem scan_cases (st : Scan) : (table.foldl (scanDep clear) st = st ∧
        ∀ d ∈ table, d.depends ∈ st.disable → d.feature ∈ st.disable) ∨
      (table.foldl (scanDep clear) st).changed = true ∧
        st.disable ⊂ (table.foldl (scanDep clear) st).disable := by
  induction table generalizing st with
  | nil => simp
  | cons d table ih =>
    rw [List.foldl_cons, List.forall_mem_cons]
    by_cases hfires : d.depends ∈ st.disable ∧ d.feature ∉ st.disable
    · have heq : scanDep clear st d =
          ⟨clear st.caps d.feature, insert d.feature st.disable, true⟩ := by
        simp [scanDep, hfires]
      have hlt : st.disable ⊂ (scanDep clear st d).disable := by
        rw [heq]
        exact ssubset_insert hfires.2
      right
      rcases ih (scanDep clear st d) with ⟨hsame, -⟩ | ⟨hchanged, hgrow⟩
      · rw [hsame]
        exact ⟨by rw [heq], hlt⟩
      · exact ⟨hchanged, hlt.trans hgrow⟩
    · have heq : scanDep clear st d = st := by grind [scanDep]
      rw [heq]
      exact (ih st).imp_left fun hsame => ⟨hsame.1, by simpa using hfires, hsame.2⟩

def scan (st : Scan) : Scan :=
  table.foldl (scanDep clear) { st with changed := false }

def clearLoop (st : Scan) : Scan :=
  let st' := scan clear table st
  if st'.changed then clearLoop st' else st'
termination_by st.disableᶜ.card
decreasing_by
  rename_i hchanged
  rcases scan_cases clear table { st with changed := false } with ⟨hsame, -⟩ | ⟨-, hgrow⟩
  · simp [st', scan, hsame] at hchanged
  · exact card_lt_card (compl_ssubset_compl.mpr hgrow)

def doClearCpuCap (caps : CpuCaps) (feature : Nat) : CpuCaps :=
  if h : feature < MAX_FEATURE_BITS then
    (clearLoop clear table ⟨clear caps ⟨feature, h⟩, {⟨feature, h⟩}, false⟩).caps
  else caps

/-- `clear_feature` for a CPU that is not `NULL` -/
def clearBit (caps : CpuCaps) (feature : Feature) : CpuCaps :=
  { caps with capability := Function.update caps.capability feature false }

def clearCpuCap : CpuCaps → Nat → CpuCaps := doClearCpuCap clearBit table

/-- `clear_feature` for `NULL`, which calls `clear_cpu_cap` for `boot_cpu_data` -/
def clearBoot (caps : CpuCaps) (feature : Feature) : CpuCaps :=
  let caps := clearCpuCap table caps feature
  { caps with cleared := Function.update caps.cleared feature true }

def setupClearCpuCap : CpuCaps → Nat → CpuCaps := doClearCpuCap (clearBoot table) table

end

/-! ## What is cleared -/

/-- The feature, and those from which it is reached through `depends`. -/
def dependents (table : List CpuidDep) (feature : Feature) : Set Feature :=
  { f | ReflTransGen (fun f g => ⟨f, g⟩ ∈ table) f feature }

open Classical in
/-- The capabilities without those of `off`, where `boot` also notes those of `disable`. -/
noncomputable def clearAll (boot : Bool) (caps : CpuCaps) (off disable : Set Feature) :
    CpuCaps where
  capability f := caps.capability f && f ∉ off
  cleared f := caps.cleared f || boot && f ∈ disable

/-- A way to clear a feature, and with it some that depend on it. -/
def Clears (boot : Bool) (table : List CpuidDep) (clear : CpuCaps → Feature → CpuCaps) : Prop :=
  ∀ caps f, ∃ off, clear caps f = clearAll boot caps off {f} ∧ {f} ⊆ off ∧ off ⊆ dependents table f

structure Inv (boot : Bool) (table : List CpuidDep) (caps : CpuCaps) (feature : Feature)
    (st : Scan) : Prop where
  self : feature ∈ st.disable
  caps : ∃ off, st.caps = clearAll boot caps off st.disable ∧ ↑st.disable ⊆ off ∧
    off ⊆ dependents table feature

section
variable {boot : Bool} {table : List CpuidDep} {clear : CpuCaps → Feature → CpuCaps}
  {caps : CpuCaps} {feature : Feature} {st : Scan}

theorem clearAll_clearAll (off disable off' disable' : Set Feature) :
    clearAll boot (clearAll boot caps off disable) off' disable' =
      clearAll boot caps (off ∪ off') (disable ∪ disable') := by
  simp only [clearAll, CpuCaps.mk.injEq]
  constructor <;> ext f <;> grind

theorem Inv.scanDep (hclear : Clears boot table clear) (h : Inv boot table caps feature st)
    {d : CpuidDep} (hd : d ∈ table) : Inv boot table caps feature (scanDep clear st d) := by
  unfold CpuidDeps.scanDep
  split_ifs with hdep hnew
  · exact h
  · obtain ⟨off, hcaps, hlow, hup⟩ := h.caps
    obtain ⟨off', hrun, hlow', hup'⟩ := hclear st.caps d.feature
    have hreach : d.feature ∈ dependents table feature := .head hd (hup (hlow hdep))
    refine ⟨mem_insert_of_mem h.self, off ∪ off', ?_, ?_, ?_⟩
    · rw [hrun, hcaps, clearAll_clearAll, coe_insert, Set.insert_eq, Set.union_comm {_}]
    · rw [coe_insert, Set.insert_eq, Set.union_comm]
      exact Set.union_subset_union hlow hlow'
    · apply Set.union_subset hup
      exact fun f hf => (hup' hf).trans hreach
  · exact h

theorem clearLoop_inv (hclear : Clears boot table clear) (h : Inv boot table caps feature st) :
    Inv boot table caps feature (clearLoop clear table st) ∧
      ∀ d ∈ table, d.depends ∈ (clearLoop clear table st).disable →
        d.feature ∈ (clearLoop clear table st).disable := by
  fun_induction clearLoop clear table st with
  | case1 st st' hchanged ih =>
    apply ih
    apply List.foldlRecOn
    · exact ⟨h.self, h.caps⟩
    · exact fun st h d hd => h.scanDep hclear hd
  | case2 st st' hchanged =>
    rcases scan_cases clear table { st with changed := false } with ⟨hsame, hclosed⟩ | ⟨hset, -⟩
    · simp only [st', scan, hsame]
      exact ⟨⟨h.self, h.caps⟩, hclosed⟩
    · exact absurd hset hchanged

theorem doClearCpuCap_spec (hclear : Clears boot table clear) :
    doClearCpuCap clear table caps feature =
      clearAll boot caps (dependents table feature) (dependents table feature) := by
  have hinit : Inv boot table caps feature ⟨clear caps feature, {feature}, false⟩ := by
    refine ⟨mem_singleton_self _, ?_⟩
    simpa using hclear caps feature
  rw [doClearCpuCap, dif_pos feature.isLt]
  change (clearLoop clear table ⟨clear caps feature, {feature}, false⟩).caps = _
  have hfinal := clearLoop_inv hclear hinit
  generalize clearLoop clear table _ = st at hfinal ⊢
  obtain ⟨⟨hself, off, hcaps, hlow, hup⟩, hclosed⟩ := hfinal
  have hall : dependents table feature ⊆ st.disable := by
    intro f hreach
    induction hreach using ReflTransGen.head_induction_on with
    | refl => exact hself
    | head hdep _ ih => exact hclosed _ hdep ih
  rw [hcaps, hup.antisymm (hall.trans hlow), (hlow.trans hup).antisymm hall]

theorem clears_clearBit : Clears false table clearBit := by
  refine fun caps f => ⟨{f}, ?_, subset_rfl, Set.singleton_subset_iff.mpr .refl⟩
  simp only [clearBit, clearAll, CpuCaps.mk.injEq]
  constructor <;> ext g <;> by_cases hg : g = f <;> simp [hg]

theorem clears_clearBoot : Clears true table (clearBoot table) := by
  refine fun caps f => ⟨dependents table f, ?_, Set.singleton_subset_iff.mpr .refl, subset_rfl⟩
  rw [clearBoot, clearCpuCap, doClearCpuCap_spec clears_clearBit]
  simp only [clearAll, CpuCaps.mk.injEq, true_and]
  ext g
  by_cases hg : g = f <;> simp [hg]

end

/-- Both calls clear just the feature and what depends on it, in every order of the table. -/
theorem clearCpuCap_closure (table : List CpuidDep) (caps : CpuCaps) (feature : Feature) :
    ∃ disable, (∀ f, f ∈ disable ↔ ReflTransGen (fun f g => ⟨f, g⟩ ∈ table) f feature) ∧
      ∀ table', table'.Perm table →
        clearCpuCap table' caps feature = clearAll false caps disable disable ∧
          setupClearCpuCap table' caps feature = clearAll true caps disable disable := by
  refine ⟨dependents table feature, fun f => Iff.rfl, fun table' hperm => ?_⟩
  have hsame : dependents table feature = dependents table' feature := by
    simp only [dependents, hperm.mem_iff]
  rw [hsame]
  exact ⟨doClearCpuCap_spec clears_clearBit, doClearCpuCap_spec clears_clearBoot⟩

/-- After any calls of the two for `boot_cpu_data` a feature is left if none was for one it
depends on, and those of `setup_clear_cpu_cap` are noted. So no feature is left without what it
depends on. -/
theorem clearCpuCap_run (table : List CpuidDep) (caps : CpuCaps) (calls : List (Bool × Feature)) :
    let left := calls.foldl
      (fun caps c => (if c.1 then setupClearCpuCap else clearCpuCap) table caps c.2) caps
    (∀ f, (left.capability f ↔ caps.capability f ∧ ∀ c ∈ calls, f ∉ dependents table c.2) ∧
      (left.cleared f ↔ caps.cleared f ∨ ∃ c ∈ calls, c.1 ∧ f ∈ dependents table c.2)) ∧
    ((∀ d ∈ table, caps.capability d.feature → caps.capability d.depends) →
      ∀ d ∈ table, left.capability d.feature → left.capability d.depends) := by
  refine (and_iff_left_of_imp fun hleft hcaps d hd hfeature => ?_).mpr fun f => ?_
  · rw [(hleft _).1] at hfeature ⊢
    exact ⟨hcaps d hd hfeature.1, fun c hc hreach => hfeature.2 c hc (.head hd hreach)⟩
  · induction calls generalizing caps with
    | nil => simp
    | cons c calls ih =>
      have hcall : (if c.1 then setupClearCpuCap else clearCpuCap) table caps c.2 =
          clearAll c.1 caps (dependents table c.2) (dependents table c.2) := by
        cases c.1
        · exact doClearCpuCap_spec clears_clearBit
        · exact doClearCpuCap_spec clears_clearBoot
      rw [List.foldl_cons, hcall]
      refine ⟨(ih _).1.trans ?_, (ih _).2.trans ?_⟩
      · simp [clearAll, and_assoc]
      · simp [clearAll, or_assoc]

end LinuxKernel.X86.CpuidDeps
