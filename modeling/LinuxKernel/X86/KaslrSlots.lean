import LinuxKernel.X86.Kaslr

/-!
# The slots of the random placement

Cutting a RAM entry at the lowest overlap and going on behind it loses no place for the image and
stores none twice. So the slots that `slots_fetch_random` chooses from are exactly the places for
the image, each of them once.
-/

namespace LinuxKernel.X86.Kaslr

open List Nat

/-! ## The stored slots -/

def areaSlots (env : Env) (area : SlotArea) : List Nat :=
  (List.range area.num).map fun j => area.addr + j * env.physicalAlign

def slots (env : Env) (areas : List SlotArea) : List Nat := areas.flatMap (areaSlots env)

@[simp]
theorem slots_nil (env : Env) : slots env [] = [] := rfl

@[simp]
theorem slots_cons (env : Env) (area : SlotArea) (areas : List SlotArea) :
    slots env (area :: areas) = areaSlots env area ++ slots env areas := rfl

@[simp]
theorem slots_append (env : Env) (as bs : List SlotArea) :
    slots env (as ++ bs) = slots env as ++ slots env bs := flatMap_append ..

@[simp]
theorem length_areaSlots (env : Env) (area : SlotArea) :
    (areaSlots env area).length = area.num := by
  simp [areaSlots]

variable {env : Env}

theorem mem_areaSlots {area : SlotArea} {a : Nat} :
    a ∈ areaSlots env area ↔ ∃ j < area.num, area.addr + j * env.physicalAlign = a := by
  simp [areaSlots]

theorem nodup_areaSlots (env : Env) (area : SlotArea) : (areaSlots env area).Nodup := by
  refine nodup_range.map ?_
  intro i j hij
  have hmul : i * env.physicalAlign = j * env.physicalAlign := by
    dsimp only at hij
    omega
  exact eq_of_mul_eq_mul_right env.physicalAlign_pos hmul

theorem fetchSlot_eq {areas : List SlotArea}
    (hlt : ∀ a ∈ slots env areas, a < 2 ^ 64) {slot : Nat}
    (hslot : slot < (slots env areas).length) :
    fetchSlot env areas slot = (slots env areas).getD slot 0 := by
  induction areas generalizing slot with
  | nil => exact absurd hslot (not_lt_zero _)
  | cons area areas ih =>
    rw [slots_cons, length_append, length_areaSlots] at hslot
    rw [fetchSlot, slots_cons]
    split
    · rw [getD_append_right _ _ _ _ (by rwa [length_areaSlots]), length_areaSlots]
      exact ih (fun a ha => hlt a (by simp [ha])) (by omega)
    next hin =>
      rw [not_le] at hin
      have hmem : area.addr + slot * env.physicalAlign ∈ slots env (area :: areas) := by
        rw [slots_cons, mem_append]
        exact .inl (mem_areaSlots.mpr ⟨slot, hin, rfl⟩)
      have hword := hlt _ hmem
      rw [getD_append _ _ _ _ (by rwa [length_areaSlots]), mod_eq_of_lt (by omega),
        wadd_eq hword]
      simp [areaSlots, hin]

theorem bijOn_getD {l : List Nat} (hl : l.Nodup) :
    Set.BijOn (fun r => l.getD r 0) (Set.Iio l.length) {a | a ∈ l} := by
  have hget : ∀ r (hr : r < l.length), l.getD r 0 = l[r] := fun r hr => getD_eq_getElem l 0 hr
  refine ⟨fun r hr => ?_, fun r hr r' hr' heq => ?_, fun a ha => ?_⟩
  · show l.getD r 0 ∈ l
    rw [hget r hr]
    exact getElem_mem hr
  · dsimp only at heq
    rw [hget r hr, hget r' hr'] at heq
    exact (Nodup.getElem_inj_iff hl).mp heq
  · obtain ⟨r, hr, rfl⟩ := mem_iff_getElem.mp ha
    exact ⟨r, hr, hget r hr⟩

/-! ## What a region adds -/

/-- `slot_max` is the number of slots, and far from an overflow. -/
def Counted (env : Env) (st : SlotState) : Prop :=
  st.slotMax = (slots env st.areas).length ∧ st.slotMax ≤ st.areas.length * 2 ^ 44

/-- From `st` to `st'` the slots in `S` were stored, each once, and no 1 GiB page was skipped. -/
structure Stores (env : Env) (st st' : SlotState) (S : Set Nat) : Prop where
  areas : ∃ new, st'.areas = st.areas ++ new ∧ (slots env new).Nodup ∧
    ∀ a, a ∈ slots env new ↔ a ∈ S
  counted : Counted env st → Counted env st'
  pages : st.maxGbHugePages = 0 → st'.maxGbHugePages = 0

theorem Stores.refl (env : Env) (st : SlotState) {S : Set Nat} (hS : ∀ a, a ∉ S) :
    Stores env st st S where
  areas := ⟨[], by simp, nodup_nil, fun a => by simp [hS a]⟩
  counted := id
  pages := id

theorem Stores.trans {st₁ st₂ st₃ : SlotState} {S T U : Set Nat}
    (h₁ : Stores env st₁ st₂ S) (h₂ : Stores env st₂ st₃ T) (hU : ∀ a, a ∈ U ↔ a ∈ S ∨ a ∈ T)
    (hdisj : ∀ a ∈ S, a ∉ T) : Stores env st₁ st₃ U where
  areas := by
    obtain ⟨new₁, hareas₁, hnodup₁, hmem₁⟩ := h₁.areas
    obtain ⟨new₂, hareas₂, hnodup₂, hmem₂⟩ := h₂.areas
    refine ⟨new₁ ++ new₂, by rw [hareas₂, hareas₁, append_assoc], ?_, fun a => ?_⟩
    · rw [slots_append, nodup_append]
      refine ⟨hnodup₁, hnodup₂, ?_⟩
      rintro a ha _ hb rfl
      exact hdisj a ((hmem₁ a).mp ha) ((hmem₂ a).mp hb)
    · rw [slots_append, mem_append, hmem₁, hmem₂, hU]
  counted := h₂.counted ∘ h₁.counted
  pages := h₂.pages ∘ h₁.pages

/-- The aligned places for the image between `lo` and `hi`. -/
def regionSlots (env : Env) (imageSize lo hi : Nat) : Set Nat :=
  {a | env.physicalAlign ∣ a ∧ lo ≤ a ∧ a + imageSize ≤ hi ∧
    ∀ v ∈ env.avoid, v.start + v.size ≤ a ∨ a + imageSize ≤ v.start}

variable {imageSize lo hi : Nat} {st : SlotState}

theorem storeSlotInfo_stores {region : MemVector} (hshift : 21 ≤ env.alignShift) (hhi : hi < 2 ^ 64)
    (hfree : env.Free imageSize lo hi region) (hroom : st.areas.length < MAX_SLOT_AREA) :
    Stores env st (storeSlotInfo env imageSize st region)
      (regionSlots env imageSize region.start (region.start + region.size)) := by
  have hle := hfree.le_hi
  have himage := hfree.image_le
  have hpos := env.physicalAlign_pos
  have hnum := @num_eq env (by omega) region.size imageSize himage (by omega)
  have hnumLe : 1 + (region.size - imageSize) / env.physicalAlign ≤ 2 ^ 44 := by
    have hpow : 2 ^ 21 ≤ env.physicalAlign := Nat.pow_le_pow_right Nat.two_pos hshift
    have hdiv : (region.size - imageSize) / env.physicalAlign ≤
        (region.size - imageSize) / 2 ^ 21 :=
      Nat.div_le_div_left hpow (Nat.two_pow_pos 21)
    omega
  unfold storeSlotInfo
  rw [if_neg (by omega), hnum]
  refine ⟨⟨[⟨region.start, 1 + (region.size - imageSize) / env.physicalAlign⟩], rfl, ?_,
    ?_⟩, ?_, id⟩
  · simpa using nodup_areaSlots env _
  · intro a
    rw [slots_cons, slots_nil, append_nil, mem_areaSlots]
    constructor
    · rintro ⟨j, hj, rfl⟩
      have hslot : j * env.physicalAlign ≤ region.size - imageSize :=
        (le_div_iff_mul_le hpos).mp (by dsimp only at hj; omega)
      refine ⟨(Nat.dvd_add_right hfree.dvd).mpr (Nat.dvd_mul_left ..), by dsimp only; omega,
        by dsimp only; omega, fun v hv => ?_⟩
      have := hfree.apart v hv
      dsimp only
      omega
    · rintro ⟨hdvd, hlo, himg, -⟩
      obtain ⟨j, hj⟩ := dvd_sub hdvd hfree.dvd
      refine ⟨j, ?_, ?_⟩
      · have hle : j ≤ (region.size - imageSize) / env.physicalAlign := by
          rw [le_div_iff_mul_le hpos, mul_comm]
          omega
        dsimp only
        omega
      · rw [mul_comm] at hj
        dsimp only
        omega
  · rintro ⟨hcount, hbound⟩
    simp only [MAX_SLOT_AREA] at hroom
    refine ⟨?_, ?_⟩
    · dsimp only
      rw [wadd_eq (by omega), slots_append, length_append, ← hcount]
      simp
    · dsimp only
      rw [wadd_eq (by omega), length_append, length_singleton]
      omega

theorem processGbHugePages_noPages (h : st.maxGbHugePages = 0) (region : MemVector) :
    processGbHugePages env imageSize st region = storeSlotInfo env imageSize st region := if_pos h

/-- A place that does not fit in front of an avoided range lies behind it. -/
theorem mem_regionSlots_split {o : MemVector}
    (ho : o ∈ env.avoid) (hlo : lo < o.start + o.size) (hhi : o.start < hi) (a : Nat) :
    a ∈ regionSlots env imageSize lo hi ↔ a ∈ regionSlots env imageSize lo o.start ∨
        a ∈ regionSlots env imageSize (o.start + o.size) hi := by
  constructor
  · rintro ⟨hdvd, hle, himage, hapart⟩
    rcases hapart o ho with hbehind | hbefore
    · exact .inr ⟨hdvd, hbehind, himage, hapart⟩
    · exact .inl ⟨hdvd, hle, hbefore, hapart⟩
  · rintro (⟨hdvd, hle, himage, hapart⟩ | ⟨hdvd, hle, himage, hapart⟩)
    · exact ⟨hdvd, hle, by omega, hapart⟩
    · exact ⟨hdvd, by omega, himage, hapart⟩

theorem regionSlots_align (hroom : lo + env.physicalAlign ≤ 2 ^ 64) :
    regionSlots env imageSize (align lo env.physicalAlign) hi =
      regionSlots env imageSize lo hi := by
  have hpos := env.physicalAlign_pos
  ext a
  constructor
  · rintro ⟨hdvd, hle, hrest⟩
    exact ⟨hdvd, le_trans (le_align hpos hroom) hle, hrest⟩
  · rintro ⟨hdvd, hle, hrest⟩
    exact ⟨hdvd, align_le_of_dvd hpos hroom hle hdvd, hrest⟩

theorem Stores.none (h : hi < lo + imageSize) :
    Stores env st st (regionSlots env imageSize lo hi) := by
  refine Stores.refl env st fun a ha => ?_
  have := ha.2.1
  have := ha.2.2.1
  omega

section
variable {env : Env} {imageSize hi : Nat} (hshift : 21 ≤ env.alignShift) (himage : 0 < imageSize)
  (hhi : hi < 2 ^ 64)
include hshift himage hhi

theorem storeBeforeOverlap_stores {start : Nat} {o : MemVector}
    (hpages : st.maxGbHugePages = 0) (hroom : st.areas.length < MAX_SLOT_AREA)
    (hword : start + imageSize < 2 ^ 64)
    (hfree : start + imageSize ≤ o.start → env.Free imageSize start hi ⟨start, o.start - start⟩) :
    Stores env st
      (if wadd start imageSize ≤ o.start then
        processGbHugePages env imageSize st ⟨start, o.start - start⟩ else st)
      (regionSlots env imageSize start o.start) := by
  rw [wadd_eq hword]
  split
  next hle =>
    rw [processGbHugePages_noPages hpages]
    have h := storeSlotInfo_stores hshift hhi (hfree hle) hroom
    dsimp only at h
    rwa [Nat.add_sub_cancel' (by omega)] at h
  · exact Stores.none (by omega)

theorem processMemRegionLoop_stores (havoid : ∀ v ∈ env.avoid, v.NoWrap env.physicalAlign)
    {fuel : Nat} {st st' : SlotState} {start : Nat} (hpages : st.maxGbHugePages = 0)
    (hroom : start + env.physicalAlign ≤ 2 ^ 64)
    (hloop : processMemRegionLoop env imageSize hi fuel st start = some st')
    (hfinal : st'.areas.length < MAX_SLOT_AREA) :
    Stores env st st' (regionSlots env imageSize start hi) := by
  have hpos := env.physicalAlign_pos
  induction fuel generalizing st start with
  | zero => cases hloop
  | succ fuel ih =>
    rw [← regionSlots_align hroom]
    rw [processMemRegionLoop] at hloop
    have hdvd := dvd_align start env.physicalAlign
    generalize align start env.physicalAlign = start at *
    split at hloop
    · cases hloop
      omega
    next hnotFull =>
      dsimp only at hloop
      split at hloop
      · cases hloop
        exact Stores.none (by omega)
      · split at hloop
        · cases hloop
          exact Stores.none (by omega)
        · rename_i hle hsize
          rw [not_lt] at hle hsize
          rcases region_cases hhi havoid hdvd hle hsize with
            ⟨hnone, hfree⟩ | ⟨o, ho, hsome, hostart, hoend, hfree⟩
          · rw [hnone] at hloop
            cases hloop
            rw [processGbHugePages_noPages hpages]
            have h := storeSlotInfo_stores hshift hhi hfree (Nat.lt_of_not_le hnotFull)
            rwa [Nat.add_sub_cancel' hle] at h
          · rw [hsome] at hloop
            dsimp only at hloop
            have hstop := (havoid o ho).stop_eq hpos
            have hbefore := storeBeforeOverlap_stores hshift himage hhi hpages
              (Nat.lt_of_not_le hnotFull) (show start + imageSize < 2 ^ 64 by omega) hfree
            rw [hstop] at hloop
            have hbehind := ih (hbefore.pages hpages) (havoid o ho) hloop
            refine hbefore.trans hbehind (mem_regionSlots_split ho hostart hoend) ?_
            intro a ha ha'
            have := ha.2.2.1
            have := ha'.2.1
            omega

end

/-! ## The table -/

section
variable {env : Env} {table : List BootE820Entry} {minimum imageSize : Nat}

/-- The places that the scan of one entry stores. -/
def entrySlots (env : Env) (minimum imageSize : Nat) (e : BootE820Entry) : Set Nat :=
  regionSlots env imageSize (max e.addr minimum) (min (e.addr + e.size) env.memLimit)

def RamDisjoint (e f : BootE820Entry) : Prop :=
  e.type = E820_TYPE_RAM → f.type = E820_TYPE_RAM →
    Disjoint (Set.Ico e.addr (e.addr + e.size)) (Set.Ico f.addr (f.addr + f.size))

theorem entrySlots_disjoint (himage : 0 < imageSize) {e f : BootE820Entry}
    (he : e.type = E820_TYPE_RAM) (hf : f.type = E820_TYPE_RAM) (h : RamDisjoint e f) {a : Nat}
    (hae : a ∈ entrySlots env minimum imageSize e) : a ∉ entrySlots env minimum imageSize f := by
  intro haf
  have h₁ := hae.2.1
  have h₂ := hae.2.2.1
  have h₃ := haf.2.1
  have h₄ := haf.2.2.1
  have hin : a ∈ Set.Ico e.addr (e.addr + e.size) := ⟨by omega, by omega⟩
  exact Set.disjoint_left.mp (h he hf) hin ⟨by omega, by omega⟩

/-- No pages are skipped and the areas fit in their array. -/
def Fits (st : SlotState) : Prop := st.maxGbHugePages = 0 ∧ st.areas.length ≤ MAX_SLOT_AREA

theorem storeSlotInfo_fits (h : Fits st) (region : MemVector) :
    Fits (storeSlotInfo env imageSize st region) := by
  unfold storeSlotInfo
  split
  · exact h
  · refine ⟨h.1, ?_⟩
    have := h.2
    rw [length_append, length_singleton]
    omega

variable (hin : InputOk env table 0 minimum imageSize) (himage : 0 < imageSize) {fuel : Nat}
  (hfuel : 2 ^ 64 < fuel)
include hin himage hfuel

theorem processMemRegion_stores {e : BootE820Entry} (he : e ∈ table)
    (hram : e.type = E820_TYPE_RAM) (hst : Fits st) :
    ∃ st', processMemRegion env fuel minimum imageSize st ⟨e.addr, e.size⟩ = some st' ∧ Fits st' ∧
      (st'.areas.length < MAX_SLOT_AREA →
        Stores env st st' (entrySlots env minimum imageSize e)) := by
  have hlimit := hin.memLimit_lt
  have hstop : (MemVector.mk e.addr e.size).stop = e.addr + e.size :=
    wadd_eq (hin.entry_stop e he hram)
  have hroom : max e.addr minimum + env.physicalAlign ≤ 2 ^ 64 := by
    have := hin.entry_start e he hram
    have := hin.minimum_room
    omega
  rw [processMemRegion, hstop]
  have hhi : min (e.addr + e.size) env.memLimit < 2 ^ 64 := by omega
  have hkeep : ∀ st region, Fits st → env.Free imageSize (max e.addr minimum)
      (min (e.addr + e.size) env.memLimit) region →
      Fits (processGbHugePages env imageSize st region) := by
    intro st region hst _
    rw [processGbHugePages_noPages hst.1]
    exact storeSlotInfo_fits hst region
  have hsteps : min (e.addr + e.size) env.memLimit + 1 - max e.addr minimum < fuel := by omega
  obtain ⟨st', hloop, hfits⟩ :=
    processMemRegionLoop_keeps hhi hin.avoid hkeep hst le_rfl hroom hsteps
  exact ⟨st', hloop, hfits, fun hfinal => processMemRegionLoop_stores hin.le_shift himage hhi
    hin.avoid hst.1 hroom hloop hfinal⟩

theorem processE820Entries_stores {entries : List BootE820Entry} (hsub : entries ⊆ table)
    (hdisj : entries.Pairwise RamDisjoint) (hst : Fits st) :
    ∃ st', processE820Entries env fuel minimum imageSize st entries = some st' ∧
      (st'.areas.length < MAX_SLOT_AREA → Stores env st st'
        {a | ∃ e ∈ entries, e.type = E820_TYPE_RAM ∧ a ∈ entrySlots env minimum imageSize e}) := by
  induction entries generalizing st with
  | nil => exact ⟨st, rfl, fun _ => Stores.refl env st (by simp)⟩
  | cons e entries ih =>
    obtain ⟨he, hsub'⟩ := cons_subset.mp hsub
    obtain ⟨hapart, hdisj'⟩ := pairwise_cons.mp hdisj
    rw [processE820Entries]
    by_cases hram : e.type = E820_TYPE_RAM
    · rw [if_neg (not_not.mpr hram)]
      obtain ⟨st₁, hregion, hfits, hstores⟩ :=
        processMemRegion_stores hin himage hfuel he hram hst
      rw [hregion, Option.bind_eq_bind, Option.bind_some]
      by_cases hfull : st₁.areas.length = MAX_SLOT_AREA
      · rw [if_pos hfull]
        exact ⟨st₁, rfl, fun h => absurd hfull (Nat.ne_of_lt h)⟩
      rw [if_neg hfull]
      obtain ⟨st', hrest, hstores'⟩ := ih hsub' hdisj' hfits
      refine ⟨st', hrest, fun hfinal => ?_⟩
      refine (hstores (lt_of_le_of_ne hfits.2 hfull)).trans (hstores' hfinal) ?_ ?_
      · intro a
        simp [hram]
      · rintro a ha ⟨f, hf, hframe, haf⟩
        exact entrySlots_disjoint himage hram hframe (hapart f hf) ha haf
    · rw [if_pos hram]
      obtain ⟨st', hrest, hstores'⟩ := ih hsub' hdisj' hst
      refine ⟨st', hrest, fun hfinal => ?_⟩
      have hset : {a | ∃ f ∈ e :: entries, f.type = E820_TYPE_RAM ∧
          a ∈ entrySlots env minimum imageSize f} = {a | ∃ f ∈ entries,
          f.type = E820_TYPE_RAM ∧ a ∈ entrySlots env minimum imageSize f} := by
        ext a
        simp [hram]
      rw [hset]
      exact hstores' hfinal

end

/-- The places of the entries are the places for the image, if an empty range to avoid stands at
address 0 only. -/
theorem exists_mem_entrySlots_iff {table : List BootE820Entry} {minimum : Nat}
    (himage : 0 < imageSize) (hne : ∀ v ∈ env.avoid, v.size = 0 → v.start = 0) (a : Nat) :
    (∃ e ∈ table, e.type = E820_TYPE_RAM ∧ a ∈ entrySlots env minimum imageSize e) ↔
      SlotOk env table minimum imageSize a := by
  constructor
  · rintro ⟨e, he, hram, hdvd, hlo, hhi, hapart⟩
    refine ⟨hdvd, by omega, ⟨e, he, hram, by omega, by omega⟩, by omega, fun v hv => ?_⟩
    rw [Set.Ico_disjoint_Ico]
    have := hapart v hv
    omega
  · rintro ⟨hdvd, hmin, ⟨e, he, hram, hlo, hhi⟩, hlimit, hapart⟩
    refine ⟨e, he, hram, hdvd, by omega, by omega, fun v hv => ?_⟩
    have hdisj := hapart v hv
    rw [Set.Ico_disjoint_Ico] at hdisj
    have := hne v hv
    omega

/-- Without 1 GiB pages, and where no sum overflows, the slots of a scan that did not fill the areas
are exactly the places for the image, each of them once. -/
theorem slotsFetchRandom_bijective {env : Env} {table : List BootE820Entry}
    {minimum imageSize : Nat} (hin : InputOk env table 0 minimum imageSize)
    (himage : 0 < imageSize) (hne : ∀ v ∈ env.avoid, v.size = 0 → v.start = 0)
    (hdisj : table.Pairwise RamDisjoint) {fuel : Nat} (hfuel : 2 ^ 64 < fuel) :
    ∃ st, processE820Entries env fuel minimum imageSize ⟨[], 0, 0⟩ table = some st ∧
      (st.areas.length < MAX_SLOT_AREA →
        Set.BijOn (fun r => slotsFetchRandom env r st) (Set.Iio st.slotMax)
          {a | SlotOk env table minimum imageSize a}) := by
  have hinit : Fits ⟨[], 0, 0⟩ := ⟨rfl, zero_le _⟩
  obtain ⟨st, hentries, hstores⟩ := processE820Entries_stores hin himage hfuel
    (List.Subset.refl table) hdisj hinit
  refine ⟨st, hentries, fun hfinal => ?_⟩
  obtain ⟨new, hareas, hnodup, hmem⟩ := (hstores hfinal).areas
  have hcounted := (hstores hfinal).counted ⟨rfl, zero_le _⟩
  obtain rfl : st.areas = new := by simpa using hareas
  have hset : {a | SlotOk env table minimum imageSize a} = {a | a ∈ slots env st.areas} := by
    ext a
    exact (exists_mem_entrySlots_iff himage hne a).symm.trans (hmem a).symm
  have hword : ∀ a ∈ slots env st.areas, a < 2 ^ 64 := by
    intro a ha
    have hok : SlotOk env table minimum imageSize a :=
      (exists_mem_entrySlots_iff himage hne a).mp ((hmem a).mp ha)
    have := hok.le_limit
    have := hin.memLimit_lt
    omega
  rw [hset, hcounted.1]
  refine (bijOn_getD hnodup).congr fun r hr => ?_
  have hr' : r < st.slotMax := hcounted.1 ▸ hr
  rw [slotsFetchRandom, if_neg (by omega), mod_eq_of_lt hr', fetchSlot_eq hword hr]

/-- Two pieces of RAM, the first with a range in its middle that is avoided. -/
def twoTable : List BootE820Entry :=
  [⟨0x40000000, 0x4000000, E820_TYPE_RAM⟩, ⟨0x80000000, 0x1000000, E820_TYPE_RAM⟩]

def middleEnv : Env := { wrapEnv 0 with memAvoid := [⟨0x42000000, 0x800000⟩] }

theorem slotsFetchRandom_bijective_middle :
    ∃ st, processE820Entries middleEnv (2 ^ 64 + 1) 0x1000001 0x1000000 ⟨[], 0, 0⟩ twoTable =
        some st ∧ st.areas.length = 3 ∧
      Set.BijOn (fun r => slotsFetchRandom middleEnv r st) (Set.Iio st.slotMax)
        {a | SlotOk middleEnv twoTable 0x1000001 0x1000000 a} := by
  have havoid : ∀ v ∈ middleEnv.avoid, v.NoWrap middleEnv.physicalAlign := by
    intro v hv
    rw [List.mem_singleton.mp hv]
    show 0x42000000 + 0x800000 + 2 ^ 21 ≤ 2 ^ 64
    decide
  have hin : InputOk middleEnv twoTable 0 0x1000001 0x1000000 :=
    ⟨by decide, by decide, by decide, by decide, havoid, by decide, by decide, .inl rfl⟩
  have hdisj : twoTable.Pairwise RamDisjoint := List.pairwise_pair.2 fun _ _ =>
    Set.Ico_disjoint_Ico.2 (by decide)
  obtain ⟨st, hrun, hbij⟩ := slotsFetchRandom_bijective hin (by decide) (by decide) hdisj
    (show 2 ^ 64 < 2 ^ 64 + 1 by decide)
  have hlen : (processE820Entries middleEnv (2 ^ 64 + 1) 0x1000001 0x1000000 ⟨[], 0, 0⟩
      twoTable).map (·.areas.length) = some 3 := by decide +kernel
  rw [hrun] at hlen
  have hthree : st.areas.length = 3 := Option.some.inj hlen
  exact ⟨st, hrun, hthree, hbij (by rw [hthree]; decide)⟩

def topTable : List BootE820Entry := [⟨0xfffffffffffff000, 0xfff, E820_TYPE_RAM⟩]

/-- The start of the entry is aligned to 0, and the slots that are stored are outside of the RAM. -/
theorem slotsFetchRandom_top :
    ∃ st, processE820Entries (wrapEnv 0x20000000) 3 0x1000000 0x1000000 ⟨[], 0, 0⟩ topTable =
        some st ∧ st.areas.length < MAX_SLOT_AREA ∧ 8 < st.slotMax ∧
      slotsFetchRandom (wrapEnv 0x20000000) 8 st = 0x1000000 ∧
      ∀ e ∈ topTable, 0x1000000 < e.addr :=
  ⟨⟨[⟨0, 761⟩, ⟨0x80000000, 33553401⟩], 33554162, 0⟩, by decide +kernel, by decide, by decide,
    by decide +kernel, by decide⟩

end LinuxKernel.X86.Kaslr
