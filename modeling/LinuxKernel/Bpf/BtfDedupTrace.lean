import LinuxKernel.Bpf.BtfDedup
import LinuxKernel.Foundation.Forest

/-!
# The writes to the canonical map of BTF deduplication

Every write to `map` that the passes make is legal in the sense of `LegalWrite`: it links an id to
one whose walk does not come back, it overwrites a link only of a forward declaration, and it links
a struct or union only to one of the same layout, except where an entry of the hypothetical map is
merged that stands for a forward declaration. What the map looks like in the end follows from that
alone.
-/

namespace LinuxKernel.Bpf

open Foundation.Forest List

def nextId (map : List MapEntry) (i : Nat) : Option Nat :=
  match map[i]? with
  | some (.mapped j) => some j
  | _ => none

def HasType (T : List BtfType) (i : Nat) (P : BtfType → Prop) : Prop := ∃ t, T[i]? = some t ∧ P t

/-- The merges of entries with a forward declaration link aggregates of one layout. -/
def MergesAlike (T : List BtfType) (writes : List MapWrite) : Prop :=
  ∀ w ∈ writes, w.site = .mergeStruct false → ∀ c t, w.value = .mapped c → T[w.id]? = some t →
    HasType T c (SameLayout t)

/-- What a statement may write to `map`, given the map before it and the writes that led there. -/
structure LegalWrite (T : List BtfType) (earlier : List MapWrite) (before : List MapEntry)
    (w : MapWrite) : Prop where
  after_eq : w.after = before.set w.id w.value
  id_lt : w.id < before.length
  /-- a link closes no cycle -/
  link : ∀ b, w.value = .mapped b → b < before.length ∧ (b = w.id ∨ Avoids (nextId before) w.id b)
  /-- only a type without a link is marked -/
  mark : (∀ b, w.value ≠ .mapped b) → nextId before w.id = none
  /-- only links of forward declarations are replaced, and those of enums before any merge -/
  overwrites : before[w.id]? = some w.value ∨ nextId before w.id = none ∨
    HasType T w.id (fun t => t.kind = .fwd) ∨
    (HasType T w.id (fun t => btfIsEnumFwd t = true) ∧
      ∀ w' ∈ earlier, ∀ direct, w'.site ≠ .mergeStruct direct)
  /-- aggregates are linked to aggregates of the same layout, if that was so up to now and they are
  not merged for a forward declaration -/
  layout : ∀ b t, w.value = .mapped b → T[w.id]? = some t → t.isComposite = true →
    b = w.id ∨ w.site = .mergeStruct false ∨ (MergesAlike T earlier → HasType T b (SameLayout t))
  /-- a merge links an aggregate that has no link to a canonical type -/
  merge : ∀ direct, w.site = .mergeStruct direct → ∃ b, w.value = .mapped b ∧
    HasType T w.id (fun t => t.isComposite = true) ∧ HasType T b (fun t => t.kind ≠ .fwd) ∧
    nextId before b = some b ∧ nextId before w.id = none

def currentMap (m0 : List MapEntry) : List MapWrite → List MapEntry
  | [] => m0
  | w :: _ => w.after

inductive LegalRun (T : List BtfType) (m0 : List MapEntry) : List MapWrite → Prop
  | nil : LegalRun T m0 []
  | cons {w : MapWrite} {ws : List MapWrite} (hws : LegalRun T m0 ws)
      (hw : LegalWrite T ws (currentMap m0 ws) w) : LegalRun T m0 (w :: ws)

/-! ## Links after a write -/

section
variable {map : List MapEntry} {i j : Nat} {v : MapEntry}

theorem nextId_eq_some : nextId map i = some j ↔ map[i]? = some (.mapped j) := by
  unfold nextId
  split
  next k hk => simp [hk]
  next hk =>
    simp only [reduceCtorEq, false_iff]
    exact fun h => hk j h

theorem nextId_set_self (h : i < map.length) : nextId (map.set i (.mapped j)) i = some j := by
  simp [nextId, h]

theorem nextId_set_ne (h : i ≠ j) : nextId (map.set i v) j = nextId map j := by
  simp [nextId, h]

theorem nextId_set_mark (hv : ∀ b, v ≠ .mapped b) : nextId (map.set i v) i = none := by
  by_cases hi : i < map.length
  · simp only [nextId, getElem?_set_self hi]
    cases v with
    | mapped b => exact absurd rfl (hv b)
    | unprocessed => rfl
    | inProgress => rfl
  · simp [nextId, hi]

theorem nextId_set (h : i < map.length) :
    nextId (map.set i (.mapped j)) = Function.update (nextId map) i (some j) := by
  funext k
  by_cases hk : k = i
  · subst hk
    rw [nextId_set_self h, Function.update_self]
  · rw [nextId_set_ne (Ne.symm hk), Function.update_of_ne hk]

theorem nextId_set_of_mark (hv : ∀ b, v ≠ .mapped b) (hnone : nextId map i = none) :
    nextId (map.set i v) = nextId map := by
  funext k
  by_cases hk : i = k
  · subst hk
    rw [nextId_set_mark hv, hnone]
  · exact nextId_set_ne hk

theorem lt_of_nextId (h : nextId map i = some j) : i < map.length := by
  rw [nextId_eq_some] at h
  exact (List.getElem?_eq_some_iff.1 h).1

end

section
variable {T : List BtfType} {earlier : List MapWrite} {before : List MapEntry} {w : MapWrite}

section
variable (hw : LegalWrite T earlier before w)
include hw

theorem LegalWrite.acyclic (h : Acyclic (nextId before)) : Acyclic (nextId w.after) := by
  rw [hw.after_eq]
  by_cases hv : ∃ b, w.value = .mapped b
  · obtain ⟨b, hb⟩ := hv
    rw [hb, nextId_set hw.id_lt]
    exact h.link (hw.link b hb).2
  · have hmark : ∀ b, w.value ≠ .mapped b := fun b hb => hv ⟨b, hb⟩
    rw [nextId_set_of_mark hmark (hw.mark hmark)]
    exact h

theorem LegalWrite.nextId_after {i j : Nat} (h : nextId w.after i = some j) :
    (i = w.id ∧ w.value = .mapped j) ∨ (i ≠ w.id ∧ nextId before i = some j) := by
  rw [hw.after_eq] at h
  by_cases hi : i = w.id
  · subst hi
    rw [nextId_eq_some, getElem?_set_self hw.id_lt, Option.some.injEq] at h
    exact .inl ⟨rfl, h⟩
  · rw [nextId_set_ne (Ne.symm hi)] at h
    exact .inr ⟨hi, h⟩

/-- What keeps a link: no legal write touches it but one that writes it again. -/
theorem LegalWrite.nextId_stable {i j : Nat}
    (h : nextId before i = some j) (hfwd : ¬ HasType T i (fun t => t.kind = .fwd))
    (henum : ¬ HasType T i (fun t => btfIsEnumFwd t = true) ∨
      ∃ w' ∈ earlier, ∃ direct, w'.site = .mergeStruct direct) : nextId w.after i = some j := by
  rw [hw.after_eq]
  by_cases hi : w.id = i
  · subst hi
    rcases hw.overwrites with heq | hnone | hf | ⟨he, hmerge⟩
    · rw [nextId_eq_some] at h ⊢
      rw [getElem?_set_self hw.id_lt, ← heq, h]
    · simp [hnone] at h
    · exact absurd hf hfwd
    · rcases henum with henum | ⟨w', hw', direct, hsite⟩
      · exact absurd he henum
      · exact absurd hsite (hmerge w' hw' direct)
  · rw [nextId_set_ne hi]
    exact h

theorem LegalWrite.nextId_ne_none {i : Nat}
    (h : nextId before i ≠ none) : nextId w.after i ≠ none := by
  rw [hw.after_eq]
  by_cases hi : w.id = i
  · subst hi
    by_cases hv : ∃ b, w.value = .mapped b
    · obtain ⟨b, hb⟩ := hv
      rw [hb, nextId_set_self hw.id_lt]
      simp
    · exact absurd (hw.mark fun b hb => hv ⟨b, hb⟩) h
  · rw [nextId_set_ne hi]
    exact h

end

end

/-- A walk along links that keep the layout does. -/
theorem sameLayout_of_walk {T : List BtfType} {map : List MapEntry}
    (hlink : ∀ i j t, nextId map i = some j → T[i]? = some t → t.isComposite = true →
      HasType T j (SameLayout t)) {l : List Nat} {a r : Nat} (hwalk : Walk (nextId map) l a r)
    {t : BtfType} (ht : T[a]? = some t) (hcomp : t.isComposite = true) :
    HasType T r (SameLayout t) := by
  induction hwalk generalizing t with
  | root _ => exact ⟨t, ht, SameLayout.refl t⟩
  | step hnext _ _ ih =>
    obtain ⟨u, hu, hsame⟩ := hlink _ _ t hnext ht hcomp
    obtain ⟨v, hv, hsame'⟩ := ih hu (hsame.isComposite_eq.symm.trans hcomp)
    exact ⟨v, hv, hsame.trans hsame'⟩

/-! ## Runs of legal writes -/

namespace LegalRun

variable {T : List BtfType} {m0 : List MapEntry} {ws : List MapWrite}

section
variable (h : LegalRun T m0 ws)
include h

theorem length_currentMap : (currentMap m0 ws).length = m0.length := by
  induction h with
  | nil => rfl
  | cons _ hw ih => rw [currentMap, hw.after_eq, length_set, ih]

theorem acyclic (h0 : Acyclic (nextId m0)) : Acyclic (nextId (currentMap m0 ws)) := by
  induction h with
  | nil => exact h0
  | cons _ hw ih => exact hw.acyclic ih

theorem acyclic_after (h0 : Acyclic (nextId m0)) : ∀ w ∈ ws, Acyclic (nextId w.after) := by
  induction h with
  | nil => simp
  | @cons w ws hws hw ih =>
    intro w' hw'
    rcases mem_cons.1 hw' with rfl | hmem
    · exact hw.acyclic (hws.acyclic h0)
    · exact ih w' hmem

theorem legal_of_mem {w : MapWrite} (hw : w ∈ ws) :
    ∃ earlier before, LegalWrite T earlier before w := by
  induction h with
  | nil => simp at hw
  | @cons w' ws _ hw' ih =>
    rcases mem_cons.1 hw with rfl | hmem
    · exact ⟨_, _, hw'⟩
    · exact ih hmem

theorem nextId_lt (h0 : ∀ i j, nextId m0 i = some j → j < m0.length) :
    ∀ i j, nextId (currentMap m0 ws) i = some j → j < m0.length := by
  induction h with
  | nil => exact h0
  | @cons w ws hws hw ih =>
    intro i j hij
    rcases hw.nextId_after hij with ⟨_, hv⟩ | ⟨_, hold⟩
    · have hlt := (hw.link j hv).1
      rwa [hws.length_currentMap] at hlt
    · exact ih i j hold

/-- If the merges for forward declarations linked aggregates of one layout, all links of aggregates
do. -/
theorem sameLayout
    (h0 : ∀ i j, nextId m0 i = some j → HasType T i (fun t => t.isComposite = true) → j = i)
    (halike : MergesAlike T ws) :
    ∀ i j t, nextId (currentMap m0 ws) i = some j → T[i]? = some t → t.isComposite = true →
      HasType T j (SameLayout t) := by
  induction h with
  | nil =>
    intro i j t hij ht hcomp
    obtain rfl := h0 i j hij ⟨t, ht, hcomp⟩
    exact ⟨t, ht, SameLayout.refl t⟩
  | @cons w ws hws hw ih =>
    intro i j t hij ht hcomp
    have hbefore : MergesAlike T ws := fun w' hw' => halike w' (mem_cons_of_mem w hw')
    rcases hw.nextId_after hij with ⟨rfl, hv⟩ | ⟨_, hold⟩
    · rcases hw.layout j t hv ht hcomp with rfl | hsite | hlayout
      · exact ⟨t, ht, SameLayout.refl t⟩
      · exact halike w mem_cons_self hsite j t hv ht
      · exact hlayout hbefore
    · exact ih hbefore i j t hold ht hcomp

/-- A merge lasts: the aggregate stays linked to a type that stays canonical. -/
theorem merge_lasts {w : MapWrite} (hw : w ∈ ws) {direct : Bool}
    (hsite : w.site = .mergeStruct direct) {b : Nat} (hv : w.value = .mapped b) :
    nextId (currentMap m0 ws) w.id = some b ∧ nextId (currentMap m0 ws) b = some b := by
  induction h with
  | nil => simp at hw
  | @cons w' ws hws hw' ih =>
    rcases mem_cons.1 hw with rfl | hmem
    · obtain ⟨b', hv', _, _, hb, hnone⟩ := hw'.merge _ hsite
      obtain rfl : b' = b := by simpa [hv'] using hv
      have hne : w.id ≠ b' := by
        intro heq
        rw [heq, hb] at hnone
        simp at hnone
      rw [currentMap, hw'.after_eq, hv', nextId_set_self hw'.id_lt, nextId_set_ne hne]
      exact ⟨rfl, hb⟩
    · obtain ⟨hid, hb⟩ := ih hmem
      obtain ⟨earlier, before, hlegal⟩ := hws.legal_of_mem hmem
      obtain ⟨b', hv', hcomp, hfwd, _⟩ := hlegal.merge _ hsite
      obtain rfl : b' = b := by simpa [hv'] using hv
      have hmerge : ∃ x ∈ ws, ∃ direct, x.site = .mergeStruct direct := ⟨w, hmem, direct, hsite⟩
      refine ⟨hw'.nextId_stable hid ?_ (.inr hmerge), hw'.nextId_stable hb ?_ (.inr hmerge)⟩
      · rintro ⟨t, ht, hk⟩
        obtain ⟨t', ht', hc⟩ := hcomp
        cases ht.symm.trans ht'
        rcases BtfType.isComposite_iff.1 hc with hk' | hk' <;> simp [hk'] at hk
      · rintro ⟨t, ht, hk⟩
        obtain ⟨t', ht', hk'⟩ := hfwd
        cases ht.symm.trans ht'
        exact hk' hk

end

end LegalRun

end LinuxKernel.Bpf
