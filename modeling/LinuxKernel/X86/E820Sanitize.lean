import LinuxKernel.X86.E820

/-!
# Sanitizing the E820 map

The sweep of `e820__update_table` is followed address by address. Between two
change points the set of entries that contain an address does not change and is
the overlap list, so the piece under construction has the type the map needs
there. `SweepInv` is the invariant of the loop; it speaks of every address
below the change point reached so far.
-/

namespace LinuxKernel.X86

open List Option

/-! ## The overlap list -/

private theorem foldl_swap {n : Nat} (overlap : List (Fin n)) (entry last : Fin n)
    (hlast : overlap.getLast? = some last) (k : Nat) (hk : k ≤ overlap.length) :
    (range k).foldl (fun list i =>
        if list[i]? = some entry then list.set i (list.getLast?.getD entry) else list)
      overlap =
      (overlap.take k).map (fun x => if x = entry then last else x) ++ overlap.drop k := by
  induction k with
  | zero => simp
  | succ k ih =>
    have hlt : k < overlap.length := hk
    rw [range_succ, foldl_append, ih (by omega)]
    have hdrop : overlap.drop k = overlap[k] :: overlap.drop (k + 1) :=
      drop_eq_getElem_cons hlt
    have hlast' : ((overlap.take k).map (fun x => if x = entry then last else x) ++
        overlap.drop k).getLast? = some last := by
      rw [getLast?_append, getLast?_drop, if_neg (by omega), hlast]
      rfl
    have hlen : ((overlap.take k).map (fun x => if x = entry then last else x)).length = k := by
      simp; omega
    have htake : overlap.take (k + 1) = overlap.take k ++ [overlap[k]] := by simp
    simp only [foldl_cons, foldl_nil, hlast', getD_some]
    rw [getElem?_append_right (by omega), set_append_right _ _ (by omega), hlen,
      hdrop, htake, Nat.sub_self, getElem?_cons_zero, set_cons_zero,
      map_append, append_assoc]
    by_cases heq : overlap[k] = entry
    · simp only [heq, if_true, map_cons, map_nil, cons_append, nil_append]
    · simp only [heq, some.injEq, if_false, map_cons, map_nil, cons_append, nil_append]

theorem removeOverlap_perm {n : Nat} {overlap : List (Fin n)} {entry : Fin n}
    (hnodup : overlap.Nodup) (hmem : entry ∈ overlap) :
    (removeOverlap overlap entry).Perm (overlap.erase entry) := by
  obtain ⟨init, last, rfl⟩ : ∃ init last, overlap = init ++ [last] :=
    ⟨_, _, (dropLast_append_getLast (ne_nil_of_mem hmem)).symm⟩
  unfold removeOverlap
  rw [foldl_swap (init ++ [last]) entry last (by simp) _ le_rfl]
  simp only [take_length, drop_length, append_nil, map_append, map_cons, map_nil, dropLast_concat]
  have hlast : last ∉ init := by
    have hdisj := (nodup_append.mp hnodup).2.2
    exact fun h => hdisj last h last (by simp) rfl
  have hmap : ∀ s : List (Fin n), entry ∉ s →
      s.map (fun x => if x = entry then last else x) = s := by
    intro s hs
    refine (map_congr_left fun x hx => if_neg ?_).trans (map_id s)
    exact fun h => hs (h ▸ hx)
  by_cases heq : entry = last
  · subst heq
    rw [hmap init hlast, erase_append_right _ hlast]
    simp
  have hinit : entry ∈ init := by simpa [heq] using hmem
  obtain ⟨l, r, rfl⟩ := append_of_mem hinit
  have hnd : (l ++ entry :: r).Nodup := (nodup_append.mp hnodup).1
  rw [nodup_middle, nodup_cons, mem_append, not_or] at hnd
  rw [map_append, map_cons, if_pos rfl, hmap l hnd.1.1, hmap r hnd.1.2,
    erase_append_left _ hinit, erase_append_right _ hnd.1.1, erase_cons_head, append_assoc]
  exact Perm.append_left l (perm_append_singleton last r).symm

/-! ## The type of an address -/

/-- `t` is the largest type of the entries that contain `a`, and zero if there
is none. -/
def Effective (entries : List E820Entry) (a : BitVec 64) (t : BitVec 32) : Prop :=
  (∀ e ∈ entries, e.Contains a → e.type ≤ t) ∧ (t = 0 ∨ ∃ e ∈ entries, e.Contains a ∧ e.type = t)

theorem currentType_spec (entries : List E820Entry) (overlap : List (Fin entries.length)) :
    (∀ i ∈ overlap, (entries.get i).type ≤ currentType entries overlap) ∧
      (currentType entries overlap = 0 ∨
        ∃ i ∈ overlap, (entries.get i).type = currentType entries overlap) := by
  induction overlap using reverseRec with
  | nil => simp [currentType]
  | append_singleton l i ih =>
    obtain ⟨hmax, hat⟩ := ih
    have hstep : currentType entries (l ++ [i]) =
        if currentType entries l < (entries.get i).type then (entries.get i).type
        else currentType entries l := by
      simp [currentType]
    rw [hstep]
    split
    · refine ⟨forall_mem_append.2 ⟨fun j hj => ?_,
        forall_mem_singleton.2 (BitVec.le_refl _)⟩, .inr ⟨i, by simp, rfl⟩⟩
      have hle := hmax j hj
      bv_omega
    next hnlt =>
      refine ⟨forall_mem_append.2
        ⟨hmax, forall_mem_singleton.2 (BitVec.not_lt.mp hnlt)⟩, hat.imp_right ?_⟩
      rintro ⟨j, hj, heq⟩
      exact ⟨j, by simp [hj], heq⟩

/-! ## The change points of a table -/

section
variable {entries : List E820Entry}

def NoWrap (entries : List E820Entry) : Prop :=
  ∀ e ∈ entries, e.addr.toNat + e.size.toNat < 2 ^ 64

def startPoint (entries : List E820Entry) (i : Fin entries.length) : ChangeMember entries.length :=
  ⟨i, (entries.get i).addr⟩

def endPoint (entries : List E820Entry) (i : Fin entries.length) : ChangeMember entries.length :=
  ⟨i, (entries.get i).addr + (entries.get i).size⟩

theorem toNat_endPoint (hwrap : NoWrap entries) (i : Fin entries.length) :
    (endPoint entries i).addr.toNat = (entries.get i).addr.toNat + (entries.get i).size.toNat := by
  have h := hwrap _ (get_mem entries i)
  simp only [endPoint, BitVec.toNat_add]
  omega

theorem mem_changePoints {cp : ChangeMember entries.length} :
    cp ∈ changePoints entries ↔ (entries.get cp.entry).size ≠ 0 ∧
      (cp = startPoint entries cp.entry ∨ cp = endPoint entries cp.entry) := by
  obtain ⟨i, addr⟩ := cp
  simp only [changePoints, mem_flatMap, mem_finRange, true_and]
  constructor
  · rintro ⟨j, hj⟩
    split at hj
    next hsize =>
      rcases mem_pair.mp hj with h | h <;> cases h
      · exact ⟨hsize, .inl rfl⟩
      · exact ⟨hsize, .inr rfl⟩
    · simp at hj
  · rintro ⟨hsize, h⟩
    refine ⟨i, ?_⟩
    rw [if_pos hsize]
    exact mem_pair.mpr h

theorem nodup_changePoints (entries : List E820Entry) : (changePoints entries).Nodup := by
  unfold changePoints
  rw [nodup_flatMap]
  constructor
  · intro i _
    dsimp only
    split
    next hsize =>
      simp only [nodup_cons, mem_singleton, ChangeMember.mk.injEq, true_and,
        not_mem_nil, not_false_eq_true, nodup_nil, and_true]
      intro h
      apply hsize
      bv_omega
    · simp
  · refine (nodup_finRange _).imp ?_
    intro i j hij cp hi hj
    apply hij
    have hentry : ∀ k, cp ∈ (if (entries.get k).size ≠ 0 then
        [(⟨k, (entries.get k).addr⟩ : ChangeMember entries.length),
          ⟨k, (entries.get k).addr + (entries.get k).size⟩] else []) → cp.entry = k := by
      intro k hk
      split at hk
      · rcases mem_pair.mp hk with rfl | rfl <;> rfl
      · simp at hk
    exact (hentry i hi).symm.trans (hentry j hj)

theorem isStart_startPoint (i : Fin entries.length) :
    isStart entries (startPoint entries i) = true := by
  simp [isStart, startPoint]

theorem cpcompare_addr_le {a b : ChangeMember entries.length}
    (h : cpcompare entries a b ≤ 0) : a.addr.toNat ≤ b.addr.toNat := by
  unfold cpcompare at h
  split at h
  · split at h
    · omega
    · bv_omega
  next heq =>
    simp only [ne_eq, not_not] at heq
    rw [heq]

end

/-! ## The map under construction -/

/-- The type the map under construction has at `a`: that of a finished entry,
or of the piece that is still open. -/
def NewMap.Shows (m : NewMap) (a : BitVec 64) (t : BitVec 32) : Prop :=
  (∃ o ∈ m.entries, o.Contains a ∧ o.type = t) ∨
    (m.lastType ≠ 0 ∧ m.lastAddr.toNat ≤ a.toNat ∧ t = m.lastType) ∨
    (t = 0 ∧ (∀ o ∈ m.entries, ¬o.Contains a) ∧ (m.lastType ≠ 0 → a.toNat < m.lastAddr.toNat))

/-- The map is right for every address below `x`. -/
structure MapInv (entries : List E820Entry) (m : NewMap) (x : Nat) : Prop where
  slot : m.lastType ≠ 0 → m.slot.addr = m.lastAddr ∧ m.slot.type = m.lastType ∧ m.lastAddr.toNat ≤ x
  sorted : m.entries.Pairwise fun e e' => e.addr.toNat + e.size.toNat ≤ e'.addr.toNat
  nonempty : ∀ e ∈ m.entries, 0 < e.size.toNat ∧ e.type ≠ 0
  bound : ∀ e ∈ m.entries, e.addr.toNat + e.size.toNat ≤ x ∧
    (m.lastType ≠ 0 → e.addr.toNat + e.size.toNat ≤ m.lastAddr.toNat)
  shows : ∀ a, a.toNat < x → ∃ t, Effective entries a t ∧ m.Shows a t

/-- Finished entries that are right for every address below `x`. -/
structure Finished (entries es : List E820Entry) (x : Nat) : Prop where
  sorted : es.Pairwise fun e e' => e.addr.toNat + e.size.toNat ≤ e'.addr.toNat
  nonempty : ∀ e ∈ es, 0 < e.size.toNat ∧ e.type ≠ 0
  bound : ∀ e ∈ es, e.addr.toNat + e.size.toNat ≤ x
  shows : ∀ a, a.toNat < x → ∃ t, Effective entries a t ∧
    ((∃ o ∈ es, o.Contains a ∧ o.type = t) ∨ t = 0 ∧ ∀ o ∈ es, ¬o.Contains a)

section
variable {entries : List E820Entry} {m : NewMap}

theorem mapInv_init (entries : List E820Entry) : MapInv entries NewMap.init 0 where
  slot h := absurd rfl h
  sorted := Pairwise.nil
  nonempty e he := by simp [NewMap.init] at he
  bound e he := by simp [NewMap.init] at he
  shows a ha := by omega

theorem MapInv.advance {x y : Nat} (h : MapInv entries m x) (hxy : x ≤ y)
    (heff : ∀ a : BitVec 64, x ≤ a.toNat → a.toNat < y → Effective entries a m.lastType) :
    MapInv entries m y where
  slot hne := by
    obtain ⟨haddr, htype, hle⟩ := h.slot hne
    exact ⟨haddr, htype, hle.trans hxy⟩
  sorted := h.sorted
  nonempty := h.nonempty
  bound e he := ⟨(h.bound e he).1.trans hxy, (h.bound e he).2⟩
  shows a ha := by
    by_cases hax : a.toNat < x
    · exact h.shows a hax
    refine ⟨m.lastType, heff a (by omega) ha, ?_⟩
    by_cases hzero : m.lastType = 0
    · refine .inr (.inr ⟨hzero, fun o ho hc => ?_, fun hne => absurd hzero hne⟩)
      have hbound := (h.bound o ho).1
      have hlt := hc.2
      omega
    · have hle := (h.slot hzero).2.2
      exact .inr (.inl ⟨hzero, by omega, rfl⟩)

/-- Without an open piece below `x` the finished entries are all of the map. -/
theorem MapInv.finished {x : Nat} (h : MapInv entries m x)
    (hopen : m.lastType ≠ 0 → x ≤ m.lastAddr.toNat) : Finished entries m.entries x where
  sorted := h.sorted
  nonempty := h.nonempty
  bound e he := (h.bound e he).1
  shows a ha := by
    obtain ⟨t, heff, hshows⟩ := h.shows a ha
    refine ⟨t, heff, ?_⟩
    rcases hshows with hentry | ⟨hne, hla, -⟩ | ⟨ht, hnone, -⟩
    · exact .inl hentry
    · have := hopen hne
      omega
    · exact .inr ⟨ht, hnone⟩

theorem MapInv.close {y : BitVec 64} (h : MapInv entries m y.toNat) :
    Finished entries (m.close y).entries y.toNat := by
  unfold NewMap.close
  by_cases hzero : m.lastType = 0
  · rw [if_neg (by simp [hzero])]
    exact h.finished (absurd hzero)
  rw [if_pos hzero]
  obtain ⟨haddr, htype, hle⟩ := h.slot hzero
  have hsub : (y - m.lastAddr).toNat = y.toNat - m.lastAddr.toNat := by
    rw [BitVec.toNat_sub_of_le (by bv_omega)]
  dsimp only
  split
  · -- the piece becomes an entry
    have hpos : 0 < y.toNat - m.lastAddr.toNat := by
      bv_omega
    refine ⟨?_, ?_, ?_, fun a ha => ?_⟩
    · rw [pairwise_append]
      refine ⟨h.sorted, pairwise_singleton _ _, fun e he e' he' => ?_⟩
      obtain rfl := mem_singleton.mp he'
      simpa [haddr] using (h.bound e he).2 hzero
    · exact forall_mem_append.2 ⟨h.nonempty, forall_mem_singleton.2
        ⟨by simpa only [hsub] using hpos, by simpa only [htype] using hzero⟩⟩
    · refine forall_mem_append.2 ⟨fun e he => (h.bound e he).1, forall_mem_singleton.2 ?_⟩
      simp only [haddr, hsub]
      omega
    · obtain ⟨t, heff, hshows⟩ := h.shows a ha
      refine ⟨t, heff, ?_⟩
      rcases hshows with ⟨o, ho, hoa⟩ | ⟨-, hla, rfl⟩ | ⟨ht, hnone, hlt⟩
      · exact .inl ⟨o, by simp [ho], hoa⟩
      · refine .inl ⟨_, mem_append_right _ (mem_singleton_self _), ?_, htype⟩
        simp only [E820Entry.Contains, haddr, hsub]
        omega
      refine .inr ⟨ht, forall_mem_append.2 ⟨hnone, forall_mem_singleton.2 fun hc => ?_⟩⟩
      have hge := hc.1
      have := hlt hzero
      simp only [haddr] at hge
      omega
  · -- an empty piece leaves no trace
    refine h.finished fun _ => ?_
    bv_omega

theorem Finished.start {y : BitVec 64} (h : Finished entries m.entries y.toNat)
    (current : BitVec 32) : MapInv entries (m.start y current) y.toNat := by
  have hlast : (m.start y current).lastType ≠ 0 →
      (m.start y current).slot.addr = y ∧ (m.start y current).slot.type = current ∧
      (m.start y current).lastAddr = y ∧ (m.start y current).lastType = current := by
    unfold NewMap.start
    split
    · intro _
      exact ⟨rfl, rfl, rfl, rfl⟩
    next hzero => exact fun hne => absurd (by simpa using hzero) hne
  refine ⟨fun hne => ?_, ?_, ?_, ?_, fun a ha => ?_⟩
  · obtain ⟨h1, h2, h3, h4⟩ := hlast hne
    exact ⟨h1.trans h3.symm, h2.trans h4.symm, by rw [h3]⟩
  · simpa using h.sorted
  · simpa using h.nonempty
  · intro e he
    have hb := h.bound e (by simpa using he)
    exact ⟨hb, fun hne => by rw [(hlast hne).2.2.1]; exact hb⟩
  · obtain ⟨t, heff, hshows⟩ := h.shows a ha
    refine ⟨t, heff, ?_⟩
    rcases hshows with ⟨o, ho, hoa⟩ | ⟨ht, hnone⟩
    · exact .inl ⟨o, by simpa using ho, hoa⟩
    · refine .inr (.inr ⟨ht, by simpa using hnone, fun hne => ?_⟩)
      rw [(hlast hne).2.2.1]
      exact ha

@[simp] theorem NewMap.start_lastType (y : BitVec 64) (current : BitVec 32) :
    (m.start y current).lastType = current := by
  unfold NewMap.start
  split <;> rfl

end

/-! ## The invariant of the sweep -/

/-- `pre` are the change points done, `rest` those to come. -/
structure Split (entries : List E820Entry) (pre rest : List (ChangeMember entries.length)) :
    Prop where
  perm : (pre ++ rest).Perm (changePoints entries)
  sorted : (pre ++ rest).Pairwise fun a b => cpcompare entries a b ≤ 0

/-- The overlap list holds the entries that have started and not ended, and the
map is right below `x`. -/
structure SweepInv (entries : List E820Entry) (pre : List (ChangeMember entries.length))
    (overlap : List (Fin entries.length)) (m : NewMap) (x : Nat) : Prop where
  nodup : overlap.Nodup
  mem_overlap : ∀ i, i ∈ overlap ↔ startPoint entries i ∈ pre ∧ endPoint entries i ∉ pre
  lastType_eq : m.lastType = currentType entries overlap
  below : ∀ cp ∈ pre, cp.addr.toNat ≤ x
  map : MapInv entries m x

section
variable {entries : List E820Entry} {pre rest : List (ChangeMember entries.length)}
  {cp : ChangeMember entries.length} {overlap : List (Fin entries.length)} {m : NewMap}
  {x : Nat}

theorem Split.mem_iff (h : Split entries pre rest) :
    cp ∈ pre ∨ cp ∈ rest ↔ (entries.get cp.entry).size ≠ 0 ∧
      (cp = startPoint entries cp.entry ∨ cp = endPoint entries cp.entry) := by
  rw [← mem_changePoints, ← h.perm.mem_iff, mem_append]

variable {i : Fin entries.length}

theorem Split.start_mem (h : Split entries pre rest)
    (hsize : (entries.get i).size ≠ 0) : startPoint entries i ∈ pre ∨ startPoint entries i ∈ rest :=
  h.mem_iff.mpr ⟨hsize, .inl rfl⟩

theorem Split.end_mem (h : Split entries pre rest)
    (hsize : (entries.get i).size ≠ 0) : endPoint entries i ∈ pre ∨ endPoint entries i ∈ rest :=
  h.mem_iff.mpr ⟨hsize, .inr rfl⟩

theorem Split.le_of_mem (h : Split entries pre rest) {a b : ChangeMember entries.length}
    (ha : a ∈ pre) (hb : b ∈ rest) : a.addr.toNat ≤ b.addr.toNat :=
  cpcompare_addr_le ((pairwise_append.mp h.sorted).2.2 a ha b hb)

section
variable (h : Split entries pre (cp :: rest))
include h

theorem Split.head_le {b : ChangeMember entries.length}
    (hb : b ∈ cp :: rest) : cp.addr.toNat ≤ b.addr.toNat := by
  rcases mem_cons.mp hb with rfl | hb
  · exact le_rfl
  · have hpair := (pairwise_append.mp h.sorted).2.1
    exact cpcompare_addr_le ((pairwise_cons.mp hpair).1 b hb)

theorem Split.notMem_pre : cp ∉ pre := by
  have hnodup := h.perm.nodup_iff.mpr (nodup_changePoints entries)
  rw [nodup_middle, nodup_cons, mem_append, not_or] at hnodup
  exact hnodup.1.1

theorem Split.next : Split entries (pre ++ [cp]) rest := by
  have happ : pre ++ [cp] ++ rest = pre ++ cp :: rest := by simp
  exact ⟨happ ▸ h.perm, happ ▸ h.sorted⟩

end

theorem start_lt_end (hwrap : NoWrap entries) (hsize : (entries.get i).size ≠ 0) :
    (startPoint entries i).addr.toNat < (endPoint entries i).addr.toNat := by
  rw [toNat_endPoint hwrap, startPoint]
  bv_omega

/-- Between the last change point done and the next one, the entries that
contain an address are those of the overlap list. -/
theorem SweepInv.effective (hwrap : NoWrap entries) (hsplit : Split entries pre rest)
    (h : SweepInv entries pre overlap m x) {a : BitVec 64} (hxa : x ≤ a.toNat)
    (hrest : ∀ cp ∈ rest, a.toNat < cp.addr.toNat) :
    Effective entries a (currentType entries overlap) := by
  have hcontains : ∀ i, (entries.get i).Contains a ↔ i ∈ overlap := by
    intro i
    rw [h.mem_overlap]
    constructor
    · rintro ⟨hge, hlt⟩
      have hsize : (entries.get i).size ≠ 0 := by
        bv_omega
      constructor
      · rcases hsplit.start_mem hsize with hpre | hrest'
        · exact hpre
        · have hlt' := hrest _ hrest'
          simp only [startPoint] at hlt'
          omega
      · intro hend
        have hle := h.below _ hend
        rw [toNat_endPoint hwrap] at hle
        omega
    · rintro ⟨hstart, hend⟩
      have hge := h.below _ hstart
      have hsize := (hsplit.mem_iff.mp (.inl hstart)).1
      have hin := (hsplit.end_mem hsize).resolve_left hend
      have hlt := hrest _ hin
      rw [toNat_endPoint hwrap] at hlt
      simp only [startPoint] at hge
      exact ⟨by omega, hlt⟩
  obtain ⟨hmax, hat⟩ := currentType_spec entries overlap
  constructor
  · intro e he hc
    obtain ⟨i, rfl⟩ := get_of_mem he
    exact hmax i ((hcontains i).mp hc)
  · rcases hat with hzero | ⟨i, hi, heq⟩
    · exact .inl hzero
    · exact .inr ⟨_, get_mem entries i, (hcontains i).mpr hi, heq⟩

section
variable (hwrap : NoWrap entries) (hsplit : Split entries pre (cp :: rest))
include hwrap hsplit

theorem SweepInv.advance (h : SweepInv entries pre overlap m x) (hx : x ≤ cp.addr.toNat) :
    SweepInv entries pre overlap m cp.addr.toNat where
  nodup := h.nodup
  mem_overlap := h.mem_overlap
  lastType_eq := h.lastType_eq
  below b hb := hsplit.le_of_mem hb (by simp)
  map := by
    refine h.map.advance hx fun a hxa ha => ?_
    rw [h.lastType_eq]
    exact h.effective hwrap hsplit hxa fun b hb => ha.trans_le (hsplit.head_le hb)

theorem SweepInv.trackOverlap (h : SweepInv entries pre overlap m x) :
    (trackOverlap entries cp overlap).Nodup ∧ ∀ i, i ∈ X86.trackOverlap entries cp overlap ↔
        startPoint entries i ∈ pre ++ [cp] ∧ endPoint entries i ∉ pre ++ [cp] := by
  obtain ⟨hsize, hcp⟩ := hsplit.mem_iff.mp (.inr (mem_cons_self ..) : cp ∈ pre ∨ _)
  have hlt := start_lt_end hwrap hsize
  have hfresh := hsplit.notMem_pre
  have hother : ∀ i, i ≠ cp.entry → startPoint entries i ≠ cp ∧ endPoint entries i ≠ cp := by
    intro i hi
    constructor <;> (rintro rfl; exact hi rfl)
  unfold X86.trackOverlap
  by_cases hstart : isStart entries cp = true
  · -- `cp` starts its entry, which is not in the list yet
    have heq : cp = startPoint entries cp.entry := by
      rcases hcp with heq | heq
      · exact heq
      · have haddr : cp.addr = (entries.get cp.entry).addr := by simpa [isStart] using hstart
        rw [← heq, haddr] at hlt
        simp [startPoint] at hlt
    have hend : endPoint entries cp.entry ∉ pre := by
      intro hmem
      have hle := hsplit.le_of_mem hmem (mem_cons_self ..)
      rw [heq] at hle
      simp only [startPoint] at hle hlt
      omega
    have hnot : cp.entry ∉ overlap := by
      rw [h.mem_overlap, ← heq]
      exact fun hmem => hfresh hmem.1
    rw [if_pos hstart]
    refine ⟨?_, fun i => ?_⟩
    · simpa [nodup_middle, hnot] using h.nodup
    by_cases hi : i = cp.entry
    · subst hi
      have hne : endPoint entries cp.entry ≠ cp := by
        intro hc
        rw [hc, ← heq] at hlt
        exact Nat.lt_irrefl _ hlt
      simp [← heq, hend, hne]
    · simp [hi, h.mem_overlap, hother i hi]
  · -- `cp` ends its entry, which is in the list
    have heq : cp = endPoint entries cp.entry := by
      rcases hcp with heq | heq
      · rw [heq, isStart_startPoint] at hstart
        exact absurd rfl hstart
      · exact heq
    have hpre : startPoint entries cp.entry ∈ pre := by
      rcases hsplit.start_mem hsize with hpre | hrest
      · exact hpre
      · have hle := hsplit.head_le hrest
        rw [← heq] at hlt
        omega
    have hmem : cp.entry ∈ overlap := by
      rw [h.mem_overlap, ← heq]
      exact ⟨hpre, hfresh⟩
    have hperm := removeOverlap_perm h.nodup hmem
    rw [if_neg hstart]
    refine ⟨hperm.nodup_iff.mpr (h.nodup.erase _), fun i => ?_⟩
    rw [hperm.mem_iff, h.nodup.mem_erase_iff]
    by_cases hi : i = cp.entry
    · subst hi
      simp [← heq]
    · simp [hi, h.mem_overlap, hother i hi]

theorem SweepInv.step (h : SweepInv entries pre overlap m cp.addr.toNat) :
    let overlap' := X86.trackOverlap entries cp overlap
    let current := currentType entries overlap'
    SweepInv entries (pre ++ [cp]) overlap'
      (if current ≠ m.lastType ∨ e820Nomerge current then
        (m.close cp.addr).start cp.addr current else m) cp.addr.toNat := by
  intro overlap' current
  obtain ⟨hnodup, hmem⟩ := h.trackOverlap hwrap hsplit
  have hbelow : ∀ b ∈ pre ++ [cp], b.addr.toNat ≤ cp.addr.toNat :=
    forall_mem_append.2 ⟨h.below, forall_mem_singleton.2 le_rfl⟩
  split
  · exact ⟨hnodup, hmem, by simp [overlap', current], hbelow, h.map.close.start current⟩
  next hsame =>
    simp only [not_or, ne_eq, not_not] at hsame
    exact ⟨hnodup, hmem, hsame.1.symm, hbelow, h.map⟩

end

/-- `out` is sorted by address, its entries are not empty and do not overlap, and
each address has in it the largest type it has in `entries`. -/
structure Sanitized (entries out : List E820Entry) : Prop where
  sorted : out.Pairwise fun o o' => o.addr < o'.addr
  nonempty : ∀ o ∈ out, o.size ≠ 0
  disjoint : out.Pairwise fun o o' => ∀ a, ¬(o.Contains a ∧ o'.Contains a)
  type_max : ∀ a, ∀ o ∈ out, o.Contains a →
    (∃ e ∈ entries, e.Contains a ∧ e.type = o.type) ∧ ∀ e ∈ entries, e.Contains a → e.type ≤ o.type
  covers : ∀ a, (∃ o ∈ out, o.Contains a) ↔ ∃ e ∈ entries, e.Contains a ∧ e.type ≠ 0

/-- What is left when all change points are done: every entry has ended, so
nothing is open and the finished entries are right everywhere. -/
theorem SweepInv.sanitized (hwrap : NoWrap entries) (hsplit : Split entries pre [])
    (h : SweepInv entries pre overlap m x) : Sanitized entries m.entries := by
  have hoverlap : overlap = [] := by
    rw [eq_nil_iff_forall_not_mem]
    intro i hi
    obtain ⟨hstart, hend⟩ := (h.mem_overlap i).mp hi
    have hsize := (hsplit.mem_iff.mp (.inl hstart)).1
    rcases hsplit.end_mem hsize with hmem | hmem
    · exact hend hmem
    · simp at hmem
  have hzero : m.lastType = 0 := by
    rw [h.lastType_eq, hoverlap]
    rfl
  have hmap : MapInv entries m (max x (2 ^ 64)) := by
    refine h.map.advance (Nat.le_max_left _ _) fun a hxa _ => ?_
    rw [h.lastType_eq]
    exact h.effective hwrap hsplit hxa (by simp)
  have hdisjoint : m.entries.Pairwise fun o o' => ∀ a, ¬(o.Contains a ∧ o'.Contains a) := by
    refine hmap.sorted.imp fun hle a hc => ?_
    have := hc.1.2
    have := hc.2.1
    omega
  have hfinished := hmap.finished (absurd hzero)
  have hlt (a : BitVec 64) : a.toNat < max x (2 ^ 64) := a.isLt.trans_le (Nat.le_max_right _ _)
  have hunique : ∀ a, ∀ o ∈ m.entries, ∀ o' ∈ m.entries, o.Contains a → o'.Contains a →
      o.type = o'.type := by
    intro a o ho o' ho'
    refine Pairwise.forall_of_forall_of_flip
      (R := fun o o' => o.Contains a → o'.Contains a → o.type = o'.type)
      (fun _ _ _ _ => rfl) (hdisjoint.imp fun hd hc hc' => ?_)
      (hdisjoint.imp fun hd hc hc' => ?_) ho ho'
    · exact absurd ⟨hc, hc'⟩ (hd a)
    · exact absurd ⟨hc', hc⟩ (hd a)
  refine ⟨?_, fun o ho => ?_, hdisjoint, fun a o ho hc => ?_, fun a => ?_⟩
  · refine hmap.sorted.imp_of_mem fun {o o'} ho _ hle => ?_
    have := (hmap.nonempty o ho).1
    bv_omega
  · have := (hmap.nonempty o ho).1
    bv_omega
  · obtain ⟨t, ⟨hmax, hat⟩, hentry | ⟨-, hnone⟩⟩ := hfinished.shows a (hlt a)
    · obtain ⟨o', ho', hc', rfl⟩ := hentry
      rw [hunique a o ho o' ho' hc hc']
      refine ⟨?_, hmax⟩
      exact hat.resolve_left (hmap.nonempty o' ho').2
    · exact absurd hc (hnone o ho)
  · obtain ⟨t, ⟨hmax, hat⟩, hentry | ⟨ht, hnone⟩⟩ := hfinished.shows a (hlt a)
    · obtain ⟨o, ho, hc, rfl⟩ := hentry
      have hne := (hmap.nonempty o ho).2
      obtain ⟨e, he, hce, hte⟩ := hat.resolve_left hne
      exact iff_of_true ⟨o, ho, hc⟩ ⟨e, he, hce, hte ▸ hne⟩
    · refine iff_of_false (fun ⟨o, ho, hc⟩ => hnone o ho hc) ?_
      rintro ⟨e, he, hce, hne⟩
      have hle := hmax e he hce
      bv_omega

theorem sweep_none_cons : sweep entries none (cp :: rest) overlap m =
      let overlap' := X86.trackOverlap entries cp overlap
      let current := currentType entries overlap'
      sweep entries none rest overlap' (if current ≠ m.lastType ∨ e820Nomerge current then
        (m.close cp.addr).start cp.addr current else m) := by
  simp only [sweep, any_none, Bool.false_eq_true, and_false, if_false]
  split <;> rfl

theorem sanitized_sweep (hwrap : NoWrap entries) (hsplit : Split entries pre rest)
    (h : SweepInv entries pre overlap m x) (hx : ∀ cp ∈ rest, x ≤ cp.addr.toNat) :
    Sanitized entries (sweep entries none rest overlap m).entries := by
  induction rest generalizing pre overlap m x with
  | nil => exact h.sanitized hwrap hsplit
  | cons cp rest ih =>
    have hadvance := h.advance hwrap hsplit (hx cp (by simp))
    rw [sweep_none_cons]
    exact ih hsplit.next (hadvance.step hwrap hsplit)
      fun b hb => hsplit.head_le (mem_cons_of_mem _ hb)

theorem NewMap.close_prefix (m : NewMap) (addr : BitVec 64) :
    m.entries <+: (m.close addr).entries := by
  simp only [NewMap.close]
  repeat' split
  all_goals simp

theorem sweep_prefix (entries : List E820Entry) (cps : List (ChangeMember entries.length))
    (overlap : List (Fin entries.length)) (m : NewMap) :
    m.entries <+: (sweep entries none cps overlap m).entries := by
  induction cps generalizing overlap m with
  | nil => exact prefix_refl _
  | cons cp cps ih =>
    rw [sweep_none_cons]
    refine IsPrefix.trans ?_ (ih _ _)
    split
    · simpa using m.close_prefix cp.addr
    · exact prefix_refl _

/-- A map that fits is not cut off: when the loop breaks, it has no entry left
to write. -/
theorem sweep_eq_of_fits (entries : List E820Entry) (max : Nat)
    (cps : List (ChangeMember entries.length)) (overlap : List (Fin entries.length))
    (m : NewMap) (hfits : (sweep entries none cps overlap m).entries.length ≤ max) :
    (sweep entries (some max) cps overlap m).entries =
      (sweep entries none cps overlap m).entries := by
  induction cps generalizing overlap m with
  | nil => rfl
  | cons cp cps ih =>
    simp only [sweep, any_none, any_some, Bool.false_eq_true, and_false,
      if_false, decide_eq_true_eq] at hfits ⊢
    split at hfits
    next hcond =>
      rw [if_pos hcond]
      have hprefix := sweep_prefix entries cps (X86.trackOverlap entries cp overlap)
        ((m.close cp.addr).start cp.addr
          (currentType entries (X86.trackOverlap entries cp overlap)))
      rw [NewMap.start_entries] at hprefix
      split
      · exact hprefix.eq_of_length (by have := hprefix.length_le; omega)
      · exact ih _ _ hfits
    next hcond =>
      rw [if_neg hcond, if_neg hcond]
      exact ih _ _ hfits

end

/-- `e820__update_table` replaces a table of at least two entries, none of which
wraps, by its sanitized form, provided that form fits the array. -/
theorem e820UpdateTable_sanitizes {maxEntries : Nat} (table : E820Table maxEntries)
    (sort : SortFn table.entries.length)
    (hsort : SortedBy (cpcompare table.entries) (changePoints table.entries)
      (sort (cpcompare table.entries) (changePoints table.entries)))
    (hlen : 2 ≤ table.entries.length) (hwrap : NoWrap table.entries)
    (hfits : (newEntries table.entries sort none).length ≤ maxEntries) :
    (e820UpdateTable table sort).1 = 0 ∧
      Sanitized table.entries (e820UpdateTable table sort).2.entries := by
  have hany : (table.entries.any fun e => e.addr + e.size < e.addr) = false := by
    rw [List.any_eq_false]
    intro e he
    have h := hwrap e he
    simp only [decide_eq_true_eq]
    bv_omega
  have hinv : SweepInv table.entries [] [] NewMap.init 0 :=
    ⟨List.nodup_nil, by simp, rfl, by simp, mapInv_init _⟩
  have hsplit : Split table.entries []
      (sort (cpcompare table.entries) (changePoints table.entries)) :=
    ⟨by simpa using hsort.1, by simpa using hsort.2⟩
  have hsane := sanitized_sweep hwrap hsplit hinv fun _ _ => Nat.zero_le _
  have hnot : ¬table.entries.length < 2 := by omega
  simp only [e820UpdateTable, hnot, dif_neg, not_false_eq_true, hany, Bool.false_eq_true,
    if_false, true_and]
  rw [newEntries, sweep_eq_of_fits _ _ _ _ _ hfits]
  exact hsane

def overlappingTable : E820Table 128 where
  entries := [⟨0x1000, 0x4000, 1⟩, ⟨0x2000, 0x1000, 2⟩, ⟨0x3000, 0x1000, 2⟩]
  nrEntries_le := by decide

theorem e820UpdateTable_sanitizes_overlappingTable :
    (e820UpdateTable overlappingTable fun cmp l => l.insertionSort (cmp · · ≤ 0)).1 = 0 ∧
      Sanitized overlappingTable.entries
        (e820UpdateTable overlappingTable fun cmp l =>
          l.insertionSort (cmp · · ≤ 0)).2.entries ∧
      (e820UpdateTable overlappingTable fun cmp l => l.insertionSort (cmp · · ≤ 0)).2.entries =
        [⟨0x1000, 0x1000, 1⟩, ⟨0x2000, 0x2000, 2⟩, ⟨0x4000, 0x1000, 1⟩] := by
  have h := e820UpdateTable_sanitizes overlappingTable
    (fun cmp l => l.insertionSort (cmp · · ≤ 0)) (by unfold SortedBy; decide) (by decide)
    (by unfold NoWrap; decide) (by decide)
  exact ⟨h.1, h.2, by decide⟩

end LinuxKernel.X86
