import LinuxKernel.Bpf.BtfRoundTrip
import LinuxKernel.Bpf.BtfStrings

/-!
# The error path of `btf__add_btf`

The strings of the source are added to the destination one by one before anything is committed. If
a later step fails, the length of the strings is put back, but the string set keeps the new strings,
and the memory that is cleared is addressed through `strs_data`, which is `NULL`. A failed call is
invisible exactly if no string was appended on the way.
-/

namespace LinuxKernel.Bpf

open Foundation List Option BtfType Btf

/-! ## Observations -/

/-- The destination is as it was before the call, and nothing was written outside its storage. -/
structure Restored (st st' : BtfState) : Prop where
  typeCnt : st'.btf.typeCnt = st.btf.typeCnt
  types : ∀ id, btfTypeById st'.chain id = btfTypeById st.chain id
  strLen : st'.btf.hdr.strLen = st.btf.hdr.strLen
  find : ∀ s, (btfFindStr granted (some s) st'.chain).map Prod.fst =
    (btfFindStr granted (some s) st.chain).map Prod.fst
  writes : st'.nullWrites = st.nullWrites

variable {chain : List Btf}

theorem btfTypeById_frame {chain' : List Btf} (h : Forall₂ Frame chain chain')
    (id : Nat) : btfTypeById chain' id = btfTypeById chain id := by
  induction h with
  | nil => rfl
  | cons hframe _ ih =>
    rw [btfTypeById, btfTypeById, typeCnt, nrTypes, hframe.types, hframe.startId, ih,
      typeCnt, nrTypes]

variable {vs : List StrView}

theorem btfFindStr_granted (h : Forall₂ Btf.Shows chain vs) (s : CStr) :
    (btfFindStr granted (some s) chain).map Prod.fst = findView s vs := by
  rcases btfFindStr_cases granted (some s) h with ⟨off, chain', hfind, -, -, hview, -⟩ |
    ⟨hfault, hview⟩
  · rw [hfind, (hview s rfl).resolve_right fun hne => hne.2 rfl]
    rfl
  · rw [hfault, hview s rfl]
    rfl

variable {st : BtfState}

theorem Kept.restored {st' : BtfState} (h : Kept vs st st')
    (hst : Forall₂ Btf.Shows st.chain vs) : Restored st st' := by
  obtain ⟨hbtf, -⟩ := forall₂_cons.1 h.frame
  refine ⟨?_, btfTypeById_frame h.frame, ?_, fun s => ?_, h.nullWrites⟩
  · rw [typeCnt, nrTypes, hbtf.types, hbtf.startId, typeCnt, nrTypes]
  · rw [hbtf.hdr]
  · rw [btfFindStr_granted h.shows, btfFindStr_granted hst]

/-! ## The string offsets of the source -/

def BtfType.strOffs (t : BtfType) : List U32 := t.strSlots.map t.getStr

def strOffs : Nat → List U32 → List U32
  | 0, _ => []
  | cnt + 1, ws =>
    match recordOf ws with
    | none => []
    | some t => t.strOffs ++ strOffs cnt (ws.drop t.words.length)

def Btf.strOffs (btf : Btf) : List U32 := Bpf.strOffs btf.nrTypes btf.types.flatten

theorem BtfType.nodup_strSlots (t : BtfType) : t.strSlots.Nodup := by
  unfold strSlots
  have hwords : ∀ k : Nat, 0 < k → ((range t.vlen).map fun i => StrSlot.word (k * i)).Nodup := by
    intro k hk
    refine Nodup.map ?_ nodup_range
    intro i j hij
    exact Nat.eq_of_mul_eq_mul_left hk (StrSlot.word.inj hij)
  have hname : ∀ k : Nat, StrSlot.name ∉ (range t.vlen).map fun i => StrSlot.word (k * i) := by simp
  split
  case h_6 => exact nodup_singleton _
  all_goals exact nodup_cons.2 ⟨hname _, hwords _ (by decide)⟩

variable {t : BtfType}

theorem BtfType.getStr_setStr {slot slot' : StrSlot} (h : slot ≠ slot') (off : U32) :
    (t.setStr slot' off).getStr slot = t.getStr slot := by
  cases slot <;> cases slot' <;> first | rfl | skip
  · exact absurd rfl h
  next i j =>
    have hne : j ≠ i := fun heq => h (by rw [heq])
    simp only [getStr, setStr, getD_eq_getElem?_getD, getElem?_set_ne hne]

theorem BtfType.length_strOffs {k : Nat} (h : btfExtraWords t.info = some k) :
    t.strOffs.length ≤ t.words.length := by
  rw [strOffs, length_words, h, getD_some]
  unfold btfExtraWords at h
  unfold strSlots kind vlen
  cases hk : infoKind t.info <;> simp only [hk, some.injEq, reduceCtorEq] at h ⊢ <;>
    simp only [length_cons, length_map, length_range, length_nil] <;> omega

theorem length_strOffs (cnt : Nat) (ws : List U32) : (strOffs cnt ws).length ≤ ws.length := by
  induction cnt generalizing ws with
  | zero => exact Nat.zero_le _
  | succ cnt ih =>
    unfold strOffs
    cases hrec : recordOf ws with
    | none => exact Nat.zero_le _
    | some t =>
      obtain ⟨rest, k, hws, hk, hfit, -⟩ := recordOf_eq_some hrec
      have hle := BtfType.length_strOffs hk
      have hrest := ih (ws.drop t.words.length)
      have hwords : t.words.length ≤ ws.length := by
        rw [hws, length_words, hk, getD_some]
        simp only [length_cons]
        omega
      rw [length_drop] at hrest
      simp only [length_append]
      omega

theorem BtfType.exists_rewriteTypeIds (h : (btfExtraWords t.info).isSome)
    (delta : U32) : ∃ t', t.rewriteTypeIds delta = some t' := by
  unfold rewriteTypeIds idSlots kind
  unfold btfExtraWords at h
  cases hk : infoKind t.info <;> simp [hk] at h ⊢

/-! ## The loop -/

section
variable {a : Nat → SlotAlloc} {src : List Btf} {E : BtfStop → BtfState → Prop} {offs : List U32}
  {I : List U32 → Pipe → BtfState → Prop}

section
variable {pre post : List U32} {p : Pipe} {st : BtfState}
    (hstep : ∀ pre off post, offs = pre ++ off :: post → ∀ p st, I pre p st →
      wp (btfRewriteStr a src p off) (fun r st' => I (pre ++ [off]) r.2 st') E st)
include hstep

theorem wp_visitStrOffs_walk
    {t : BtfType} (hoffs : offs = pre ++ (t.strOffs ++ post)) (hI : I pre p st) :
    wp (visitStrOffs a src p t) (fun r st' => I (pre ++ t.strOffs) r.2 st' ∧ r.1.info = t.info)
      E st := by
  -- the slots not visited yet still hold the offsets of the source
  suffices hslots : ∀ (slots : List StrSlot) (t₁ : BtfType) (pre : List U32) (p : Pipe)
      (st : BtfState), slots.Nodup → (∀ slot ∈ slots, t₁.getStr slot = t.getStr slot) →
      offs = pre ++ (slots.map t.getStr ++ post) → I pre p st →
      wp (slots.foldlM (fun tp slot => do
        let r ← btfRewriteStr a src tp.2 (tp.1.getStr slot)
        pure (tp.1.setStr slot r.1, r.2)) (t₁, p))
        (fun r st' => I (pre ++ slots.map t.getStr) r.2 st' ∧ r.1.info = t₁.info) E st from
    hslots t.strSlots t pre p st t.nodup_strSlots (fun _ _ => rfl) hoffs hI
  intro slots
  induction slots with
  | nil =>
    intro t₁ pre p st _ _ _ hI
    exact ⟨by simpa using hI, rfl⟩
  | cons slot slots ih =>
    intro t₁ pre p st hnodup heq hoffs hI
    obtain ⟨hnot, hnodup'⟩ := nodup_cons.1 hnodup
    refine wp_seq (R := fun r st' => I (pre ++ [t.getStr slot]) r.2 st' ∧
      ∃ off, r.1 = t₁.setStr slot off) ?_ fun r st' hfirst => ?_
    · dsimp only
      rw [heq slot mem_cons_self]
      refine wp_seq (hstep pre (t.getStr slot) _ (by simpa using hoffs) p st hI) fun r st' hI' => ?_
      exact ⟨hI', r.1, rfl⟩
    · obtain ⟨t₂, p₂⟩ := r
      obtain ⟨hI', off, hr⟩ := hfirst
      obtain rfl : t₂ = t₁.setStr slot off := hr
      refine wp_imp (ih _ (pre ++ [t.getStr slot]) p₂ st' hnodup' ?_ (by simpa using hoffs) hI')
        fun r st'' hrest => ?_
      · intro slot' hslot'
        have hne : slot' ≠ slot := fun h => hnot (h ▸ hslot')
        rw [getStr_setStr hne, heq slot' (mem_cons_of_mem _ hslot')]
      · exact ⟨by simpa using hrest.1, hrest.2.trans (info_setStr _ _ _)⟩

theorem wp_addTypes_walk (delta : U32) (cnt : Nat) {ws : List U32}
    (hstop : walkTypes cnt ws = none → ∀ p st, I offs p st → E (.err (-EINVAL)) st ∧ E .fault st)
    (hoffs : offs = pre ++ strOffs cnt ws) (hI : I pre p st) : wp (addTypes a src delta cnt p ws)
      (fun r st' => r.1.length = cnt ∧ walkTypes cnt ws ≠ none ∧ ∃ p', I offs p' st') E st := by
  induction cnt generalizing ws pre p st with
  | zero =>
    rw [strOffs, append_nil] at hoffs
    exact ⟨rfl, by simp [walkTypes], p, hoffs ▸ hI⟩
  | succ cnt ih =>
    unfold addTypes
    unfold strOffs at hoffs
    unfold walkTypes at hstop
    cases hrec : recordOf ws with
    | none =>
      simp only [hrec, append_nil] at hoffs hstop
      subst hoffs
      obtain ⟨heinval, hfault⟩ := hstop trivial p st hI
      dsimp only
      split
      · split
        · exact heinval
        · exact hfault
      · exact hfault
    | some t =>
      simp only [hrec] at hoffs hstop
      obtain ⟨rest, k, -, hk, -⟩ := recordOf_eq_some hrec
      refine wp_seq (wp_visitStrOffs_walk hstep hoffs hI) fun r st' hvisit => ?_
      obtain ⟨hI', hinfo⟩ := hvisit
      obtain ⟨t', ht'⟩ := exists_rewriteTypeIds
        (show (btfExtraWords r.1.info).isSome by rw [hinfo, hk]; rfl) delta
      simp only [ht']
      refine wp_seq (ih hstop (by rw [hoffs, append_assoc]) hI') fun r' st'' hI'' => ?_
      exact ⟨by simp [hI''.1], by simpa only [walkTypes, hrec] using hI''.2.1, hI''.2.2⟩

end

end

/-! ## One string offset -/

/-- Every offset is 0 or that of a string the destination has. -/
def Seen (st : BtfState) (src : List Btf) (offs : List U32) : Prop :=
  ∀ off ∈ offs, off = 0 ∨ ∃ s, btfStrByOffset src off.toNat = some s ∧ Held st s

/-- The map from offsets of the source to offsets of the destination after some offsets. -/
structure MapOk (offs : List U32) (p : Pipe) (map : Hashmap (BitVec 64) U32) : Prop where
  strOffMap : p.strOffMap = some map
  visited : p.visited = offs.length
  wf : map.WF identityFns
  sz : map.sz ≤ offs.length
  keys : ∀ e ∈ map.buckets.flatten, ∃ off ∈ offs, e.key = off.setWidth 64

/-- What holds in the loop as long as no string is appended. -/
structure Walked (st₀ : BtfState) (src : List Btf) (vs : List StrView) (offs : List U32) (p : Pipe)
    (st : BtfState) : Prop where
  kept : Kept vs st₀ st
  seen : Seen st₀ src offs
  map : ∃ map, MapOk offs p map

section
variable {st₀ st : BtfState} {src : List Btf} {v : StrView} {vs : List StrView} {pre : List U32}
  {p : Pipe} {off : U32}

theorem Seen.concat (h : Seen st₀ src pre)
    (hoff : off = 0 ∨ ∃ s, btfStrByOffset src off.toNat = some s ∧ Held st₀ s) :
    Seen st₀ src (pre ++ [off]) := by
  intro off' hmem
  rcases mem_append.1 hmem with hold | hnew
  · exact h off' hold
  · obtain rfl := mem_singleton.1 hnew
    exact hoff

variable {map : Hashmap (BitVec 64) U32}

theorem MapOk.skip (h : MapOk pre p map) :
    MapOk (pre ++ [off]) { p with visited := p.visited + 1 } map where
  strOffMap := h.strOffMap
  visited := by simp [h.visited]
  wf := h.wf
  sz := by
    have := h.sz
    simp only [length_append, length_singleton]
    omega
  keys e he := by
    obtain ⟨off', hmem, hkey⟩ := h.keys e he
    exact ⟨off', mem_append_left _ hmem, hkey⟩

theorem MapOk.mem_of_find (h : MapOk pre p map) {mappedOff : U32}
    (hfind : hashmapFind identityFns map (off.setWidth 64) = some mappedOff) : off ∈ pre := by
  rcases hashmapFind_cases identityFns_lawful h.wf (off.setWidth 64) with ⟨e, he, heq, -⟩ |
    ⟨-, hnone⟩
  · obtain ⟨off', hmem, hkey⟩ := h.keys e he
    have hkey' : e.key = off.setWidth 64 := by simpa [identityFns] using heq
    have hsame : off'.setWidth 64 = off.setWidth 64 := hkey.symm.trans hkey'
    have hoff : off' = off := by
      apply BitVec.eq_of_toNat_eq
      have hnat := congrArg BitVec.toNat hsame
      simp only [BitVec.toNat_setWidth] at hnat
      omega
    exact hoff ▸ hmem
  · rw [hnone] at hfind
    cases hfind

theorem MapOk.append (h : MapOk pre p map) (a : Alloc) (value : U32) :
    let r := hashmapInsertNew identityFns a map (off.setWidth 64) value
    (r.ret = 0 ∧ MapOk (pre ++ [off]) { p with visited := p.visited + 1, strOffMap := some r.map }
        r.map) ∨
      r.ret = -ENOMEM := by
  obtain ⟨hwf, hcases⟩ := hashmapInsertNew_spec a h.wf (off.setWidth 64) value
  rcases hcases with ⟨hret, hperm⟩ | ⟨hret, -⟩
  · refine .inl ⟨hret, rfl, by simp [h.visited], hwf, ?_, ?_⟩
    · have hsz := h.sz
      rw [hwf.sz_eq, hperm.length_eq, length_cons, ← h.wf.sz_eq]
      simp only [length_append, length_singleton]
      omega
    · intro e he
      rcases mem_cons.1 (hperm.mem_iff.1 he) with rfl | hold
      · exact ⟨off, by simp, rfl⟩
      · obtain ⟨off', hmem, hkey⟩ := h.keys e hold
        exact ⟨off', mem_append_left _ hmem, hkey⟩
  · exact .inr hret

variable {K V : Type} {E : BtfStop → BtfState → Prop}

/-- An offset is mapped already, or its string is added and the map gets an entry for it. -/
theorem MapOk.wp_btfRewriteStr (h : MapOk pre p map) {a : Nat → SlotAlloc}
    {Q : Pipe → BtfState → Prop}
    (hmapped : off = 0 ∨ off ∈ pre → ∀ p', MapOk (pre ++ [off]) p' map → Q p' st)
    (hadd : off ≠ 0 → wp (btfAddStr (a p.visited).str (btfStrByOffset src off.toNat))
      (fun ret st' =>
        let r := hashmapInsertNew identityFns (a p.visited).append map (off.setWidth 64)
          (BitVec.ofInt 32 ret)
        (r.ret = 0 → ∀ p', MapOk (pre ++ [off]) p' r.map → Q p' st') ∧
          (r.ret = -ENOMEM → E (.err r.ret) st')) E st) :
    wp (btfRewriteStr a src p off) (fun r st' => Q r.2 st') E st := by
  obtain ⟨strOffMap, visited⟩ := p
  obtain rfl : strOffMap = some map := h.strOffMap
  unfold btfRewriteStr
  dsimp only
  split
  · exact hmapped (.inl ‹_›) _ h.skip
  rw [bind_some]
  cases hfind : hashmapFind identityFns map (off.setWidth 64) with
  | some mappedOff => exact hmapped (.inr (h.mem_of_find hfind)) _ h.skip
  | none =>
    refine wp_seq (hadd ‹_›) fun ret st' ⟨hzero, hnomem⟩ => ?_
    simp only [hashmapInsert, if_true, reduceCtorEq, if_false]
    rcases h.append (a visited).append (BitVec.ofInt 32 ret) with ⟨hret, hmap'⟩ | hret
    · rw [if_neg (not_not.2 hret)]
      exact hzero hret _ hmap'
    · rw [if_pos (by rw [hret]; decide)]
      exact hnomem hret

theorem held_congr (hst₀ : Forall₂ Btf.Shows st₀.chain (v :: vs))
    (h : Kept (v :: vs) st₀ st) (s : CStr) : Held st s ↔ Held st₀ s := by
  rw [held_iff h.shows, held_iff hst₀, h.strLen]

theorem grows_congr (hst₀ : Forall₂ Btf.Shows st₀.chain (v :: vs))
    (h : Kept (v :: vs) st₀ st) (s : CStr) : Grows st s ↔ Grows st₀ s := by
  rw [grows_iff h.shows, grows_iff hst₀, h.strLen]

variable {s : CStr}

theorem not_grows_of_held (h : Held st s) : ¬Grows st s := by
  obtain ⟨off, st', hrun, hlen⟩ := h
  simp [Grows, hrun, hlen]

variable {st' : BtfState}

theorem wp_btfAddStr_not_grows (h : Forall₂ Btf.Shows st.chain (v :: vs))
    (a : Nat → StrAlloc) (hno : ¬Grows st s) :
    wp (btfAddStr a (some s)) (fun _ st' => Kept (v :: vs) st st' ∧ Held st s)
      (fun e st' => e = .fault ∨ Kept (v :: vs) st st') st := by
  unfold wp
  rcases btfAddStr_cases h a s with hholds | ⟨-, e, st', hrun, hkept⟩
  · rw [grows_iff h] at hno
    rw [held_iff h]
    generalize hview : addView s v vs = o at hholds hno ⊢
    cases o with
    | fault =>
      obtain ⟨st', hrun⟩ := hholds
      rw [hrun]
      exact .inl rfl
    | refused =>
      obtain ⟨e, st', hrun, hkept⟩ := hholds
      rw [hrun]
      exact .inr hkept
    | found off =>
      obtain ⟨st', hrun, hkept⟩ := hholds
      rw [hrun]
      exact ⟨hkept, .inl ⟨off, rfl⟩⟩
    | entered ret table =>
      obtain ⟨st', hrun, hent⟩ := hholds
      have hlen : BitVec.ofNat 32 table.text.length = st.btf.hdr.strLen := by
        by_contra hne
        exact hno ⟨ret, table, rfl, hne⟩
      obtain rfl := addView_entered (forall₂_cons.1 h).1 hview hlen
      have hframe := hent.frame
      rw [hlen] at hframe
      have hkept : Kept (v :: vs) st st' := ⟨hent.shows, .cons ⟨hframe.hdr, hframe.types,
        hframe.startId, fun _ => hent.modifiable⟩ hent.base, hent.nullWrites⟩
      rw [hrun]
      split_ifs with hret
      · exact .inr hkept
      · exact ⟨hkept, .inr ⟨ret, Int.not_lt.1 hret, rfl, hlen⟩⟩
  · rw [hrun]
    exact .inr hkept

theorem wp_btfAddStr_held (h : Forall₂ Btf.Shows st.chain (v :: vs)) (hheld : Held st s) :
    wp (btfAddStr granted (some s)) (fun _ st' => Kept (v :: vs) st st') (fun _ _ => False) st := by
  have hkept := wp_btfAddStr_not_grows h granted (not_grows_of_held hheld)
  obtain ⟨off, st', hrun, -⟩ := hheld
  unfold wp at hkept ⊢
  rw [hrun] at hkept ⊢
  exact hkept.1

structure Grown (st st' : BtfState) : Prop where
  strLen : st'.btf.hdr.strLen ≠ st.btf.hdr.strLen
  modifiable : st'.btf.isModifiable = true
  nullWrites : st'.nullWrites = st.nullWrites

theorem wp_btfAddStr_grows (h : Forall₂ Btf.Shows st.chain (v :: vs)) (hgrows : Grows st s) :
    wp (btfAddStr granted (some s)) (fun _ st' => Grown st st')
      (fun e st' => (∃ e', e = .err e') ∧ Grown st st') st := by
  have hholds := btfAddStr_granted h s
  obtain ⟨ret, table, hview, hlen⟩ := (grows_iff h s).1 hgrows
  rw [hview] at hholds
  obtain ⟨st', hrun, hent⟩ := hholds
  have hgrown : Grown st st' := by
    refine ⟨?_, hent.modifiable, hent.nullWrites⟩
    rw [hent.frame.hdr]
    exact hlen
  unfold wp
  rw [hrun]
  split_ifs
  · exact ⟨⟨ret, rfl⟩, hgrown⟩
  · exact hgrown

theorem Kept.grown (h : Kept (v :: vs) st₀ st) (h' : Grown st st') : Grown st₀ st' :=
  ⟨h.strLen ▸ h'.strLen, h'.modifiable, h'.nullWrites.trans h.nullWrites⟩

variable {a : Nat → SlotAlloc}

section
variable (hst₀ : List.Forall₂ Btf.Shows st₀.chain (v :: vs)) (h : Walked st₀ src (v :: vs) pre p st)
include hst₀ h

theorem wp_btfRewriteStr_walk
    (hno : ∀ s, off ≠ 0 → btfStrByOffset src off.toNat = some s → ¬Grows st₀ s) :
    wp (btfRewriteStr a src p off) (fun r st' => Walked st₀ src (v :: vs) (pre ++ [off]) r.2 st')
      (fun e st' => e = .fault ∨ Kept (v :: vs) st₀ st') st := by
  obtain ⟨map, hmap⟩ := h.map
  have hE : ∀ (e : BtfStop) st', e = .fault ∨ Kept (v :: vs) st st' →
      e = .fault ∨ Kept (v :: vs) st₀ st' := fun e st' hor => hor.imp_right h.kept.trans
  refine hmap.wp_btfRewriteStr (fun hmapped p' hmap' => ?_) fun hzero => ?_
  · exact ⟨h.kept, h.seen.concat (hmapped.elim .inl (h.seen off)), map, hmap'⟩
  cases hstr : btfStrByOffset src off.toNat with
  | none => exact wp_mono (btfAddStr_none h.kept.shows _) (fun _ _ => False.elim) hE
  | some s =>
    have hno' : ¬Grows st s := fun hg => hno s hzero hstr ((grows_congr hst₀ h.kept s).1 hg)
    refine wp_mono (wp_btfAddStr_not_grows h.kept.shows _ hno') (fun ret st' hadded => ?_) hE
    have hkept := h.kept.trans hadded.1
    refine ⟨fun _ p' hmap' => ⟨hkept, h.seen.concat ?_, _, hmap'⟩, fun _ => .inr hkept⟩
    exact .inr ⟨s, hstr, (held_congr hst₀ h.kept s).1 hadded.2⟩

theorem wp_btfRewriteStr_held (ha : a p.visited = {}) (hlen : pre.length ≤ 2 ^ 32)
    (hoff : off = 0 ∨ ∃ s, btfStrByOffset src off.toNat = some s ∧ Held st₀ s)
    : wp (btfRewriteStr a src p off)
      (fun r st' => Walked st₀ src (v :: vs) (pre ++ [off]) r.2 st') E st := by
  obtain ⟨map, hmap⟩ := h.map
  have hseen := h.seen.concat hoff
  refine hmap.wp_btfRewriteStr (fun _ p' hmap' => ⟨h.kept, hseen, map, hmap'⟩) fun hzero => ?_
  obtain ⟨s, hstr, hheld⟩ := hoff.resolve_left hzero
  rw [hstr, ha]
  refine wp_mono (wp_btfAddStr_held h.kept.shows ((held_congr hst₀ h.kept s).2 hheld))
    (fun ret st' hkept => ⟨fun _ p' hmap' => ⟨h.kept.trans hkept, hseen, _, hmap'⟩, fun hret => ?_⟩)
    fun _ _ => False.elim
  rw [hashmapInsertNew_granted hmap.wf (hmap.sz.trans hlen)] at hret
  exact absurd hret (by decide)

end

theorem hashmapInsertNew_refused (f : HashFns K) (map : Hashmap K V) (key : K)
    (value : V) : (hashmapInsertNew f ⟨false, false⟩ map key value).ret = -ENOMEM := by
  unfold hashmapInsertNew
  dsimp only
  split
  · rfl
  · rw [if_neg (by simp [mallocEntry])]

theorem wp_btfRewriteStr_grows (hst₀ : Forall₂ Btf.Shows st₀.chain (v :: vs))
    (h : Walked st₀ src (v :: vs) pre p st) (ha : a p.visited = { append := ⟨false, false⟩ })
    (hzero : off ≠ 0) (hstr : btfStrByOffset src off.toNat = some s) (hgrows : Grows st₀ s) :
    wp (btfRewriteStr a src p off) (fun _ _ => False)
      (fun e st' => (∃ e', e = .err e') ∧ Grown st₀ st') st := by
  obtain ⟨map, hmap⟩ := h.map
  refine hmap.wp_btfRewriteStr (Q := fun _ _ => False) (fun hmapped => ?_) fun _ => ?_
  · obtain ⟨s', hstr', hheld⟩ := (h.seen off (hmapped.resolve_left hzero)).resolve_left hzero
    cases hstr.symm.trans hstr'
    exact absurd hgrows (not_grows_of_held hheld)
  rw [hstr, ha]
  refine wp_mono (wp_btfAddStr_grows h.kept.shows ((grows_congr hst₀ h.kept s).2 hgrows))
    (fun ret st' hgrown => ⟨fun hret => ?_, fun _ => ⟨⟨_, rfl⟩, h.kept.grown hgrown⟩⟩)
    fun e st' ⟨herr, hgrown⟩ => ⟨herr, h.kept.grown hgrown⟩
  rw [hashmapInsertNew_refused] at hret
  exact absurd hret (by decide)

end

/-! ## The whole call -/

/-- The checks before the loop pass, given memory. -/
structure Starts (st : BtfState) (srcBtf : Btf) : Prop where
  ready : st.btf.ready = true
  nonneg : 0 ≤ srcBtf.hdr.typeLen.toInt
  typeMem : memFits true st.btf.hdr.typeLen.toNat UINT_MAX srcBtf.hdr.typeLen.toNat = true
  offsMem : typeOffsFit true st.btf.nrTypes srcBtf.nrTypes = true
  words : 4 * srcBtf.types.flatten.length = srcBtf.hdr.typeLen.toNat

/-- The loop comes to a string that is appended to the destination: the strings of the source before
it are ones that the destination has. -/
def MayStore (st : BtfState) (src : List Btf) : Prop :=
  ∃ srcBtf, src = [srcBtf] ∧ Starts st srcBtf ∧ ∃ pre off post s,
    srcBtf.strOffs = pre ++ off :: post ∧ Seen st src pre ∧ off ≠ 0 ∧
      btfStrByOffset src off.toNat = some s ∧ Grows st s

/-- The types can be added without a new string, but the id of the first one is negative as an
`int`. -/
def WrapsId (st : BtfState) (src : List Btf) : Prop :=
  ∃ srcBtf, src = [srcBtf] ∧ Starts st srcBtf ∧ Seen st src srcBtf.strOffs ∧
    walkTypes srcBtf.nrTypes srcBtf.types.flatten ≠ none ∧ srcBtf.nrTypes ≠ 0 ∧
      (st.btf.startId + BitVec.ofNat 32 st.btf.nrTypes).toInt < 0

section
variable {st st' : BtfState} {v : StrView} {vs : List StrView} {srcBtf : Btf}

theorem Kept.refl (h : Forall₂ Btf.Shows st.chain vs) : Kept vs st st :=
  ⟨h, forall₂_frame_refl _, rfl⟩

theorem memFits_true {ok : Bool} {curCnt maxCnt addCnt : Nat}
    (h : memFits ok curCnt maxCnt addCnt = true) : memFits true curCnt maxCnt addCnt = true := by
  simp only [memFits, Bool.or_eq_true, Bool.and_eq_true] at h ⊢
  exact h.imp_right fun h => ⟨h.1, trivial⟩

theorem typeOffsFit_true {ok : Bool} {nrTypes cnt : Nat} (h : typeOffsFit ok nrTypes cnt = true) :
    typeOffsFit true nrTypes cnt = true := by
  unfold typeOffsFit at h ⊢
  split_ifs at h ⊢
  · rfl
  · exact memFits_true h

theorem wp_ensureModifiable_kept (h : Forall₂ Btf.Shows st.chain (v :: vs)) (a : EnsureAlloc) :
    wp (ensureModifiable a)
      (fun _ st' => Kept (v :: vs) st st' ∧ st'.btf.isModifiable = true ∧ v.ready = true)
      (fun e st' => e = .fault ∧ v.ready = false ∨ a ≠ {} ∧ st' = st ∧ e = .err (-ENOMEM)) st := by
  obtain ⟨hbtf, hbase⟩ := forall₂_cons.1 h
  refine wp_get_bind ?_
  rcases hbtf.ensure a with ⟨btf', set, hens, hset, hshows, hframe, hready⟩ | ⟨hready, hens⟩ |
    ⟨e, hens, hne⟩
  · simp only [hens]
    refine ⟨⟨.cons hshows hbase, .cons hframe (forall₂_frame_refl _), rfl⟩, ?_, hready⟩
    rw [isModifiable, hset]
  · simp only [hens]
    exact .inl ⟨rfl, hready⟩
  · simp only [hens]
    exact .inr ⟨hne, rfl, rfl⟩

theorem wp_addTypeMemInt (ok : Bool) (dataSz : U32) : wp (addTypeMemInt ok dataSz)
      (fun _ st' => st' = st ∧ (0 ≤ dataSz.toInt →
        memFits true st.btf.hdr.typeLen.toNat UINT_MAX dataSz.toNat = true))
      (fun e st' => st' = st ∧ (∃ e', e = .err e') ∧ (0 ≤ dataSz.toInt →
        memFits ok st.btf.hdr.typeLen.toNat UINT_MAX dataSz.toNat = false)) st := by
  refine wp_get_bind ?_
  split
  · refine wp_get_bind ?_
    split
    next hfits => exact ⟨rfl, fun _ => memFits_true hfits⟩
    next hfull => exact ⟨rfl, ⟨_, rfl⟩, fun _ => by simpa using hfull⟩
  next hneg =>
    split
    · exact ⟨rfl, fun h => absurd h hneg⟩
    · exact ⟨rfl, ⟨_, rfl⟩, fun h => absurd h hneg⟩

variable {α : Type} {Q : α → BtfState → Prop}

/-- Rolling back changes nothing if the length of the strings is the old one. -/
theorem wp_addBtfRollback_cases {oldStrsLen : U32} {e : Int} (hmod : st.btf.isModifiable = true) :
    wp (addBtfRollback oldStrsLen e) Q (fun e' st' => e' = .err e ∧
      if st.btf.hdr.strLen = oldStrsLen then st' = st else st'.nullWrites ≠ st.nullWrites) st := by
  refine wp_get_bind ?_
  unfold isModifiable at hmod
  cases hstrs : st.btf.strs with
  | data strs => simp [hstrs] at hmod
  | set set =>
    refine wp_set_bind ⟨rfl, ?_⟩
    by_cases hlen : st.btf.hdr.strLen = oldStrsLen
    · subst hlen
      simp
    · have hne : (st.btf.hdr.strLen - oldStrsLen).toNat ≠ 0 := fun hzero => hlen (by bv_omega)
      rw [if_neg hlen, if_neg hne]
      simp

theorem mapOk_init : MapOk [] ⟨some hashmapInit, 0⟩ hashmapInit where
  strOffMap := rfl
  visited := rfl
  wf := wf_hashmapInit _
  sz := le_rfl
  keys := by simp [hashmapInit]

theorem walked_init (h : Forall₂ Btf.Shows st.chain (v :: vs)) (src : List Btf) :
    Walked st src (v :: vs) [] ⟨some hashmapInit, 0⟩ st :=
  ⟨.refl h, by simp [Seen], _, mapOk_init⟩

theorem commit_id (startId : U32) {nrTypes cnt : Nat} {regions : List (List U32)}
    {f : List U32 → List U32} (hcnt : regions.length = cnt) (types : List (List U32))
    (htypes : types.length = nrTypes) :
    startId + BitVec.ofNat 32 (types ++ regions.modify (regions.length - 1) f).length -
      BitVec.ofNat 32 cnt = startId + BitVec.ofNat 32 nrTypes := by
  rw [length_append, length_modify, hcnt, htypes, BitVec.ofNat_add, ← BitVec.add_assoc,
    BitVec.add_sub_cancel]

section
variable (h : List.Forall₂ Btf.Shows st.chain (v :: vs))
include h

theorem seen_congr {offs : List U32} {src : List Btf} (hkept : Kept (v :: vs) st st') :
    Seen st' src offs ↔ Seen st src offs := by
  simp only [Seen, held_congr h hkept]

theorem wp_start (a : CopyAlloc) {Q : Int → BtfState → Prop} {E : BtfStop → BtfState → Prop}
    (hfail : ∀ e st', e = .fault ∨ Kept (v :: vs) st st' →
      ¬(Starts st srcBtf ∧ a = { slot := a.slot }) → E e st')
    (hrest : Starts st srcBtf → ∀ st', Kept (v :: vs) st st' → st'.btf.isModifiable = true →
      wp (do
        let (regions, rest) ← onError
          (addTypes a.slot [srcBtf] (st'.btf.startId + BitVec.ofNat 32 st'.btf.nrTypes - 1)
            srcBtf.nrTypes ⟨some hashmapInit, 0⟩ srcBtf.types.flatten)
          (addBtfRollback st'.btf.hdr.strLen)
        commitTypes srcBtf.hdr.typeLen srcBtf.nrTypes regions rest) Q E st') :
    wp (btfAddBtf a [srcBtf]) Q E st := by
  have hbtf := (forall₂_cons.1 h).1
  refine wp_seq (wp_mono (wp_ensureModifiable_kept h _) (fun _ _ => id) ?_)
    fun _ st₁ ⟨hkept, hmod, hready⟩ => wp_get_bind ?_
  · rintro e st' (⟨rfl, hready⟩ | ⟨hne, rfl, -⟩)
    · refine hfail _ _ (.inl rfl) fun ⟨hstarts, _⟩ => ?_
      rw [← hbtf.ready, hstarts.ready] at hready
      cases hready
    · exact hfail _ _ (.inr (.refl h)) fun ⟨_, ha⟩ => hne (by rw [ha])
  have hframe := (forall₂_cons.1 hkept.frame).1
  refine wp_seq (wp_mono (wp_addTypeMemInt _ _) (fun _ _ => id) ?_) fun _ st₂ ⟨heq, hfits⟩ => ?_
  · rintro e st' ⟨rfl, -, hfull⟩
    refine hfail _ _ (.inr hkept) fun ⟨hstarts, ha⟩ => ?_
    have hfits := hstarts.typeMem
    rw [ha] at hfull
    rw [← hframe.hdr, hfull hstarts.nonneg] at hfits
    cases hfits
  subst heq
  have hcnt : st₂.btf.nrTypes = st.btf.nrTypes := congrArg length hframe.types
  split_ifs with hoffs hmap hsrc
  · refine hfail _ _ (.inr hkept) fun ⟨hstarts, ha⟩ => ?_
    rw [ha, hcnt, hstarts.offsMem] at hoffs
    cases hoffs
  · refine hfail _ _ (.inr hkept) fun ⟨_, ha⟩ => ?_
    rw [ha] at hmap
    cases hmap
  · refine hfail _ _ (.inl rfl) fun ⟨hstarts, _⟩ => ?_
    exact hsrc.elim (not_lt.2 hstarts.nonneg) (not_not.2 hstarts.words)
  · rw [not_or, not_lt, not_not] at hsrc
    refine hrest ⟨hbtf.ready.trans hready, hsrc.1, ?_, ?_, hsrc.2⟩ st₂ hkept hmod
    · rw [← hframe.hdr]
      exact hfits hsrc.1
    · exact typeOffsFit_true (by simpa [hcnt] using hoffs)

theorem wp_btfAddBtf_kept (a : CopyAlloc)
    (hstore : ¬MayStore st [srcBtf]) (hid : ¬WrapsId st [srcBtf]) :
    wp (btfAddBtf a [srcBtf]) (fun _ _ => True)
      (fun e st' => e = .fault ∨ Kept (v :: vs) st st') st := by
  refine wp_start h a (fun _ _ hor _ => hor) fun hstarts st₁ hkept hmod => ?_
  refine wp_seq (wp_onError (wp_addTypes_walk (I := Walked st₁ [srcBtf] (v :: vs))
    (E := fun e st' => e = .fault ∨ Kept (v :: vs) st₁ st') ?_ _ _
    (fun _ p st' hwalked => ⟨.inr hwalked.kept, .inl rfl⟩) rfl (walked_init hkept.shows _))
    (fun _ _ => .inl rfl) ?_) fun r st₂ ⟨hcnt, hwalk, p', hwalked⟩ => ?_
  · intro pre off post hsplit p st' hwalked
    refine wp_btfRewriteStr_walk hkept.shows hwalked fun s hzero hstr hgrows => ?_
    exact hstore ⟨srcBtf, rfl, hstarts, pre, off, post, s, hsplit,
      (seen_congr h hkept).1 hwalked.seen, hzero, hstr, (grows_congr h hkept s).1 hgrows⟩
  · rintro e st' (hfault | hkept')
    · cases hfault
    · have hmod' := (forall₂_cons.1 hkept'.frame).1.modifiable hmod
      refine wp_mono (wp_addBtfRollback_cases hmod') (fun _ _ => id) ?_
      rintro e' st'' ⟨-, hsame⟩
      rw [if_pos hkept'.strLen] at hsame
      exact .inr (hsame ▸ hkept.trans hkept')
  · have hkept₂ := hkept.trans hwalked.kept
    have hframe := (forall₂_cons.1 hkept₂.frame).1
    refine wp_get_bind (wp_set_bind ?_)
    rw [nrTypes, commit_id _ hcnt _ rfl]
    unfold wp
    rw [run_retInt]
    split_ifs with hneg
    · -- a negative id is returned only if there was no type to add
      have hzero : srcBtf.nrTypes = 0 := by
        by_contra hne
        refine hid ⟨srcBtf, rfl, hstarts, (seen_congr h hkept).1 hwalked.seen, hwalk, hne, ?_⟩
        rwa [hframe.startId, hframe.types] at hneg
      have hregions : r.1 = [] := length_eq_zero_iff.1 (hcnt.trans hzero)
      have hdataSz : srcBtf.hdr.typeLen.toNat = 0 := by
        have htypes : srcBtf.types = [] := length_eq_zero_iff.1 hzero
        rw [← hstarts.words, htypes]
        rfl
      have hgrow : st₂.btf.hdr.grow srcBtf.hdr.typeLen.toNat = st₂.btf.hdr := by
        rw [hdataSz]
        simp [BtfHeader.grow]
      rw [hregions, hgrow]
      simp only [modify_nil, append_nil]
      exact .inr hkept₂
    · trivial

theorem wp_addTypes_grows {pre post : List U32}
    {off : U32} {s : CStr} (hoffs : srcBtf.strOffs = pre ++ off :: post)
    (hlen : srcBtf.types.flatten.length ≤ 2 ^ 32) (hseen : Seen st [srcBtf] pre) (hzero : off ≠ 0)
    (hstr : btfStrByOffset [srcBtf] off.toNat = some s) (hgrows : Grows st s) (delta : U32) :
    wp (addTypes (fun i => if i = pre.length then { append := ⟨false, false⟩ } else {}) [srcBtf]
        delta srcBtf.nrTypes ⟨some hashmapInit, 0⟩ srcBtf.types.flatten) (fun _ _ => False)
      (fun e st' => (∃ e', e = .err e') ∧ Grown st st') st := by
  have hle : srcBtf.strOffs.length ≤ 2 ^ 32 := (length_strOffs _ _).trans hlen
  have hlong : ¬srcBtf.strOffs.length ≤ pre.length := by
    rw [hoffs, length_append, length_cons]
    omega
  refine wp_imp (wp_addTypes_walk (I := fun offs p st' =>
    Walked st [srcBtf] (v :: vs) offs p st' ∧ offs.length ≤ pre.length) ?_ delta _
    (fun _ p st' hI => absurd hI.2 hlong) rfl ⟨walked_init h _, Nat.zero_le _⟩)
    fun r st' ⟨_, _, p', hI⟩ => hlong hI.2
  rintro pre' off' post' hoffs' p st' ⟨hwalked, hlen'⟩
  obtain ⟨map, hmap⟩ := hwalked.map
  have hsplit := hoffs.symm.trans hoffs'
  rcases Nat.lt_or_eq_of_le hlen' with hlt | heq
  · have hmem : off' ∈ pre := by
      have hleft : (pre ++ off :: post)[pre'.length]? = pre[pre'.length]? :=
        getElem?_append_left hlt
      rw [hsplit, getElem?_append_right le_rfl, Nat.sub_self] at hleft
      exact mem_of_getElem? hleft.symm
    have hlen₂ : pre'.length ≤ 2 ^ 32 := by
      rw [hoffs] at hle
      simp only [length_append, length_cons] at hle
      omega
    refine wp_imp (wp_btfRewriteStr_held h hwalked ?_ hlen₂ (hseen off' hmem))
      fun r st'' hwalked' => ⟨hwalked', ?_⟩
    · rw [hmap.visited, if_neg (by omega)]
    · rw [length_append, length_singleton]
      omega
  · obtain ⟨rfl, htail⟩ := append_inj hsplit heq.symm
    obtain ⟨rfl, -⟩ := cons.inj htail
    refine wp_imp (wp_btfRewriteStr_grows h hwalked ?_ hzero hstr hgrows) fun _ _ => False.elim
    rw [hmap.visited, if_pos rfl]

theorem wp_btfAddBtf_grows (hstore : MayStore st [srcBtf]) :
    ∃ a, wp (btfAddBtf a [srcBtf]) (fun _ _ => False)
      (fun e st' => (∃ e', e = .err e') ∧ st'.nullWrites ≠ st.nullWrites) st := by
  obtain ⟨srcBtf', heq, hstarts, pre, off, post, s, hoffs, hseen, hzero, hstr, hgrows⟩ := hstore
  obtain ⟨rfl, -⟩ := cons.inj heq
  refine ⟨{ slot := fun i => if i = pre.length then { append := ⟨false, false⟩ } else {} },
    wp_start h _ (fun _ _ _ hno => absurd ⟨hstarts, rfl⟩ hno) fun _ st₁ hkept hmod => ?_⟩
  have hlen : srcBtf.types.flatten.length ≤ 2 ^ 32 := by
    have hwords := hstarts.words
    omega
  have hloop := wp_addTypes_grows hkept.shows hoffs hlen ((seen_congr h hkept).2 hseen) hzero hstr
    ((grows_congr h hkept s).2 hgrows) (st₁.btf.startId + BitVec.ofNat 32 st₁.btf.nrTypes - 1)
  refine wp_seq (wp_onError hloop ?_ ?_) fun _ _ => False.elim
  · rintro st' ⟨⟨e', he'⟩, -⟩
    cases he'
  rintro e st' ⟨-, hgrown⟩
  refine wp_mono (wp_addBtfRollback_cases hgrown.modifiable) (fun _ _ => id) ?_
  rintro e' st'' ⟨herr, hwrites⟩
  rw [if_neg hgrown.strLen, hgrown.nullWrites, hkept.nullWrites] at hwrites
  exact ⟨⟨e, herr⟩, hwrites⟩

theorem wp_btfAddBtf_wraps (hid : WrapsId st [srcBtf]) :
    wp (btfAddBtf {} [srcBtf]) (fun _ _ => False)
      (fun e st' => (∃ e', e = .err e') ∧ st'.btf.typeCnt ≠ st.btf.typeCnt) st := by
  obtain ⟨srcBtf', heq, hstarts, hseen, hwalk, hne, hneg⟩ := hid
  obtain ⟨rfl, -⟩ := cons.inj heq
  refine wp_start h _ (fun _ _ _ hno => absurd ⟨hstarts, rfl⟩ hno) fun _ st₁ hkept hmod => ?_
  have hlen : srcBtf.strOffs.length ≤ 2 ^ 32 := by
    have hle : srcBtf.strOffs.length ≤ srcBtf.types.flatten.length := length_strOffs _ _
    have hwords := hstarts.words
    omega
  refine wp_seq (wp_onError (wp_addTypes_walk (I := Walked st₁ [srcBtf] (v :: vs))
    (E := fun _ _ => False) ?_ _ _ (fun hnone => absurd hnone hwalk) rfl
    (walked_init hkept.shows _))
    (fun _ => False.elim) fun _ _ => False.elim) fun r st₃ ⟨hcnt, _, p', hwalked⟩ => ?_
  · intro pre off post hsplit p st' hwalked
    have hsplit' : srcBtf.strOffs = pre ++ off :: post := hsplit
    refine wp_btfRewriteStr_held hkept.shows hwalked rfl ?_
      ((seen_congr h hkept).2 hseen off (by rw [hsplit']; simp))
    rw [hsplit'] at hlen
    simp only [length_append, length_cons] at hlen
    omega
  have hframe₃ := (forall₂_cons.1 (hkept.trans hwalked.kept).frame).1
  refine wp_get_bind (wp_set_bind ?_)
  dsimp only
  rw [nrTypes, commit_id _ hcnt _ rfl]
  rw [nrTypes] at hneg
  unfold wp
  rw [run_retInt, hframe₃.startId, hframe₃.types, if_pos hneg]
  refine ⟨⟨_, rfl⟩, ?_⟩
  simp only [typeCnt, nrTypes, length_append, length_modify, hcnt] at hne ⊢
  omega

end

end

theorem exists_views (h : ∀ btf ∈ st.chain, ∃ v, btf.Shows v) :
    ∃ v vs, Forall₂ Btf.Shows st.chain (v :: vs) := by
  have hall : ∀ chain : List Btf, (∀ btf ∈ chain, ∃ v, btf.Shows v) →
      ∃ vs, Forall₂ Btf.Shows chain vs := by
    intro chain
    induction chain with
    | nil => exact fun _ => ⟨[], .nil⟩
    | cons btf chain ih =>
      intro h
      obtain ⟨v, hv⟩ := h btf mem_cons_self
      obtain ⟨vs, hvs⟩ := ih fun btf' hmem => h btf' (mem_cons_of_mem _ hmem)
      exact ⟨v :: vs, .cons hv hvs⟩
  obtain ⟨v, hv⟩ := h st.btf mem_cons_self
  obtain ⟨vs, hvs⟩ := hall st.base fun btf hmem => h btf (mem_cons_of_mem _ hmem)
  exact ⟨v, vs, .cons hv hvs⟩

/-- A failed `btf__add_btf` leaves the destination as it was, whatever the allocator answers, if and
only if the call cannot append a string to the destination and cannot return a negative id. -/
theorem btfAddBtf_restores_iff {st : BtfState} (h : ∀ btf ∈ st.chain, ∃ v, btf.Shows v)
    (src : List Btf) :
    (∀ a e st', btfAddBtf a src st = .error (.err e) st' → Restored st st') ↔
      ¬MayStore st src ∧ ¬WrapsId st src := by
  obtain ⟨v, vs, hviews⟩ := exists_views h
  match src with
  | [] => simp [btfAddBtf, MayStore, WrapsId, throw, throwThe, MonadExceptOf.throw, EStateM.throw]
  | _ :: _ :: _ =>
    refine iff_of_true ?_ (by simp [MayStore, WrapsId])
    rintro a e st' hrun
    cases hrun
    exact (Kept.refl hviews).restored hviews
  | [srcBtf] =>
    constructor
    · intro hall
      refine ⟨fun hstore => ?_, fun hid => ?_⟩
      · obtain ⟨a, hwp⟩ := wp_btfAddBtf_grows hviews hstore
        obtain ⟨_, st', hrun, ⟨e, rfl⟩, hwrites⟩ := exists_error_of_wp hwp
        exact hwrites (hall a e st' hrun).writes
      · obtain ⟨_, st', hrun, ⟨e, rfl⟩, hcnt⟩ :=
          exists_error_of_wp (wp_btfAddBtf_wraps hviews hid)
        exact hcnt (hall {} e st' hrun).typeCnt
    · rintro ⟨hstore, hid⟩ a e st' hrun
      rcases wp_error (wp_btfAddBtf_kept hviews a hstore hid) hrun with hfault | hkept
      · cases hfault
      · exact hkept.restored hviews

/-- Objects that were parsed, and extended by any calls that succeeded, are covered. -/
theorem Btf.WF.exists_shows {btf : Btf} (h : btf.WF) : ∃ v, btf.Shows v := by
  have hstrs := h.strs
  unfold StrsOk at hstrs
  cases hs : btf.strs with
  | data strs =>
    simp only [hs] at hstrs
    obtain ⟨hlen, hparse⟩ := hstrs
    obtain ⟨-, hlimit, hlast, -⟩ := btfParseStrSec_iff.1 hparse
    refine ⟨⟨.ofText strs, btf.startStrOff, btf.ready⟩, rfl, rfl, ?_, hlen.symm.le, hlimit⟩
    rw [hs]
    exact ⟨.inr hlast, rfl⟩
  | set set =>
    simp only [hs] at hstrs
    obtain ⟨hlen, hmax, t, hshows, hparse⟩ := hstrs
    obtain ⟨-, hlimit, -, -⟩ := btfParseStrSec_iff.1 hparse
    refine ⟨⟨t, btf.startStrOff, btf.ready⟩, rfl, rfl, ?_, ?_, hlimit⟩
    · rw [hs]
      exact ⟨hshows, hmax⟩
    · rw [hshows.length_text, hlen]

/-- The destination has the only name of the source. -/
theorem btfAddBtf_restores_iff_sample : ∃ btf, btfNew structBlob 39 = .ok btf ∧ btf.nrTypes = 1 ∧
    ∀ a e st', btfAddBtf a [btf] ⟨btf, [], []⟩ = .error (.err e) st' →
      Restored ⟨btf, [], []⟩ st' := by
  obtain ⟨btf, hnew⟩ : ∃ btf, btfNew structBlob 39 = .ok btf := ⟨_, rfl⟩
  have hheld : btf.nrTypes = 1 ∧ btf.startId = 1 ∧ btf.strOffs = [1] ∧
      Held ⟨btf, [], []⟩ ⟨[120], by decide⟩ ∧
      (btfStrByOffset [btf] 1).map (·.bytes) = some [120] := by
    obtain rfl := Except.ok.inj hnew
    exact ⟨rfl, rfl, rfl, ⟨1, _, rfl, rfl⟩, rfl⟩
  obtain ⟨hcnt, hstart, hoffs, hheld, hstr⟩ := hheld
  refine ⟨btf, hnew, hcnt, (btfAddBtf_restores_iff ?_ [btf]).2 ⟨?_, ?_⟩⟩
  · intro btf' hmem
    obtain rfl : btf' = btf := by simpa [BtfState.chain] using hmem
    obtain ⟨-, hdr, swapped, types, hacc, rfl⟩ := btfNew_eq_ok.1 hnew
    exact hacc.wf.1.exists_shows
  · rintro ⟨srcBtf, hsrc, -, pre, off, post, s, hoffs', -, -, hs, hgrows⟩
    obtain ⟨rfl, -⟩ := List.cons.inj hsrc
    obtain rfl : off = 1 := by
      have hmem : off ∈ btf.strOffs := by simp [hoffs']
      simpa [hoffs] using hmem
    rw [show (1 : U32).toNat = 1 from rfl] at hs
    rw [hs] at hstr
    have hname : s = ⟨[120], by decide⟩ := CStr.bytes_injective (Option.some.inj hstr)
    exact not_grows_of_held hheld (hname ▸ hgrows)
  · rintro ⟨srcBtf, hsrc, -, -, -, -, hneg⟩
    simp only [hcnt, hstart] at hneg
    exact absurd hneg (by decide)

/-- The entry for the name in the offset map is refused after the name was stored: the name is found
afterwards, and two bytes are cleared at an address near `NULL`. -/
theorem btfAddBtf_leaves_string : ∃ dst src st',
    btfNew (paddedBlob false 0) 25 = .ok dst ∧ btfNew structBlob 39 = .ok src ∧
    btfAddBtf { slot := fun _ => { append := ⟨false, false⟩ } } [src] ⟨dst, [], []⟩ =
      .error (.err (-ENOMEM)) st' ∧
    (btfFindStr granted (some ⟨[120], by decide⟩) [dst]).map Prod.fst = .ok (-ENOENT) ∧
    (btfFindStr granted (some ⟨[120], by decide⟩) st'.chain).map Prod.fst = .ok 1 ∧
    st'.nullWrites = [(1, 2)] ∧ ¬Restored ⟨dst, [], []⟩ st' := by
  refine ⟨_, _, _, rfl, rfl, rfl, rfl, rfl, rfl, ?_⟩
  intro h
  exact absurd h.writes (by decide)

end LinuxKernel.Bpf
