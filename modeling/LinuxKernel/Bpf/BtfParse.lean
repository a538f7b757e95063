import LinuxKernel.Bpf.BtfAddSpec

/-!
# What the parser accepts

The header, the type section and the whole of a BTF blob, each with what is known once it was
accepted; and the converse for the type section, whose records are laid out one after the other.
-/

namespace LinuxKernel.Bpf

open Foundation List Except

/-! ## Header -/

def fileHdr (swapped : Bool) (hdr : BtfHeader) : BtfHeader :=
  if swapped then btfBswapHdr hdr else hdr

theorem BtfHeader.length_bytes (hdr : BtfHeader) : hdr.bytes.length = btfHeaderSize := rfl

theorem BtfHeader.read_bytes_append (hdr : BtfHeader) (rest : List Byte) :
    BtfHeader.read (hdr.bytes ++ rest) = some hdr := by
  have hfields : (ofWords [hdr.hdrLen, hdr.typeOff, hdr.typeLen, hdr.strOff, hdr.strLen] ++
      rest).take 20 = ofWords [hdr.hdrLen, hdr.typeOff, hdr.typeLen, hdr.strOff, hdr.strLen] :=
    take_left' rfl
  simp only [BtfHeader.bytes, halfBytes, cons_append, nil_append, BtfHeader.read, hfields,
    toWords_ofWords, bytesHalf_halfBytes]

variable {raw : List Byte} {hdr : BtfHeader}

theorem BtfHeader.le_length_of_read
    (h : BtfHeader.read raw = some hdr) : btfHeaderSize ≤ raw.length := by
  match raw with
  | [] | [_] | [_, _] | [_, _, _] => cases h
  | m₀ :: m₁ :: version :: flags :: rest =>
    rw [BtfHeader.read] at h
    split at h
    next hwords =>
      have hlen := congrArg length hwords
      rw [length_toWords, length_take] at hlen
      simp only [length_cons, length_nil, btfHeaderSize] at hlen ⊢
      omega
    · cases h

@[simp] theorem btfBswapHdr_btfBswapHdr (hdr : BtfHeader) :
    btfBswapHdr (btfBswapHdr hdr) = hdr := by
  simp [btfBswapHdr]

theorem btfLayoutOk_iff {rawSize : Nat} :
    btfLayoutOk rawSize hdr = true ↔ hdr.hdrLen.toNat ≤ rawSize ∧
      hdr.strOff.toNat + hdr.strLen.toNat ≤ rawSize - hdr.hdrLen.toNat ∧
      hdr.typeOff.toNat + hdr.typeLen.toNat ≤ hdr.strOff.toNat ∧ hdr.typeOff.toNat % 4 = 0 := by
  simp only [btfLayoutOk, Bool.and_eq_true, decide_eq_true_eq, and_assoc]

variable {swapped : Bool}

theorem btfParseHdr_eq_ok : btfParseHdr raw = .ok (hdr, swapped) ↔
      BtfHeader.read raw = some (fileHdr swapped hdr) ∧ hdr.magic = BTF_MAGIC ∧
        (swapped = true → hdr.hdrLen.toNat = btfHeaderSize) ∧
        btfLayoutOk raw.length hdr = true := by
  have hmagic : bswap16 BTF_MAGIC ≠ BTF_MAGIC := by decide
  unfold btfParseHdr fileHdr
  constructor
  · intro hok
    cases hread : BtfHeader.read raw with
    | none => simp [hread] at hok
    | some h =>
      simp only [hread] at hok
      split_ifs at hok with hswap hlen hlayout hnative hlayout
      · obtain ⟨rfl, rfl⟩ := Prod.mk.injEq .. ▸ ok.inj hok
        refine ⟨by simp, ?_, fun _ => not_not.1 hlen, hlayout⟩
        show bswap16 h.magic = BTF_MAGIC
        rw [hswap, bswap16_bswap16]
      · obtain ⟨rfl, rfl⟩ := Prod.mk.injEq .. ▸ ok.inj hok
        exact ⟨by simp, not_not.1 hnative, by simp, hlayout⟩
  · rintro ⟨hread, hmag, hlen, hlayout⟩
    cases swapped with
    | true =>
      have hswap : (btfBswapHdr hdr).magic = bswap16 BTF_MAGIC := congrArg bswap16 hmag
      have hlen' : bswap32 (btfBswapHdr hdr).hdrLen = hdr.hdrLen := bswap32_bswap32 _
      simp only [hread, hswap, if_true, hlen', hlen rfl, ne_eq, not_true_eq_false, if_false,
        btfBswapHdr_btfBswapHdr, hlayout]
    | false =>
      simp only [Bool.false_eq_true, if_false] at hread
      simp only [hread, hmag, if_neg hmagic.symm, ne_eq, not_true_eq_false, if_false, hlayout,
        if_true]

/-! ## Types -/

@[simp] theorem nativeWord_nativeWord (swapped : Bool) (w : U32) :
    nativeWord swapped (nativeWord swapped w) = w := by
  cases swapped
  · rfl
  · exact bswap32_bswap32 w

@[simp] theorem map_nativeWord_map_nativeWord (swapped : Bool) (ws : List U32) :
    (ws.map (nativeWord swapped)).map (nativeWord swapped) = ws := by
  rw [map_map]
  exact map_id'' (nativeWord_nativeWord swapped) ws

variable {types : List (List U32)}

theorem btfParseTypeSec_ok {n : Nat} {ws : List U32}
    (h : btfParseTypeSec swapped n ws = .ok types) :
    (∀ region ∈ types, PackedRegion region) ∧ types.flatten = ws.map (nativeWord swapped) := by
  induction n generalizing ws types with
  | zero =>
    match ws with
    | [] =>
      obtain rfl : [] = types := ok.inj h
      simp
    | w :: ws =>
      rw [btfParseTypeSec] at h
      · cases h
      · simp
      · simp
  | succ n ih =>
    match ws with
    | [] =>
      obtain rfl : [] = types := ok.inj h
      simp
    | [_] => cases h
    | [_, _] => cases h
    | nameOff :: info :: size :: rest =>
      rw [btfParseTypeSec] at h
      cases hk : btfExtraWords (nativeWord swapped info) with
      | none => simp [hk] at h
      | some k =>
        simp only [hk] at h
        split_ifs at h with hshort
        cases hrec : btfParseTypeSec swapped n (rest.drop k) with
        | error e => simp [hrec] at h
        | ok types' =>
          simp only [hrec, ok.injEq] at h
          subst h
          obtain ⟨hpacked, hflat⟩ := ih hrec
          refine ⟨?_, ?_⟩
          · intro region hregion
            rcases mem_cons.1 hregion with rfl | hregion
            · refine packedRegion_cons.2 ?_
              rw [hk, length_map, length_take, Nat.min_eq_left (by omega)]
            · exact hpacked region hregion
          · rw [flatten_cons, hflat, ← map_append, cons_append,
              cons_append, cons_append, take_append_drop]

theorem PackedRegion.exists_cons {region : List U32} (h : PackedRegion region) :
    ∃ nameOff info size rest, region = nameOff :: info :: size :: rest ∧
      btfExtraWords info = some rest.length := by
  obtain ⟨t, ht, -⟩ := id h
  obtain ⟨rest, k, rfl, -⟩ := recordOf_eq_some ht
  exact ⟨_, _, _, rest, rfl, packedRegion_cons.1 h⟩

theorem btfParseTypeSec_packed (swapped : Bool) {n : Nat}
    (hpacked : ∀ region ∈ types, PackedRegion region) (hn : types.length ≤ n) :
    btfParseTypeSec swapped n (types.flatten.map (nativeWord swapped)) = .ok types := by
  induction types generalizing n with
  | nil => cases n <;> rfl
  | cons region types ih =>
    obtain ⟨n, rfl⟩ : ∃ m, n = m + 1 := ⟨n - 1, by simp only [length_cons] at hn; omega⟩
    obtain ⟨nameOff, info, size, rest, rfl, hwords⟩ :=
      (hpacked region (by simp)).exists_cons
    have hrec := @ih n (fun r hr => hpacked r (by simp [hr])) (by simpa using hn)
    have hlen : (rest.map (nativeWord swapped)).length = rest.length := length_map _
    simp only [flatten_cons, map_append, map_cons, cons_append,
      btfParseTypeSec, nativeWord_nativeWord, hwords]
    rw [if_neg (by simp), drop_left' hlen, hrec, take_left' hlen, map_nativeWord_map_nativeWord]

theorem length_le_length_flatten
    (hpacked : ∀ region ∈ types, PackedRegion region) : types.length ≤ types.flatten.length := by
  induction types with
  | nil => exact le_rfl
  | cons region types ih =>
    obtain ⟨_, _, _, _, rfl, -⟩ := (hpacked region (by simp)).exists_cons
    have hrest := ih fun r hr => hpacked r (by simp [hr])
    simp only [length_cons, flatten_cons, length_append]
    omega

/-! ## The whole blob -/

theorem length_slice {α : Type} {l : List α} {off len : Nat} (h : off + len ≤ l.length) :
    (slice l off len).length = len := by
  rw [slice, length_take, length_drop]
  omega

structure Accepted (raw : List Byte) (hdr : BtfHeader) (swapped : Bool)
    (types : List (List U32)) : Prop where
  parseHdr : btfParseHdr raw = .ok (hdr, swapped)
  strs : btfParseStrSec (slice raw (hdr.hdrLen.toNat + hdr.strOff.toNat) hdr.strLen.toNat) = true
  whole : hdr.typeLen.toNat % 4 = 0
  packed : ∀ region ∈ types, PackedRegion region
  words : types.flatten = (toWords (slice raw (hdr.hdrLen.toNat + hdr.typeOff.toNat)
    hdr.typeLen.toNat)).map (nativeWord swapped)

theorem btfNew_eq_ok {data : List Byte} {size : U32} {btf : Btf} :
    btfNew data size = .ok btf ↔ size.toNat ≤ data.length ∧ ∃ hdr swapped types,
      Accepted (data.take size.toNat) hdr swapped types ∧
        btf = parsedBtf (data.take size.toNat) size hdr swapped types := by
  unfold btfNew
  constructor
  · intro hok
    split_ifs at hok with hshort
    refine ⟨Nat.not_lt.1 hshort, ?_⟩
    cases hhdr : btfParseHdr (data.take size.toNat) with
    | error e => simp [hhdr] at hok
    | ok r =>
      obtain ⟨hdr, swapped⟩ := r
      simp only [hhdr] at hok
      generalize htypes : btfParseTypeSec swapped _ _ = parsed at hok
      cases parsed with
      | error e =>
        split_ifs at hok
      | ok types =>
        split_ifs at hok with hstrs hwhole
        obtain ⟨hpacked, hflat⟩ := btfParseTypeSec_ok htypes
        refine ⟨hdr, swapped, types, ⟨hhdr, by simpa using hstrs, not_not.1 hwhole, hpacked,
          hflat⟩, (ok.inj hok).symm⟩
  · rintro ⟨hlen, hdr, swapped, types, h, rfl⟩
    have htypes := btfParseTypeSec_packed swapped h.packed (length_le_length_flatten h.packed)
    have hcnt := congrArg length h.words
    rw [length_map] at hcnt
    rw [if_neg (Nat.not_lt.2 hlen)]
    simp only [h.parseHdr, h.strs, Bool.not_true, Bool.false_eq_true, if_false, h.whole, ne_eq,
      not_true_eq_false]
    rw [hcnt, h.words, map_nativeWord_map_nativeWord] at htypes
    rw [htypes]

theorem Accepted.wf {size : U32} (h : Accepted raw hdr swapped types) :
    (parsedBtf raw size hdr swapped types).WF ∧ (parsedBtf raw size hdr swapped types).Packed := by
  obtain ⟨hread, hmagic, hswapped, hlayout⟩ := btfParseHdr_eq_ok.1 h.parseHdr
  obtain ⟨hhdrLen, hstrOff, htypeOff, -⟩ := btfLayoutOk_iff.1 hlayout
  refine ⟨{
    magic := hmagic
    startId := rfl
    startStrOff := rfl
    typeLen := ?_
    records := fun region hregion => (h.packed region hregion).isSome
    strs := ⟨length_slice (by omega), h.strs⟩
    swapped := hswapped
    hdrRest := ?_
    modifiable := fun hmod => absurd hmod (by simp [Btf.isModifiable, parsedBtf]) }, h.packed⟩
  · show hdr.typeLen.toNat = 4 * types.flatten.length
    have hwhole := h.whole
    rw [h.words, length_map, length_toWords, length_slice (by omega)]
    omega
  · show (slice raw btfHeaderSize (hdr.hdrLen.toNat - btfHeaderSize)).length = _
    have hlen := BtfHeader.le_length_of_read hread
    rw [length_slice]
    · rfl
    · omega

end LinuxKernel.Bpf
