import LinuxKernel.Bpf.BtfAddCalls
import LinuxKernel.Bpf.BtfParse

/-!
# Serialising and parsing again

`btf__raw_data` returns the bytes it was given as long as nothing was added and no byte order has to
be changed. Otherwise it puts header, types and strings next to each other, but writes the header
with the section offsets of the blob that was parsed.
-/

namespace LinuxKernel.Bpf

open Foundation List Nat Option Btf

/-- The bytes of the object are accepted by the parser, and the new object has the same number of
types, the same record under each id and the same string under each offset that is in use. -/
def RoundTrips (btf : Btf) : Prop :=
  ∃ data size cached btf', btfRawData true btf = .ok ((data, size), cached) ∧
    btfNew data size = .ok btf' ∧ btf'.nrTypes = btf.nrTypes ∧
    (∀ id, btfTypeById [btf'] id = btfTypeById [btf] id) ∧
    ∀ off s, btfStrByOffset [btf] off = some s → btfStrByOffset [btf'] off = some s

/-! ## The bytes -/

variable {region : List U32}

theorem bswapRegion_spec (h : (recordOf region).isSome) :
    ∃ ws, bswapRegion region = .ok ws ∧ ws.length = region.length ∧
      (PackedRegion region → ws = region.map bswap32) := by
  obtain ⟨t, ht⟩ := isSome_iff_exists.1 h
  obtain ⟨rest, k, rfl, hk, hfit, -⟩ := recordOf_eq_some ht
  refine ⟨(t.nameOff :: t.info :: t.size :: rest.take k).map bswap32 ++ rest.drop k, ?_, ?_, ?_⟩
  · simp only [bswapRegion, hk, if_neg (not_lt.2 hfit)]
  · simp only [length_append, length_map, length_cons, length_take, length_drop]
    omega
  · intro hpacked
    obtain rfl : k = rest.length := some.inj (hk.symm.trans (packedRegion_cons.1 hpacked))
    rw [take_length, drop_length, append_nil]

variable {types : List (List U32)}

theorem typesToCopy_spec (swapped : Bool) (h : ∀ region ∈ types, (recordOf region).isSome) :
    ∃ ws, typesToCopy swapped types = .ok ws ∧ ws.length = types.flatten.length ∧
      ((∀ region ∈ types, PackedRegion region) → ws = types.flatten.map (nativeWord swapped)) := by
  cases swapped with
  | false => exact ⟨types.flatten, rfl, rfl, fun _ => (map_id'' (fun _ => rfl) _).symm⟩
  | true =>
    suffices hmap : ∃ regions, types.mapM bswapRegion = .ok regions ∧
        regions.flatten.length = types.flatten.length ∧
        ((∀ region ∈ types, PackedRegion region) → regions.flatten = types.flatten.map bswap32) by
      obtain ⟨regions, hmap, hlen, heq⟩ := hmap
      refine ⟨regions.flatten, ?_, hlen, heq⟩
      simp only [typesToCopy, if_true, hmap]
      rfl
    induction types with
    | nil => exact ⟨[], rfl, rfl, fun _ => rfl⟩
    | cons region types ih =>
      obtain ⟨ws, hws, hlen, heq⟩ := bswapRegion_spec (h region (by simp))
      obtain ⟨regions, hmap, hlen', heq'⟩ := ih fun r hr => h r (by simp [hr])
      refine ⟨ws :: regions, ?_, ?_, ?_⟩
      · rw [mapM_cons, hws, hmap]
        rfl
      · simp only [flatten_cons, length_append, hlen, hlen']
      · intro hpacked
        rw [flatten_cons, flatten_cons, map_append,
          heq (hpacked region (by simp)), heq' fun r hr => hpacked r (by simp [hr])]

def image (btf : Btf) (words : List U32) : List Byte :=
  ((fileHdr btf.swappedEndian btf.hdr).bytes ++ btf.hdrRest) ++
    (ofWords words ++ btf.strsData.take btf.hdr.strLen.toNat)

def Btf.total (btf : Btf) : Nat :=
  btf.hdr.hdrLen.toNat + btf.hdr.typeLen.toNat + btf.hdr.strLen.toNat

structure Btf.Uncached (btf : Btf) : Prop where
  wf : btf.WF
  none : (if btf.swappedEndian then btf.rawDataSwapped else btf.rawData) = none
  hdrLen : btfHeaderSize ≤ btf.hdr.hdrLen.toNat

section
variable {btf : Btf} {words : List U32}

theorem Btf.Uncached.length_hdr (h : btf.Uncached) :
    ((fileHdr btf.swappedEndian btf.hdr).bytes ++ btf.hdrRest).length = btf.hdr.hdrLen.toNat := by
  have hlen := h.hdrLen
  rw [length_append, BtfHeader.length_bytes, h.wf.hdrRest]
  omega

theorem Btf.Uncached.length_words (h : btf.Uncached)
    (hwords : words.length = btf.types.flatten.length) :
    (ofWords words).length = btf.hdr.typeLen.toNat := by
  rw [length_ofWords, hwords, h.wf.typeLen]

theorem Btf.Uncached.length_strs (h : btf.Uncached) :
    (btf.strsData.take btf.hdr.strLen.toNat).length = btf.hdr.strLen.toNat := by
  rw [length_take, min_eq_left h.wf.strsData_take.1]

theorem Btf.Uncached.length_image (h : btf.Uncached)
    (hwords : words.length = btf.types.flatten.length) : (image btf words).length = btf.total := by
  rw [image, length_append, h.length_hdr, length_append, h.length_words hwords,
    h.length_strs, total]
  omega

theorem Btf.toNat_dataSz :
    (btf.hdr.hdrLen + btf.hdr.typeLen + btf.hdr.strLen).toNat = btf.total % 2 ^ 32 := by
  rw [total, BitVec.toNat_add, BitVec.toNat_add]
  omega

theorem readBytes_take {n : Nat} {src : List Byte} (h : n ≤ src.length) :
    readBytes n src = .ok (src.take n) := if_pos h

theorem Btf.Uncached.btfRawData_eq (h : btf.Uncached) (hsize : btf.total < 2 ^ 32)
    (hcopy : typesToCopy btf.swappedEndian btf.types = .ok words)
    (hwords : words.length = btf.types.flatten.length) : ∃ cached, btfRawData true btf =
      .ok ((image btf words, btf.hdr.hdrLen + btf.hdr.typeLen + btf.hdr.strLen), cached) := by
  have hget : btfGetRawData true btf btf.swappedEndian =
      .ok (image btf words, btf.hdr.hdrLen + btf.hdr.typeLen + btf.hdr.strLen) := by
    have hhdr := readBytes_take (le_of_eq h.length_hdr.symm)
    have htypes := readBytes_take (le_of_eq (h.length_words hwords).symm)
    have hstrs := readBytes_take h.wf.strsData_take.1
    rw [take_of_length_le (le_of_eq h.length_hdr)] at hhdr
    rw [take_of_length_le (le_of_eq (h.length_words hwords))] at htypes
    unfold btfGetRawData
    simp only [h.none, Bool.not_true, Bool.false_eq_true, if_false, toNat_dataSz]
    rw [if_neg (by rw [mod_eq_of_lt hsize]; exact not_not.2 rfl)]
    unfold fileHdr at hhdr
    rw [hhdr, hcopy]
    show (readBytes _ _ >>= fun typesPart => readBytes _ _ >>= fun strsPart => _) = _
    rw [htypes, hstrs]
    simp only [bind, Except.bind, pure, Except.pure, image, fileHdr, append_assoc]
  unfold btfRawData
  rw [hget]
  cases btf.swappedEndian <;> exact ⟨_, rfl⟩

theorem Btf.Uncached.btfRawData_fault (h : btf.Uncached) (hsize : ¬btf.total < 2 ^ 32) :
    btfRawData true btf = .error .fault := by
  have hget : btfGetRawData true btf btf.swappedEndian = .error .fault := by
    have hne : btf.total % 2 ^ 32 ≠ btf.total := by omega
    unfold btfGetRawData
    simp only [h.none, Bool.not_true, Bool.false_eq_true, if_false, toNat_dataSz]
    exact if_pos hne
  unfold btfRawData
  rw [hget]
  rfl

/-! ## Parsing the bytes -/

variable {swapped : Bool} {hdr : BtfHeader}

theorem fileHdr_inj {swapped' : Bool} {hdr' : BtfHeader}
    (h : fileHdr swapped hdr = fileHdr swapped' hdr') (hmagic : hdr.magic = BTF_MAGIC)
    (hmagic' : hdr'.magic = BTF_MAGIC) : swapped = swapped' ∧ hdr = hdr' := by
  have hne : bswap16 BTF_MAGIC ≠ BTF_MAGIC := by decide
  have hswap : ∀ hdr : BtfHeader, hdr.magic = BTF_MAGIC →
      (fileHdr true hdr).magic = bswap16 BTF_MAGIC := fun hdr h => congrArg bswap16 h
  cases swapped <;> cases swapped'
  · exact ⟨rfl, h⟩
  · exact absurd ((hswap hdr' hmagic').symm.trans (h ▸ hmagic)) hne
  · exact absurd ((hswap hdr hmagic).symm.trans (h ▸ hmagic')) hne
  · have hback := congrArg btfBswapHdr h
    exact ⟨rfl, by simpa [fileHdr] using hback⟩

theorem Btf.Uncached.slices (h : btf.Uncached)
    (hwords : words.length = btf.types.flatten.length) (htypeOff : btf.hdr.typeOff = 0)
    (hstrOff : btf.hdr.strOff = btf.hdr.typeLen) :
    slice (image btf words) (btf.hdr.hdrLen.toNat + btf.hdr.typeOff.toNat)
        btf.hdr.typeLen.toNat = ofWords words ∧
      slice (image btf words) (btf.hdr.hdrLen.toNat + btf.hdr.strOff.toNat)
        btf.hdr.strLen.toNat = btf.strsData.take btf.hdr.strLen.toNat := by
  rw [htypeOff, hstrOff, ← h.length_hdr, ← h.length_words hwords, image, slice, slice]
  constructor
  · exact (congrArg (take _) drop_left).trans take_left
  · rw [← append_assoc, drop_left' (length_append ..), take_of_length_le h.length_strs.le]

theorem Btf.Uncached.accepted_iff (h : btf.Uncached)
    (hwords : words.length = btf.types.flatten.length) {types : List (List U32)} :
    Accepted (image btf words) hdr swapped types ↔ hdr = btf.hdr ∧ swapped = btf.swappedEndian ∧
      btf.hdr.typeOff = 0 ∧ btf.hdr.strOff = btf.hdr.typeLen ∧
      (∀ region ∈ types, PackedRegion region) ∧
      types.flatten = words.map (nativeWord btf.swappedEndian) := by
  have hread : BtfHeader.read (image btf words) = some (fileHdr btf.swappedEndian btf.hdr) := by
    exact BtfHeader.read_bytes_append _ _
  have hlayout : btfLayoutOk (image btf words).length btf.hdr = true ↔
      btf.hdr.typeOff = 0 ∧ btf.hdr.strOff = btf.hdr.typeLen := by
    rw [btfLayoutOk_iff, h.length_image hwords, total, ← BitVec.toNat_inj, ← BitVec.toNat_inj]
    show _ ↔ _ = 0 ∧ _
    omega
  constructor
  · intro hacc
    obtain ⟨hread', hmagic, -, hlay⟩ := btfParseHdr_eq_ok.1 hacc.parseHdr
    obtain ⟨rfl, rfl⟩ := fileHdr_inj (some.inj (hread'.symm.trans hread)) hmagic h.wf.magic
    obtain ⟨htypeOff, hstrOff⟩ := hlayout.1 hlay
    refine ⟨rfl, rfl, htypeOff, hstrOff, hacc.packed, ?_⟩
    rw [hacc.words, (h.slices hwords htypeOff hstrOff).1, toWords_ofWords]
  · rintro ⟨rfl, rfl, htypeOff, hstrOff, hpacked, hflat⟩
    obtain ⟨htypes, hstrs⟩ := h.slices hwords htypeOff hstrOff
    exact
      { parseHdr := btfParseHdr_eq_ok.2
          ⟨hread, h.wf.magic, h.wf.swapped, hlayout.2 ⟨htypeOff, hstrOff⟩⟩
        strs := by rw [hstrs]; exact h.wf.strsData_take.2
        whole := by rw [h.wf.typeLen]; omega
        packed := hpacked
        words := by rw [htypes, toWords_ofWords, hflat] }

end

/-! ## Comparing the objects -/

variable {btf : Btf}

theorem btfTypeById_succ (hstart : btf.startId = 1) (i : Nat) :
    btfTypeById [btf] (i + 1) = btf.types[i]?.bind recordOf := by
  have hone : btf.startId.toNat = 1 := congrArg BitVec.toNat hstart
  simp only [btfTypeById, typeCnt, nrTypes, hone]
  by_cases hi : i < btf.types.length
  · rw [if_neg (by omega)]
    rfl
  · rw [if_pos (by omega), getElem?_eq_none (by omega)]
    rfl

theorem btfTypeById_zero (hstart : btf.startId = 1) : btfTypeById [btf] 0 = some btfVoid := by
  have hone : btf.startId.toNat = 1 := congrArg BitVec.toNat hstart
  rw [btfTypeById, typeCnt, if_neg (by omega), if_pos rfl]

theorem length_le_of_recordOf {region' : List U32} (hsome : (recordOf region).isSome)
    (hpacked : PackedRegion region') (heq : recordOf region' = recordOf region) :
    region'.length ≤ region.length ∧ (region'.length = region.length → PackedRegion region) := by
  obtain ⟨t, ht⟩ := isSome_iff_exists.1 hsome
  obtain ⟨t', ht', hwords⟩ := hpacked
  obtain rfl : t' = t := some.inj (ht'.symm.trans (heq.trans ht))
  obtain ⟨rest, k, rfl, hk, hfit, hextra⟩ := recordOf_eq_some ht
  rw [packedRegion_cons, hk, ← hwords]
  simp only [BtfType.words, length_cons, hextra, length_take, min_eq_left hfit, some.injEq]
  omega

theorem packed_of_same_length {types' : List (List U32)}
    (h : Forall₂ (fun region' region => (recordOf region).isSome ∧ PackedRegion region' ∧
      recordOf region' = recordOf region) types' types) :
    types'.flatten.length ≤ types.flatten.length ∧
      (types'.flatten.length = types.flatten.length → ∀ region ∈ types, PackedRegion region) := by
  induction h with
  | nil => simp
  | cons hhead _ ih =>
    obtain ⟨hle, hall⟩ := ih
    obtain ⟨hle', hone⟩ := length_le_of_recordOf hhead.1 hhead.2.1 hhead.2.2
    simp only [flatten_cons, length_append, mem_cons, forall_eq_or_imp]
    refine ⟨by omega, fun hlen => ⟨hone (by omega), hall (by omega)⟩⟩

variable {btf' : Btf}

theorem packed_of_same_types (hwf : btf.WF) (hstart : btf'.startId = 1)
    (hpacked : btf'.Packed) (hcnt : btf'.nrTypes = btf.nrTypes)
    (htypes : ∀ id, btfTypeById [btf'] id = btfTypeById [btf] id)
    (hlen : btf'.types.flatten.length = btf.types.flatten.length) : btf.Packed := by
  refine (packed_of_same_length (forall₂_iff_get.2 ⟨hcnt, fun i hi' hi => ?_⟩)).2 hlen
  have hrec := htypes (i + 1)
  rw [btfTypeById_succ hstart, btfTypeById_succ hwf.startId, getElem?_eq_getElem hi',
    getElem?_eq_getElem hi] at hrec
  exact ⟨hwf.records _ (get_mem _ _), hpacked _ (get_mem _ _), hrec⟩

theorem btfStrByOffset_take (hwf : btf.WF) (hstart : btf'.startStrOff = 0)
    (hlen : btf'.hdr.strLen = btf.hdr.strLen)
    (hstrs : btf'.strsData = btf.strsData.take btf.hdr.strLen.toNat) (off : Nat) :
    btfStrByOffset [btf'] off = btfStrByOffset [btf] off := by
  obtain ⟨hle, hparse⟩ := hwf.strsData_take
  simp only [btfStrByOffset, hstart, hwf.startStrOff, hlen, hstrs]
  split_ifs with hneg hoff
  · rfl
  · refine congrArg some (CStr.bytes_injective (cstrAt_take ?_ ?_).symm)
    · exact .inr (btfParseStrSec_iff.1 hparse).2.2.1
    · rw [length_take, min_eq_left hle]
      exact hoff
  · rfl

theorem Btf.Uncached.roundTrips_iff (h : btf.Uncached) :
    RoundTrips btf ↔ btf.hdr.typeOff = 0 ∧ btf.hdr.strOff = btf.hdr.typeLen ∧
      btf.total < 2 ^ 32 ∧ btf.Packed := by
  obtain ⟨words, hcopy, hwords, hnative⟩ := typesToCopy_spec btf.swappedEndian h.wf.records
  have htake : ∀ hsize : btf.total < 2 ^ 32, (image btf words).take
      (btf.hdr.hdrLen + btf.hdr.typeLen + btf.hdr.strLen).toNat = image btf words := by
    intro hsize
    rw [toNat_dataSz, mod_eq_of_lt hsize, ← h.length_image hwords, take_length]
  constructor
  · rintro ⟨data, size, cached, btf', hraw, hnew, hcnt, htypes, -⟩
    by_cases hsize : btf.total < 2 ^ 32
    · obtain ⟨cached', hraw'⟩ := h.btfRawData_eq hsize hcopy hwords
      rw [hraw'] at hraw
      obtain ⟨⟨rfl, rfl⟩, -⟩ := hraw
      obtain ⟨-, hdr, swapped, types, hacc, rfl⟩ := btfNew_eq_ok.1 hnew
      rw [htake hsize] at hacc
      obtain ⟨-, -, htypeOff, hstrOff, hpacked, hflat⟩ := (h.accepted_iff hwords).1 hacc
      have hlen : types.flatten.length = btf.types.flatten.length := by
        rw [hflat, length_map, hwords]
      exact ⟨htypeOff, hstrOff, hsize,
        packed_of_same_types h.wf rfl (fun region hmem => hpacked region hmem) hcnt htypes hlen⟩
    · rw [h.btfRawData_fault hsize] at hraw
      cases hraw
  · rintro ⟨htypeOff, hstrOff, hsize, hpacked⟩
    have hflat : btf.types.flatten = words.map (nativeWord btf.swappedEndian) := by
      rw [hnative hpacked, map_nativeWord_map_nativeWord]
    have hacc := (h.accepted_iff hwords).2 ⟨rfl, rfl, htypeOff, hstrOff, hpacked, hflat⟩
    obtain ⟨cached, hraw⟩ := h.btfRawData_eq hsize hcopy hwords
    refine ⟨_, _, cached, _, hraw, btfNew_eq_ok.2
      ⟨?_, btf.hdr, btf.swappedEndian, btf.types, ?_, rfl⟩, rfl, ?_, ?_⟩
    · rw [toNat_dataSz, mod_eq_of_lt hsize, h.length_image hwords]
    · rw [htake hsize]
      exact hacc
    · intro id
      cases id with
      | zero => rw [btfTypeById_zero rfl, btfTypeById_zero h.wf.startId]
      | succ i =>
        rw [btfTypeById_succ rfl, btfTypeById_succ h.wf.startId]
        rfl
    · intro off s hs
      refine Eq.trans (btfStrByOffset_take h.wf ?_ ?_ ?_ off) hs
      · rfl
      · rfl
      · show slice ((image btf words).take _) _ _ = _
        rw [htake hsize, (h.slices hwords htypeOff hstrOff).2]

/-! ## After additions -/

variable {data : List Byte} {size : U32}

theorem roundTrips_of_native
    (hnew : btfNew data size = .ok btf) (hnative : btf.swappedEndian = false) : RoundTrips btf := by
  obtain ⟨hlen, hdr, swapped, types, hacc, rfl⟩ := btfNew_eq_ok.1 hnew
  obtain rfl : swapped = false := hnative
  refine ⟨data.take size.toNat, size, _, parsedBtf (data.take size.toNat) size hdr false types, rfl,
    btfNew_eq_ok.2 ⟨?_, hdr, false, types, ?_, ?_⟩, rfl, fun _ => rfl, fun _ _ => id⟩
  · rw [length_take, min_eq_left hlen]
  · rwa [take_take, min_self]
  · rw [take_take, min_self]

/-- The calls that change nothing about the blob that is returned. -/
def ReturnsBlob (btf : Btf) (calls : List AddCall) : Prop :=
  calls = [] ∧ btf.swappedEndian = false

/-- The object after the calls; its bytes are put together anew unless the blob is returned. -/
theorem uncached_runAdds {calls : List AddCall} {st : BtfState} (hnew : btfNew data size = .ok btf)
    (hrun : runAdds calls ⟨btf, [], []⟩ = some st) (hblob : ¬ReturnsBlob btf calls) :
    st.btf.Uncached ∧ st.btf.hdr.typeOff = btf.hdr.typeOff ∧
      st.btf.hdr.strOff - st.btf.hdr.typeLen = btf.hdr.strOff - btf.hdr.typeLen ∧
      (st.btf.Packed ↔ RunFits calls ⟨btf, [], []⟩) := by
  obtain ⟨-, hdr, swapped, types, hacc, rfl⟩ := btfNew_eq_ok.1 hnew
  obtain ⟨hwf, hpacked⟩ := hacc.wf
  cases calls with
  | nil =>
    cases hrun
    obtain rfl : swapped = true := by
      cases swapped with
      | true => rfl
      | false => exact absurd ⟨rfl, rfl⟩ hblob
    refine ⟨⟨hwf, rfl, le_of_eq (hwf.swapped rfl).symm⟩, rfl, rfl, ?_⟩
    exact iff_of_true hpacked trivial
  | cons c calls =>
    have hadded := added_runAdds rfl hwf hrun
    obtain ⟨hraw, hrawSwapped, hhdr⟩ := hadded.wf.modifiable hadded.modifiable
    refine ⟨⟨hadded.wf, ?_, hhdr⟩, hadded.typeOff, hadded.gap, ?_⟩
    · split
      · exact hrawSwapped
      · exact hraw
    · rw [hadded.packed]
      exact and_iff_right hpacked

theorem typeOff_eq_zero
    (hnew : btfNew data size = .ok btf) (hgap : btf.hdr.strOff = btf.hdr.typeLen) :
    btf.hdr.typeOff = 0 := by
  obtain ⟨-, hdr, swapped, types, hacc, rfl⟩ := btfNew_eq_ok.1 hnew
  obtain ⟨-, -, -, hlayout⟩ := btfParseHdr_eq_ok.1 hacc.parseHdr
  obtain ⟨-, -, htypeOff, -⟩ := btfLayoutOk_iff.1 hlayout
  have hstrOff : hdr.strOff.toNat = hdr.typeLen.toNat := congrArg BitVec.toNat hgap
  apply BitVec.eq_of_toNat_eq
  show hdr.typeOff.toNat = 0
  omega

/-- An accepted blob survives additions and serialisation in exactly these cases: nothing was added
and its byte order is native; or its strings follow its types immediately, the sections do not
exceed 32 bits together and no member count wrapped. -/
theorem btfRoundTrip_iff {data : List Byte} {size : U32} {btf : Btf} {calls : List AddCall}
    {st : BtfState} (hnew : btfNew data size = .ok btf)
    (hrun : runAdds calls ⟨btf, [], []⟩ = some st) :
    RoundTrips st.btf ↔ ReturnsBlob btf calls ∨
      (btf.hdr.strOff = btf.hdr.typeLen ∧ st.btf.total < 2 ^ 32 ∧
        RunFits calls ⟨btf, [], []⟩) := by
  by_cases hblob : ReturnsBlob btf calls
  · obtain ⟨rfl, hnative⟩ := id hblob
    cases hrun
    exact iff_of_true (roundTrips_of_native hnew hnative) (.inl hblob)
  obtain ⟨hun, htypeOff, hgap, hpacked⟩ := uncached_runAdds hnew hrun hblob
  have hcontig : st.btf.hdr.strOff = st.btf.hdr.typeLen ↔ btf.hdr.strOff = btf.hdr.typeLen := by
    constructor <;> intro heq <;> bv_omega
  rw [hun.roundTrips_iff, hcontig, htypeOff, hpacked, or_iff_right hblob]
  exact and_iff_right_of_imp fun h => typeOff_eq_zero hnew h.1

/-- A blob with `pad` bytes between the header and its sections: no types, and the empty string. -/
def paddedBlob (swapped : Bool) (pad : U32) : List Byte :=
  (fileHdr swapped ⟨BTF_MAGIC, 1, 0, 24, pad, 0, pad, 1⟩).bytes ++ List.replicate (pad.toNat + 1) 0

/-- A blob with a struct without members. -/
def structBlob : List Byte :=
  (BtfHeader.mk BTF_MAGIC 1 0 24 0 12 12 3).bytes ++
    ofWords [1, btfTypeInfo .struct 0 false, 0] ++ [0, 120, 0]

/-- The struct gets a member with a name of its own. -/
theorem btfRoundTrip_iff_sample : ∃ btf st, btfNew structBlob 39 = .ok btf ∧
    runAdds [.field {} (some ⟨[97], by decide⟩) 1 0 0] ⟨btf, [], []⟩ = some st ∧
    RoundTrips st.btf := by
  refine ⟨_, _, rfl, rfl, ?_⟩
  refine (@btfRoundTrip_iff structBlob 39 _
    [.field {} (some ⟨[97], by decide⟩) 1 0 0] _ rfl rfl).2 (.inr ⟨rfl, ?_, ?_, ?_⟩)
  · decide
  · intro info hinfo
    cases hinfo
    decide
  · exact fun _ _ _ => trivial

/-- A blob of the other byte order with four unused bytes is accepted, and its serialisation is
not. -/
theorem paddedBlob_rejected : ∃ btf data size cached, btfNew (paddedBlob true 4) 29 = .ok btf ∧
    runAdds [] ⟨btf, [], []⟩ = some ⟨btf, [], []⟩ ∧
    btfRawData true btf = .ok ((data, size), cached) ∧
    btfNew data size = .error (.err (-EINVAL)) ∧ ¬RoundTrips btf := by
  refine ⟨_, _, _, _, rfl, rfl, rfl, rfl, ?_⟩
  rintro ⟨data, size, cached, btf', hraw, hnew, -⟩
  obtain ⟨⟨rfl, rfl⟩, -⟩ := (by simpa only [Prod.mk.injEq] using Except.ok.inj hraw)
  cases hnew

end LinuxKernel.Bpf
