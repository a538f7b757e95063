import LinuxKernel.X86.Mtrr

/-!
# MTRRs: the map is right

Each function that changes the array is an `Edit` of the map: it gives the addresses of one range a
new value, leaves the fixed entries alone and adds no boundaries but the ends of the range. The scan
of `add_map_entry` keeps the entries before its index below what remains of the new range, so that
the pieces it handles one after the other make up the whole range.

The array is never too small, since an entry that is not fixed starts where a variable range starts
or ends, or behind a fixed entry.
-/

namespace LinuxKernel.X86

open Foundation Foundation.Segments
open List hiding lookup_eq_none_iff lookup_nil

/-! ## Indices into the array -/

section
variable (pre post : List CacheMap) (x : CacheMap)
include pre post x

theorem cacheMapAt_length : cacheMapAt (pre ++ x :: post) pre.length = x := by
  simp [cacheMapAt]

variable (f : CacheMap → CacheMap)

theorem modify_length : (pre ++ x :: post).modify pre.length f = pre ++ f x :: post := by
  induction pre with
  | nil => rfl
  | cons y pre ih => simpa using ih

theorem take_length_succ : (pre ++ x :: post).take (pre.length + 1) = pre ++ [x] := by
  simp [take_append]

theorem drop_length_succ : (pre ++ x :: post).drop (pre.length + 1) = post := by
  simp [drop_append]

theorem cacheMapAt_pred : cacheMapAt (pre ++ [x] ++ post) ((pre ++ [x]).length - 1) = x := by
  simp [cacheMapAt]

theorem modify_pred :
    (pre ++ [x] ++ post).modify ((pre ++ [x]).length - 1) f = pre ++ [f x] ++ post := by
  have hlen : (pre ++ [x]).length - 1 = pre.length := by simp
  rw [hlen, append_assoc, append_assoc]
  exact modify_length pre post x f

theorem eraseIdx_length : (pre ++ x :: post).eraseIdx pre.length = pre ++ post := by
  rw [eraseIdx_append_of_length_le le_rfl]
  simp

theorem insertIdx_length : (pre ++ post).insertIdx pre.length x = pre ++ x :: post := by
  induction pre with
  | nil => simp
  | cons y pre ih => simpa using ih

end

/-! ## Adding an entry at an index -/

/-- An edit of the array that leaves the fixed entries alone. -/
abbrev MapEdit (m m' : List CacheMap) (lo hi : Nat) (c : Option (MtrrType × Bool)) : Prop :=
  Edit cacheMapLayout CacheMap.fixed m m' lo hi c

section
variable {pre post : List CacheMap} {start stop : Nat} {type : MtrrType}

/-- The range as an entry of its own, or merged with the entries of its type that it touches. -/
theorem mapEdit_add (mid : List CacheMap) (y : CacheMap)
    (hsorted : cacheMapLayout.Sorted (pre ++ (mid ++ post))) (hlt : start < stop)
    (hpre : ∀ x ∈ pre, x.stop ≤ start) (hpost : ∀ x ∈ post, stop ≤ x.start)
    (hmid : (mid = [] ∧ y = ⟨start, stop, type, false⟩) ∨
      (∃ x, mid = [x] ∧ (x.fixed = false ∧ start = x.stop ∧ type = x.type) ∧
        y = { x with stop := stop }) ∨
      (∃ x, mid = [x] ∧ (x.fixed = false ∧ stop = x.start ∧ type = x.type) ∧
        y = { x with start := start }) ∨
      ∃ x z, mid = [x, z] ∧ (x.fixed = false ∧ start = x.stop ∧ type = x.type) ∧
        (z.fixed = false ∧ stop = z.start ∧ type = z.type) ∧ y = { x with stop := z.stop }) :
    MapEdit (pre ++ (mid ++ post)) (pre ++ y :: post) start stop (some (type, false)) := by
  have hlen : ∀ x ∈ mid, x.start < x.stop := fun x hx => hsorted.nonempty x (by simp [hx])
  apply edit_replace mid [y] hsorted hpre hpost
  · exact sorted_cons.2 ⟨by simp only [cacheMapLayout]; grind, by simp, sorted_nil⟩
  · simp only [cacheMapLayout]
    grind
  · simp only [cacheMapLayout]
    grind
  · rcases hmid with ⟨rfl, rfl⟩ | ⟨x, rfl, hx, rfl⟩ | ⟨x, rfl, hx, rfl⟩ | ⟨x, z, rfl, hx, hz, rfl⟩
      <;> simp only [lookup_cons_cacheMap, lookup_nil] <;> grind
  · grind
  · simp only [Layout.Boundary, cacheMapLayout]
    grind

end

/-- The entries below index `i` end before `start`. -/
def Scanned (m : List CacheMap) (i start : Nat) : Prop :=
  i ≤ m.length ∧ ∀ x ∈ m.take i, x.stop ≤ start

variable {start : Nat}

theorem scanned_append {pre post : List CacheMap} :
    Scanned (pre ++ post) pre.length start ↔ ∀ x ∈ pre, x.stop ≤ start := by
  simp [Scanned]

section
variable {pre post : List CacheMap} {y : CacheMap} {start stop : Nat}

theorem scanned_entry (hpre : ∀ x ∈ pre, x.stop ≤ start) (hle : start ≤ stop) :
    Scanned (pre ++ y :: post) pre.length stop ∧
      (y.stop ≤ stop → Scanned (pre ++ y :: post) (pre.length + 1) stop) := by
  have hpre' : ∀ x ∈ pre, x.stop ≤ stop := fun x hx => (hpre x hx).trans hle
  refine ⟨scanned_append.2 hpre', fun hy => ⟨by simp, ?_⟩⟩
  rw [take_length_succ]
  exact forall_mem_append.2 ⟨hpre', forall_mem_singleton.2 hy⟩

theorem take_drop_entry (hy : start ≤ y.start) (hpost : ∀ x ∈ post, start ≤ x.start) :
    (pre ++ y :: post).take pre.length = pre ∧
      ∀ x ∈ (pre ++ y :: post).drop pre.length, start ≤ x.start := by
  rw [take_left, drop_left]
  exact ⟨rfl, forall_mem_cons.2 ⟨hy, hpost⟩⟩

end

variable {size stop idx : Nat} {m : List CacheMap}

/-- A range between two entries becomes part of the map, and the scan goes on behind it. The entries
before stay as they are if none of them touches the range. -/
theorem addMapEntryAt_spec {type : MtrrType}
    (hsorted : cacheMapLayout.Sorted m) (hlt : start < stop) (hscan : Scanned m idx start)
    (hafter : ∀ x ∈ m.drop idx, stop ≤ x.start)
    (hroom : ∀ m', MapEdit m m' start stop (some (type, false)) → m'.length ≤ size) :
    ∃ m' merges, addMapEntryAt size m start stop type idx = some (m', merges) ∧
      MapEdit m m' start stop (some (type, false)) ∧ Scanned m' (idx + 1 - merges) stop ∧
      ((∀ x ∈ m.take idx, x.stop < start) →
        m'.take idx = m.take idx ∧ ∀ x ∈ m'.drop idx, start ≤ x.start) := by
  obtain ⟨pre, post, rfl, rfl⟩ : ∃ pre post, m = pre ++ post ∧ idx = pre.length :=
    ⟨m.take idx, m.drop idx, (take_append_drop idx m).symm, by simp [hscan.1]⟩
  rw [drop_left] at hafter
  have hbefore := scanned_append.1 hscan
  rw [addMapEntryAt, if_neg (by omega)]
  extract_lets prev next mergePrev mergeNext
  have hprev : mergePrev = true → ∃ pre' x, pre = pre' ++ [x] ∧
      x.fixed = false ∧ start = x.stop ∧ type = x.type := by
    intro h
    simp only [mergePrev, Bool.and_eq_true, decide_eq_true_eq, Bool.not_eq_true', beq_iff_eq] at h
    have ⟨⟨⟨hpos, hfixed⟩, htouch⟩, htype⟩ := h
    rcases eq_nil_or_concat' pre with rfl | ⟨pre', x, rfl⟩
    · simp at hpos
    · have hx : prev = x := cacheMapAt_pred pre' post x
      exact ⟨pre', x, rfl, hx ▸ ⟨hfixed, htouch, htype⟩⟩
  have hnext : mergeNext = true → ∃ post', post = next :: post' ∧
      next.fixed = false ∧ stop = next.start ∧ type = next.type := by
    intro h
    simp only [mergeNext, Bool.and_eq_true, decide_eq_true_eq, Bool.not_eq_true', beq_iff_eq] at h
    have ⟨⟨⟨hpos, hfixed⟩, htouch⟩, htype⟩ := h
    cases post with
    | nil => simp at hpos
    | cons x post' =>
      have hx : next = x := cacheMapAt_length pre post' x
      exact ⟨post', by rw [hx], hfixed, htouch, htype⟩
  clear_value mergePrev mergeNext next
  split_ifs with hboth hp hn hfull
  · obtain ⟨pre', x, rfl, hx⟩ := hprev (by grind)
    obtain ⟨post', rfl, hy⟩ := hnext (by grind)
    have hresult : rmMapEntryAt ((pre' ++ [x] ++ next :: post').modify ((pre' ++ [x]).length - 1)
        ({ · with stop := next.stop })) (pre' ++ [x]).length =
        pre' ++ { x with stop := next.stop } :: post' := by
      have hlen : (pre' ++ [x]).length = (pre' ++ [{ x with stop := next.stop }]).length := by simp
      rw [modify_pred, rmMapEntryAt, hlen, eraseIdx_length, append_assoc]
      rfl
    rw [hresult]
    rw [append_assoc] at hsorted ⊢
    have hpre : ∀ y ∈ pre', y.stop ≤ start := fun y hy => hbefore y (by simp [hy])
    refine ⟨_, _, rfl, mapEdit_add [x, next] _ hsorted hlt hpre
      (fun y hy => hafter y (by simp [hy]))
      (.inr (.inr (.inr ⟨x, next, rfl, hx, hy, rfl⟩))), ?_, fun hapart => ?_⟩
    · have hidx : (pre' ++ [x]).length + 1 - 2 = pre'.length := by simp
      rw [hidx]
      exact (scanned_entry hpre hlt.le).1
    · have := hapart x (by simp [take_length_succ])
      omega
  · obtain ⟨pre', x, rfl, hx⟩ := hprev hp
    rw [modify_pred, append_assoc, append_assoc]
    rw [append_assoc] at hsorted
    have hpre : ∀ y ∈ pre', y.stop ≤ start := fun y hy => hbefore y (by simp [hy])
    refine ⟨_, _, rfl, mapEdit_add [x] _ hsorted hlt hpre hafter
      (.inr (.inl ⟨x, rfl, hx, rfl⟩)), ?_,
      fun hapart => ?_⟩
    · have hidx : (pre' ++ [x]).length + 1 - 1 = pre'.length + 1 := by simp
      rw [hidx]
      exact (scanned_entry hpre hlt.le).2 le_rfl
    · have := hapart x (by simp [take_length_succ])
      omega
  · obtain ⟨post', rfl, hy⟩ := hnext hn
    have hpost := fun y hy' => hafter y (mem_cons_of_mem next hy')
    rw [modify_length, take_left]
    exact ⟨_, _, rfl, mapEdit_add [next] _ hsorted hlt hbefore hpost
      (.inr (.inr (.inl ⟨next, rfl, hy, rfl⟩))), (scanned_entry hbefore hlt.le).1,
      fun _ => take_drop_entry le_rfl fun y hy' => hlt.le.trans (hpost y hy')⟩
  · -- The array has room for the entry, since the map with it is an edit.
    have hlen := hroom _ (mapEdit_add [] _ hsorted hlt hbefore hafter (.inl ⟨rfl, rfl⟩))
    simp only [length_append, length_cons] at hlen hfull
    omega
  · rw [insertIdx_length, take_left]
    exact ⟨_, _, rfl, mapEdit_add [] _ hsorted hlt hbefore hafter (.inl ⟨rfl, rfl⟩),
      (scanned_entry hbefore hlt.le).2 le_rfl,
      fun _ => take_drop_entry le_rfl fun y hy => hlt.le.trans (hafter y hy)⟩

/-! ## Clearing a part of an entry -/

section
variable {pre post : List CacheMap} {cur : CacheMap} {start stop : Nat}

theorem mapEdit_clear (mid' : List CacheMap) (hsorted : cacheMapLayout.Sorted (pre ++ cur :: post))
    (hlt : start < stop) (hpre : ∀ x ∈ pre, x.stop ≤ start) (hfixed : cur.fixed = false)
    (hmid : mid' = [] ∧ start = cur.start ∧ stop = cur.stop ∨
      mid' = [{ cur with start := stop }] ∧ start = cur.start ∧ stop < cur.stop ∨
      mid' = [{ cur with stop := start }] ∧ cur.start < start ∧ stop = cur.stop) :
    MapEdit (pre ++ cur :: post) (pre ++ (mid' ++ post)) start stop none := by
  have hpost : ∀ x ∈ post, stop ≤ x.start := by
    intro x hx
    have ⟨_, hrest, _⟩ := sorted_append.1 hsorted
    have hle := (sorted_cons.1 hrest).2.1 x hx
    simp only [cacheMapLayout] at hle
    omega
  apply edit_replace [cur] mid' hsorted hpre hpost
  · rcases hmid with ⟨rfl, _⟩ | ⟨rfl, _, hlt⟩ | ⟨rfl, hlt, _⟩
    · exact sorted_nil
    · exact sorted_cons.2 ⟨hlt, by simp, sorted_nil⟩
    · exact sorted_cons.2 ⟨hlt, by simp, sorted_nil⟩
  · simp only [cacheMapLayout]
    grind
  · simp only [cacheMapLayout]
    grind
  · rcases hmid with ⟨rfl, _⟩ | ⟨rfl, _⟩ | ⟨rfl, _⟩
    all_goals
      simp only [lookup_cons_cacheMap, lookup_nil]
      grind
  · grind
  · simp only [Layout.Boundary, cacheMapLayout]
    grind

/-- Taking the rest of an entry away and putting its end back clears what is between. -/
theorem mapEdit_split {m' : List CacheMap} (hsorted : cacheMapLayout.Sorted (pre ++ cur :: post))
    (hfixed : cur.fixed = false) (hlo : cur.start < start) (hlt : start < stop)
    (hhi : stop < cur.stop)
    (hcut : MapEdit (pre ++ cur :: post) (pre ++ { cur with stop := start } :: post) start cur.stop
      none) (hback : MapEdit (pre ++ { cur with stop := start } :: post) m' stop cur.stop
      (some (cur.type, false))) : MapEdit (pre ++ cur :: post) m' start stop none where
  sorted := hback.sorted
  lookup := by
    intro a
    rw [hback.lookup, hcut.lookup]
    by_cases hend : stop ≤ a ∧ a < cur.stop
    · have hcovers : cacheMapLayout.Covers a cur := ⟨by simp only [cacheMapLayout]; omega, hend.2⟩
      have hcur := hsorted.lookup_of_mem (by simp) hcovers
      rw [if_pos hend, if_neg (by omega), hcur]
      simp [cacheMapLayout, hfixed]
    · rw [if_neg hend]
      by_cases hmid : start ≤ a ∧ a < stop
      · rw [if_pos hmid, if_pos (by omega)]
      · rw [if_neg hmid, if_neg (by omega)]
  protect_eq := hback.protect_eq.trans hcut.protect_eq
  boundary := by
    intro q hq
    have hcur : cacheMapLayout.Boundary (pre ++ cur :: post) cur.stop := ⟨cur, by simp, .inr rfl⟩
    rcases hback.boundary q hq with hq | rfl | rfl
    · rcases hcut.boundary q hq with hq | rfl | rfl
      · exact .inl hq
      · exact .inr (.inl rfl)
      · exact .inl hcur
    · exact .inr (.inr rfl)
    · exact .inl hcur

end

/-- A range inside an entry becomes a hole, and the scan is in front of the hole. -/
theorem clrMapRangeAt_spec
    (hsorted : cacheMapLayout.Sorted m) (hlt : start < stop) (hscan : Scanned m idx start)
    (hidx : idx < m.length) (hfixed : (cacheMapAt m idx).fixed = false)
    (hlo : (cacheMapAt m idx).start ≤ start) (hhi : stop ≤ (cacheMapAt m idx).stop)
    (hroom : ∀ m', MapEdit m m' start stop none → m'.length ≤ size) :
    ∃ m' kept, clrMapRangeAt size m start stop idx = some (m', kept) ∧
      MapEdit m m' start stop none ∧ Scanned m' (idx + kept) start ∧
      ∀ x ∈ m'.drop (idx + kept), stop ≤ x.start := by
  obtain ⟨pre, cur, post, rfl, rfl⟩ :
      ∃ pre cur post, m = pre ++ cur :: post ∧ idx = pre.length :=
    ⟨m.take idx, m[idx], m.drop (idx + 1), by simp, by simp [hscan.1]⟩
  rw [cacheMapAt_length] at hfixed hlo hhi
  have hbefore := scanned_append.1 hscan
  have hpost : ∀ x ∈ post, cur.stop ≤ x.start := by
    have ⟨_, hrest, _⟩ := sorted_append.1 hsorted
    exact (sorted_cons.1 hrest).2.1
  simp only [clrMapRangeAt, cacheMapAt_length, rmMapEntryAt, eraseIdx_length, modify_length]
  by_cases hstart : start = cur.start
  · rw [if_neg (not_not.2 hstart)]
    by_cases hstop : stop = cur.stop
    · rw [if_pos ⟨hstart, hstop⟩]
      refine ⟨_, _, rfl, ?_, scanned_append.2 hbefore, ?_⟩
      · exact mapEdit_clear [] hsorted hlt hbefore hfixed (.inl ⟨rfl, hstart, hstop⟩)
      · rw [Nat.add_zero, drop_left, hstop]
        exact hpost
    · rw [if_neg (fun h => hstop h.2), if_pos hstart]
      refine ⟨_, _, rfl, ?_, scanned_append.2 hbefore, ?_⟩
      · exact mapEdit_clear [{ cur with start := stop }] hsorted hlt hbefore hfixed
          (.inr (.inl ⟨rfl, hstart, by omega⟩))
      · rw [Nat.add_zero, drop_left]
        exact forall_mem_cons.2 ⟨le_rfl, fun x hx => hhi.trans (hpost x hx)⟩
  · rw [if_pos hstart, if_neg (fun h => hstart h.1), if_neg hstart]
    -- The start of the entry is kept, and the index moves behind it.
    have hscanned : Scanned (pre ++ { cur with stop := start } :: post) (pre.length + 1) start :=
      (scanned_entry hbefore le_rfl).2 le_rfl
    have hclear : ∀ stop', start < stop' → stop' = cur.stop →
        MapEdit (pre ++ cur :: post) (pre ++ { cur with stop := start } :: post) start stop' none :=
      fun stop' hlt' hstop' => mapEdit_clear [{ cur with stop := start }] hsorted hlt' hbefore
        hfixed (.inr (.inr ⟨rfl, by omega, hstop'⟩))
    by_cases hstop : stop = cur.stop
    · rw [if_pos hstop]
      refine ⟨_, _, rfl, hclear stop hlt hstop, hscanned, ?_⟩
      rw [drop_length_succ, hstop]
      exact hpost
    · -- The end of the entry is put back.
      have hcut := hclear cur.stop (by omega) rfl
      have hsplit : ∀ m', MapEdit (pre ++ { cur with stop := start } :: post) m' stop cur.stop
          (some (cur.type, false)) → MapEdit (pre ++ cur :: post) m' start stop none :=
        fun m' hback => mapEdit_split hsorted hfixed (by omega) hlt (by omega) hcut hback
      have hscannedStop :
          Scanned (pre ++ { cur with stop := start } :: post) (pre.length + 1) stop :=
        ⟨hscanned.1, fun x hx => (hscanned.2 x hx).trans (by omega)⟩
      obtain ⟨m', merges, hadd, hback, -, hrest⟩ := addMapEntryAt_spec hcut.sorted
        (show stop < cur.stop by omega) hscannedStop (by rw [drop_length_succ]; exact hpost)
        fun m' hback => hroom m' (hsplit m' hback)
      have ⟨htake, hdrop⟩ := hrest fun x hx => (hscanned.2 x hx).trans_lt hlt
      have hle : pre.length + 1 ≤ m'.length := by
        have hlen := congrArg length htake
        rw [take_length_succ, length_take] at hlen
        simp only [length_append, length_singleton] at hlen
        omega
      rw [if_neg hstop, hadd]
      refine ⟨m', 1, rfl, hsplit m' hback, ⟨hle, ?_⟩, hdrop⟩
      rw [htake]
      exact hscanned.2

/-! ## The scan -/

def paint (type : MtrrType) : Option (MtrrType × Bool) → Option (MtrrType × Bool)
  | none => some (type, false)
  | some (old, true) => some (old, true)
  | some (old, false) => some (getEffectiveType type old, false)

/-- What stays true of the map while ranges are added: its fixed entries are `fixed`, its boundaries
are among `ends`, and the addresses of its other entries are covered by one of the ranges. -/
structure Laid (fixed : List CacheMap) (ends covered : Nat → Prop) (m : List CacheMap) : Prop where
  sorted : cacheMapLayout.Sorted m
  fixed_eq : m.filter CacheMap.fixed = fixed
  boundary : ∀ q, cacheMapLayout.Boundary m q → ends q
  covered : ∀ a type, cacheMapLayout.lookup m a = some (type, false) → covered a

section
variable {fixed m m' : List CacheMap} {ends covered : Nat → Prop} {start stop i : Nat}
  {c : Option (MtrrType × Bool)}

theorem Laid.edit (h : Laid fixed ends covered m) {lo hi : Nat}
    (hedit : MapEdit m m' lo hi c) (hlo : ends lo) (hhi : ends hi)
    (hcov : ∀ a, lo ≤ a → a < hi → covered a) : Laid fixed ends covered m' where
  sorted := hedit.sorted
  fixed_eq := hedit.protect_eq.trans h.fixed_eq
  boundary := by
    intro q hq
    rcases hedit.boundary q hq with hq | rfl | rfl
    · exact h.boundary q hq
    · exact hlo
    · exact hhi
  covered := by
    intro a type ha
    rw [hedit.lookup] at ha
    split at ha
    next hin => exact hcov a hin.1 hin.2
    · exact h.covered a type ha

theorem Scanned.mono (h : Scanned m i start) (hle : start ≤ stop) : Scanned m i stop :=
  ⟨h.1, fun x hx => (h.2 x hx).trans hle⟩

theorem cacheMapAt_eq_getElem (hi : i < m.length) : cacheMapAt m i = m[i] := by
  simp [cacheMapAt, hi]

theorem drop_cacheMapAt (hi : i < m.length) : m.drop i = cacheMapAt m i :: m.drop (i + 1) := by
  rw [drop_eq_getElem_cons hi, cacheMapAt_eq_getElem hi]

theorem cacheMapAt_mem (hi : i < m.length) : cacheMapAt m i ∈ m := by
  rw [cacheMapAt_eq_getElem hi]
  exact getElem_mem hi

theorem Scanned.succ (h : Scanned m i start) (hi : i < m.length)
    (hstop : (cacheMapAt m i).stop ≤ start) : Scanned m (i + 1) start := by
  refine ⟨hi, fun x hx => ?_⟩
  rw [take_succ_eq_append_getElem hi, ← cacheMapAt_eq_getElem hi] at hx
  rcases mem_append.1 hx with hx | hx
  · exact h.2 x hx
  · rw [mem_singleton.1 hx]
    exact hstop

theorem start_le_of_mem_drop (hsorted : cacheMapLayout.Sorted m) (hi : i < m.length) {x : CacheMap}
    (hx : x ∈ m.drop i) : (cacheMapAt m i).start ≤ x.start := by
  have hdrop : cacheMapLayout.Sorted (m.drop i) := by
    rw [← take_append_drop i m] at hsorted
    exact (sorted_append.1 hsorted).2.1
  rw [drop_cacheMapAt hi] at hx hdrop
  have ⟨hcur, hrest, _⟩ := sorted_cons.1 hdrop
  simp only [cacheMapLayout] at hcur hrest
  rcases mem_cons.1 hx with rfl | hx
  · exact le_rfl
  · have := hrest x hx
    omega

theorem Scanned.lookup_eq_none (h : Scanned m i start) {a : Nat} (ha : start ≤ a)
    (hdrop : ∀ x ∈ m.drop i, a < x.start) : cacheMapLayout.lookup m a = none := by
  rw [lookup_eq_none_iff]
  intro x hx hcovers
  rw [← take_append_drop i m] at hx
  simp only [Layout.Covers, cacheMapLayout] at hcovers
  rcases mem_append.1 hx with hx | hx
  · have := h.2 x hx
    omega
  · have := hdrop x hx
    omega

variable {type : MtrrType}

/-- `m'` is `m` with the range painted from `start` to `stop`. -/
def Painted (type : MtrrType) (start stop : Nat) (m m' : List CacheMap) : Prop :=
  ∀ a, cacheMapLayout.lookup m' a =
    if start ≤ a ∧ a < stop then paint type (cacheMapLayout.lookup m a)
    else cacheMapLayout.lookup m a

theorem Painted.of_edit (he : MapEdit m m' start stop c)
    (hpaint : ∀ a, start ≤ a → a < stop → paint type (cacheMapLayout.lookup m a) = c) :
    Painted type start stop m m' := by
  intro a
  rw [he.lookup]
  by_cases hin : start ≤ a ∧ a < stop
  · rw [if_pos hin, if_pos hin, hpaint a hin.1 hin.2]
  · rw [if_neg hin, if_neg hin]

theorem Painted.trans {m₁ : List CacheMap} {tmp : Nat} (hfirst : Painted type start tmp m m₁)
    (hrest : Painted type tmp stop m₁ m') (hle : start ≤ tmp) (hle' : tmp ≤ stop) :
    Painted type start stop m m' := by
  intro a
  rw [hrest, hfirst]
  grind

variable {size : Nat}

/-- A range in a hole of the map: up to the next entry, or behind the last one. -/
theorem addMapEntryAt_paints (type : MtrrType) {tmp : Nat}
    (hroom : ∀ m, Laid fixed ends covered m → m.length ≤ size) (hlaid : Laid fixed ends covered m)
    (hscan : Scanned m i start) (hlt : start < tmp) (hstart : ends start) (htmp : ends tmp)
    (hcov : ∀ a, start ≤ a → a < tmp → covered a) (hdrop : ∀ x ∈ m.drop i, tmp ≤ x.start) :
    ∃ m₁ merges, addMapEntryAt size m start tmp type i = some (m₁, merges) ∧
      Laid fixed ends covered m₁ ∧ Scanned m₁ (i + 1 - merges) tmp ∧
      Painted type start tmp m m₁ := by
  obtain ⟨m₁, merges, hadd, he, hscan₁, -⟩ := addMapEntryAt_spec hlaid.sorted hlt hscan hdrop
    fun m₁ he => hroom m₁ (hlaid.edit he hstart htmp hcov)
  refine ⟨m₁, merges, hadd, hlaid.edit he hstart htmp hcov, hscan₁, .of_edit he fun a hlo hhi => ?_⟩
  rw [hscan.lookup_eq_none hlo fun x hx => hhi.trans_le (hdrop x hx)]
  rfl

section
variable (hlaid : Laid fixed ends covered m) (hi : i < m.length)
  (hle : (cacheMapAt m i).start ≤ start)
include hlaid hi hle

theorem Laid.lookup_cacheMapAt {a : Nat} (hlo : start ≤ a) (hhi : a < (cacheMapAt m i).stop) :
    cacheMapLayout.lookup m a = some ((cacheMapAt m i).type, (cacheMapAt m i).fixed) :=
  hlaid.sorted.lookup_of_mem (cacheMapAt_mem hi) ⟨hle.trans hlo, hhi⟩

/-- An entry that is fixed, or has the combined type already, is passed over. -/
theorem Painted.of_kept (hlt : start < (cacheMapAt m i).stop) (hkeep : ((cacheMapAt m i).fixed ||
      getEffectiveType type (cacheMapAt m i).type == (cacheMapAt m i).type) = true)
    (hrest : Painted type (cacheMapAt m i).stop stop m m') : Painted type start stop m m' := by
  intro a
  rw [hrest]
  by_cases hin : start ≤ a ∧ a < (cacheMapAt m i).stop
  · have hpaint : paint type (cacheMapLayout.lookup m a) = cacheMapLayout.lookup m a := by
      rw [hlaid.lookup_cacheMapAt hi hle hin.1 hin.2]
      cases hfixed : (cacheMapAt m i).fixed with
      | true => rfl
      | false =>
        simp only [hfixed, Bool.false_or, beq_iff_eq] at hkeep
        simp only [paint, hkeep]
    rw [if_neg (by omega), hpaint, ite_self]
  · grind

/-- The part of an entry that the range overlaps is cut out and gets the combined type. -/
theorem clrMapRangeAt_paints (type : MtrrType) {tmp : Nat}
    (hroom : ∀ m, Laid fixed ends covered m → m.length ≤ size)
    (hscan : Scanned m i start) (hfixed : (cacheMapAt m i).fixed = false) (hlt : start < tmp)
    (hin : tmp ≤ (cacheMapAt m i).stop) (hstart : ends start) (htmp : ends tmp)
    (hcov : ∀ a, start ≤ a → a < tmp → covered a) :
    ∃ m₁ kept m₂ merges, clrMapRangeAt size m start tmp i = some (m₁, kept) ∧
      addMapEntryAt size m₁ start tmp (getEffectiveType type (cacheMapAt m i).type) (i + kept) =
        some (m₂, merges) ∧
      Laid fixed ends covered m₂ ∧ Scanned m₂ (i + kept + 1 - merges) tmp ∧
      Painted type start tmp m m₂ := by
  have hedit : ∀ m₁ m₂ c, Laid fixed ends covered m₁ → MapEdit m₁ m₂ start tmp c →
      Laid fixed ends covered m₂ := fun m₁ m₂ c h he => h.edit he hstart htmp hcov
  obtain ⟨m₁, kept, hclr, he₁, hscan₁, hdrop⟩ := clrMapRangeAt_spec hlaid.sorted hlt hscan hi hfixed
    hle hin fun m₁ he => hroom m₁ (hedit m m₁ _ hlaid he)
  have hlaid₁ := hedit m m₁ _ hlaid he₁
  obtain ⟨m₂, merges, hadd, he₂, hscan₂, -⟩ := addMapEntryAt_spec hlaid₁.sorted hlt hscan₁ hdrop
    fun m₂ he => hroom m₂ (hedit m₁ m₂ _ hlaid₁ he)
  refine ⟨m₁, kept, m₂, merges, hclr, hadd, hedit m₁ m₂ _ hlaid₁ he₂, hscan₂,
    .of_edit (he₁.trans he₂) fun a hlo hhi => ?_⟩
  rw [hlaid.lookup_cacheMapAt hi hle hlo (hhi.trans_le hin), hfixed]
  rfl

end

theorem addMapEntryFrom_spec (type : MtrrType)
    (hroom : ∀ m, Laid fixed ends covered m → m.length ≤ size) (m : List CacheMap)
    (start i : Nat) (hlaid : Laid fixed ends covered m) (hscan : Scanned m i start)
    (hstart : ends start) (hstop : ends stop) (hcov : ∀ a, start ≤ a → a < stop → covered a) :
    ∃ m', addMapEntryFrom size stop type m start i = some m' ∧ Laid fixed ends covered m' ∧
      Painted type start stop m m' := by
  rw [addMapEntryFrom]
  by_cases hloop : i < m.length ∧ start < stop
  · have ⟨hi, hlt⟩ := hloop
    have hmem := cacheMapAt_mem hi
    rw [dif_pos hloop]
    dsimp only
    by_cases hpast : (cacheMapAt m i).stop ≤ start
    · rw [if_pos hpast]
      exact addMapEntryFrom_spec type hroom m start (i + 1) hlaid (hscan.succ hi hpast) hstart hstop
        hcov
    rw [if_neg hpast]
    have hcurStart : ends (cacheMapAt m i).start := hlaid.boundary _ ⟨_, hmem, .inl rfl⟩
    have hcurStop : ends (cacheMapAt m i).stop := hlaid.boundary _ ⟨_, hmem, .inr rfl⟩
    by_cases hbelow : start < (cacheMapAt m i).start
    · rw [if_pos hbelow]
      have hends : ends (min stop (cacheMapAt m i).start) := min_rec' ends hstop hcurStart
      generalize htmp : min stop (cacheMapAt m i).start = tmp at hends ⊢
      obtain ⟨m₁, merges, hadd, hlaid₁, hscan₁, hpaint⟩ := addMapEntryAt_paints type hroom hlaid
        hscan (by omega) hstart hends (fun a hlo hhi => hcov a hlo (by omega)) fun x hx =>
          (show tmp ≤ (cacheMapAt m i).start by omega).trans
            (start_le_of_mem_drop hlaid.sorted hi hx)
      obtain ⟨m', hrun, hlaid', hrest⟩ := addMapEntryFrom_spec type hroom m₁ tmp (i + 1 - merges)
        hlaid₁ hscan₁ hends hstop fun a hlo hhi => hcov a (by omega) hhi
      exact ⟨m', by rw [hadd]; exact hrun, hlaid', hpaint.trans hrest (by omega) (by omega)⟩
    rw [if_neg hbelow]
    have hle := Nat.le_of_not_lt hbelow
    by_cases hkeep : ((cacheMapAt m i).fixed ||
        getEffectiveType type (cacheMapAt m i).type == (cacheMapAt m i).type) = true
    · obtain ⟨m', hrun, hlaid', hrest⟩ := addMapEntryFrom_spec type hroom m
        (cacheMapAt m i).stop (i + 1) hlaid ((hscan.mono (by omega)).succ hi le_rfl)
        hcurStop hstop fun a hlo hhi => hcov a (by omega) hhi
      rw [if_pos hkeep]
      exact ⟨m', hrun, hlaid', .of_kept hlaid hi hle (by omega) hkeep hrest⟩
    · have hfixed : (cacheMapAt m i).fixed = false := by
        simp only [Bool.or_eq_true, not_or, Bool.not_eq_true] at hkeep
        exact hkeep.1
      rw [if_neg hkeep]
      have hends : ends (min stop (cacheMapAt m i).stop) := min_rec' ends hstop hcurStop
      generalize htmp : min stop (cacheMapAt m i).stop = tmp at hends ⊢
      obtain ⟨m₁, kept, m₂, merges, hclr, hadd, hlaid₂, hscan₂, hpaint⟩ :=
        clrMapRangeAt_paints hlaid hi hle type hroom hscan hfixed (by omega) (by omega) hstart hends
          fun a hlo hhi => hcov a hlo (by omega)
      obtain ⟨m', hrun, hlaid', hrest⟩ := addMapEntryFrom_spec type hroom m₂ tmp
        (i + kept + 1 - merges) hlaid₂ hscan₂ hends hstop fun a hlo hhi => hcov a (by omega) hhi
      refine ⟨m', ?_, hlaid', hpaint.trans hrest (by omega) (by omega)⟩
      rw [hclr]
      simp only [Option.bind_eq_bind, Option.bind_some]
      rw [hadd]
      exact hrun
  · rw [dif_neg hloop]
    by_cases hlt : start < stop
    · -- Add rest of region after last map entry.
      have hend : m.drop i = [] := drop_eq_nil_of_le (by omega)
      obtain ⟨m', merges, hadd, hlaid', -, hpaint⟩ :=
        addMapEntryAt_paints type hroom hlaid hscan hlt hstart hstop hcov (by simp [hend])
      exact ⟨m', by rw [hadd]; rfl, hlaid', hpaint⟩
    · refine ⟨m, ?_, hlaid, fun a => (if_neg (by omega)).symm⟩
      rw [addMapEntryAt, if_pos (by omega)]
      rfl
termination_by (stop - start, m.length - i)

theorem addMapEntry_spec (type : MtrrType)
    (hroom : ∀ m, Laid fixed ends covered m → m.length ≤ size) (hlaid : Laid fixed ends covered m)
    (hstart : ends start) (hstop : ends stop) (hcov : ∀ a, start ≤ a → a < stop → covered a) :
    ∃ m', addMapEntry size m start stop type = some m' ∧ Laid fixed ends covered m' ∧
      Painted type start stop m m' :=
  addMapEntryFrom_spec type hroom m start 0 hlaid ⟨Nat.zero_le _, by simp⟩ hstart hstop hcov

/-- The last entry of the array cannot be merged with a range of this type that starts here. -/
def Unmergeable (m : List CacheMap) (start : Nat) (type : MtrrType) : Prop :=
  ∀ x ∈ m, x.stop = start → x.fixed = true ∨ x.type ≠ type

theorem addMapEntryAt_append (hlt : start < stop)
    (hmerge : Unmergeable m start type) (hsize : m.length < size) :
    addMapEntryAt size m start stop type m.length =
      some (m ++ [⟨start, stop, type, false⟩], 0) := by
  have hinsert : m.insertIdx m.length ⟨start, stop, type, false⟩ =
      m ++ [⟨start, stop, type, false⟩] := by
    have h := insertIdx_length m [] ⟨start, stop, type, false⟩
    rwa [append_nil] at h
  rw [addMapEntryAt, if_neg (by omega)]
  extract_lets prev next mergePrev mergeNext
  have hprev : mergePrev = false := by
    by_contra htrue
    simp only [mergePrev, Bool.not_eq_false, Bool.and_eq_true, decide_eq_true_eq,
      Bool.not_eq_true', beq_iff_eq] at htrue
    have ⟨⟨⟨hpos, hfixed⟩, htouch⟩, htype⟩ := htrue
    rcases hmerge prev (cacheMapAt_mem (by omega)) htouch.symm with h | h
    · simp [h] at hfixed
    · exact h htype.symm
  have hnext : mergeNext = false := by simp [mergeNext]
  rw [hprev, hnext, if_neg (by simp), if_neg (by simp), if_neg (by simp), if_neg (by omega),
    hinsert]

/-- A range behind all entries, which it cannot be merged with, goes to the end of the array. -/
theorem addMapEntryFrom_append (hlt : start < stop)
    (hpast : ∀ x ∈ m, x.stop ≤ start) (hmerge : Unmergeable m start type) (hsize : m.length < size)
    (i : Nat) (hi : i ≤ m.length) :
    addMapEntryFrom size stop type m start i = some (m ++ [⟨start, stop, type, false⟩]) := by
  rw [addMapEntryFrom]
  by_cases hloop : i < m.length ∧ start < stop
  · rw [dif_pos hloop, if_pos (hpast _ (cacheMapAt_mem hloop.1))]
    exact addMapEntryFrom_append hlt hpast hmerge hsize (i + 1) hloop.1
  · have hend : i = m.length := by omega
    rw [dif_neg hloop, hend, addMapEntryAt_append hlt hmerge hsize]
    rfl
termination_by m.length - i

end

end LinuxKernel.X86
