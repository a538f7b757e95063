import LinuxKernel.Lib.ListSort

/-!
# `list_sort` is a stable sort

The pending sublists are a list of lists, threaded through `prev`. Their number is the
number of binary digits of `count`, so the two lists that a round merges always exist;
they are adjacent, the older one is merged first, and so every pending list stays a
stable sort of a contiguous piece of the input.
-/

namespace LinuxKernel.Lib

open Foundation.Linked Foundation.StableSort List

variable {P : Type*}

/-! ## The pending lists -/

/-- From `p`, following `prev` from list head to list head visits exactly `ls`. -/
def Pending (links : Links P) : Option P → List (List P) → Prop
  | p, [] => p = none
  | _, [] :: _ => False
  | p, (h :: t) :: ls =>
    p = some h ∧ Chain links.next (some h) (h :: t) ∧ Pending links (links.prev h) ls

/-- Walking `ls` from the slot `tail` ends at the slot `tail'`. -/
def Reaches (links : Links P) (pending : Option P) : Slot P → List (List P) → Slot P → Prop
  | tail, [], tail' => tail' = tail
  | _, [] :: _, _ => False
  | tail, (h :: t) :: ls, tail' =>
    loadPrev links pending tail = some h ∧ Chain links.next (some h) (h :: t) ∧
      Reaches links pending (.field h) ls tail'

/-- The lists `ls`, newest first, are stable sorts of consecutive pieces of `xs`. -/
def SortedPieces (cmp : P → P → Int) : List P → List (List P) → Prop
  | xs, [] => xs = []
  | xs, l :: ls => ∃ ys zs, xs = ys ++ zs ∧ SortedPieces cmp ys ls ∧
      StableSorted (fun a b => cmp a b ≤ 0) zs l

section
variable {links links' : Links P} {pending p : Option P} {tail tail' : Slot P}
  {l : List P} {ls ls' : List (List P)}

theorem Pending.exists_cons (h : Pending links p (l :: ls)) :
    ∃ x t, l = x :: t ∧ p = some x ∧ Chain links.next (some x) (x :: t) ∧
      Pending links (links.prev x) ls := by
  cases l with
  | nil => exact h.elim
  | cons x t => exact ⟨x, t, rfl, h.1, h.2.1, h.2.2⟩

theorem Pending.congr (h : Pending links p ls)
    (hnext : ∀ x ∈ ls.flatten, links'.next x = links.next x)
    (hprev : ∀ x ∈ ls.flatten, links'.prev x = links.prev x) : Pending links' p ls := by
  induction ls generalizing p with
  | nil => exact h
  | cons l ls ih =>
    obtain ⟨x, t, rfl, hp, hchain, hrest⟩ := h.exists_cons
    simp only [flatten_cons, mem_append] at hnext hprev
    refine ⟨hp, hchain.congr fun y hy => hnext y (.inl hy), ?_⟩
    rw [hprev x (by simp)]
    exact ih hrest (fun y hy => hnext y (.inr hy)) (fun y hy => hprev y (.inr hy))

theorem Pending.length_le (h : Pending links p ls) : ls.length ≤ ls.flatten.length := by
  induction ls generalizing p with
  | nil => simp
  | cons l ls ih =>
    obtain ⟨x, t, rfl, -, -, hrest⟩ := h.exists_cons
    have hle := ih hrest
    simp only [length_cons, flatten_cons, length_append]
    omega

theorem Reaches.slot (h : Reaches links pending tail ls tail') :
    tail' = tail ∨ ∃ q ∈ ls.flatten, tail' = .field q := by
  induction ls generalizing tail with
  | nil => exact .inl h
  | cons l ls ih =>
    cases l with
    | nil => exact h.elim
    | cons x t =>
      refine .inr ?_
      rcases ih h.2.2 with rfl | ⟨q, hq, rfl⟩
      · exact ⟨x, by simp, rfl⟩
      · exact ⟨q, by simp [hq], rfl⟩

variable [DecidableEq P] {v : Option P}

theorem next_storePrev : (storePrev links pending v tail).1.next = links.next := by
  cases tail <;> simp [storePrev]

theorem prev_storePrev {x : P} (hx : tail ≠ .field x) :
    (storePrev links pending v tail).1.prev x = links.prev x := by
  cases tail with
  | var => rfl
  | field q => exact prev_setPrev_of_ne fun h => hx (by rw [h])

theorem loadPrev_storePrev_self :
    loadPrev (storePrev links pending v tail).1 (storePrev links pending v tail).2 tail = v := by
  cases tail <;> simp [storePrev, loadPrev]

theorem loadPrev_storePrev_of_ne (hne : tail' ≠ tail) :
    loadPrev (storePrev links pending v tail').1 (storePrev links pending v tail').2 tail =
      loadPrev links pending tail := by
  cases tail with
  | var =>
    cases tail' with
    | var => exact absurd rfl hne
    | field q => rfl
  | field p => exact prev_storePrev hne

/-- Storing `v` in the slot that a walk over `ls` ended at puts the lists behind `v` in
place of those that followed `ls`. -/
theorem Reaches.store {links₂ : Links P} (h : Reaches links pending tail ls tail')
    (hv : Pending links₂ v ls') (hnodup : (ls ++ ls').flatten.Nodup)
    (htail : ∀ q, tail = .field q → q ∉ (ls ++ ls').flatten)
    (hload : loadPrev links₂ pending tail = loadPrev links pending tail)
    (hnext : ∀ x ∈ ls.flatten, links₂.next x = links.next x)
    (hprev : ∀ x ∈ ls.flatten, links₂.prev x = links.prev x) :
    Pending (storePrev links₂ pending v tail').1
      (loadPrev (storePrev links₂ pending v tail').1 (storePrev links₂ pending v tail').2 tail)
      (ls ++ ls') := by
  induction ls generalizing tail with
  | nil =>
    obtain rfl : tail' = tail := h
    rw [loadPrev_storePrev_self]
    refine hv.congr (fun x _ => by rw [next_storePrev]) fun x hx => prev_storePrev ?_
    exact fun heq => htail x heq hx
  | cons l ls ih =>
    cases l with
    | nil => exact h.elim
    | cons x t =>
      obtain ⟨hx, hchain, hrest⟩ := h
      have hslot : tail' ≠ tail := by
        rintro rfl
        rcases hrest.slot with rfl | ⟨q, hq, rfl⟩
        · exact htail x rfl (by simp)
        · exact htail q rfl (by simp [mem_flatten.mp hq])
      rw [loadPrev_storePrev_of_ne hslot, hload, hx]
      refine ⟨rfl, ?_, ?_⟩
      · rw [next_storePrev]
        exact hchain.congr fun y hy => hnext y (mem_append_left _ hy)
      rw [cons_append, flatten_cons, nodup_append] at hnodup
      have hx' : ∀ q, Slot.field x = .field q → q ∉ (ls ++ ls').flatten := by
        rintro q ⟨⟩ hq
        exact hnodup.2.2 x (by simp) x hq rfl
      exact ih hrest hnodup.2.1 hx' (hprev x (by simp))
        (fun y hy => hnext y (mem_append_right _ hy))
        (fun y hy => hprev y (mem_append_right _ hy))

end

/-! ## The slot that `count` selects -/

theorem size_eq_size_half {n : Nat} (hn : n ≠ 0) : n.size = (n / 2).size + 1 := by
  have hbit : Nat.bit n.bodd n.div2 = n := Nat.bit_bodd_div2 n
  conv_lhs => rw [← hbit]
  exact Nat.size_bit (by rwa [hbit])

theorem size_succ_of_odd {n : Nat} (hn : n % 2 = 1) : (n + 1).size = (n / 2 + 1).size + 1 := by
  rw [size_eq_size_half (by omega), show (n + 1) / 2 = n / 2 + 1 by omega]

theorem size_succ_of_even {n : Nat} (hn : n % 2 = 0) (hpos : n ≠ 0) : (n + 1).size = n.size := by
  rw [size_eq_size_half (by omega), size_eq_size_half hpos, show (n + 1) / 2 = n / 2 by omega]

section
variable {links : Links P} {pending : Option P} {tail : Slot P} {ls : List (List P)}

/-- The walk stops at the lowest clear bit. If a higher bit is set there are two lists
behind the slot, and `count + 1` has as many digits as `count`; otherwise there is
none, and it has one more. -/
theorem findSlot_spec {fuel bits : Nat} (h : Pending links (loadPrev links pending tail) ls)
    (hlen : ls.length = bits.size) (hfuel : bits.size < fuel) :
    ∃ bits' tail' ls₁ ls₂, findSlot links pending fuel bits tail = some (bits', tail') ∧
      ls = ls₁ ++ ls₂ ∧ Reaches links pending tail ls₁ tail' ∧
      Pending links (loadPrev links pending tail') ls₂ ∧
      (bits' = 0 → ls₂ = [] ∧ (bits + 1).size = bits.size + 1) ∧
      (bits' ≠ 0 → 2 ≤ ls₂.length ∧ (bits + 1).size = bits.size) := by
  induction fuel generalizing bits tail ls with
  | zero => omega
  | succ fuel ih =>
    by_cases hodd : bits % 2 = 1
    · have hsize := size_eq_size_half (n := bits) (by omega)
      cases ls with
      | nil => simp at hlen; omega
      | cons l ls =>
        obtain ⟨x, t, rfl, hx, hchain, hrest⟩ := h.exists_cons
        rw [length_cons] at hlen
        have hlen' : ls.length = (bits / 2).size := by omega
        have hrest' : Pending links (loadPrev links pending (.field x)) ls := hrest
        obtain ⟨bits', tail', ls₁, ls₂, hfind, rfl, hreach, hpend, hzero, hpos⟩ :=
          ih hrest' hlen' (by omega)
        refine ⟨bits', tail', (x :: t) :: ls₁, ls₂, ?_, rfl, ⟨hx, hchain, hreach⟩, hpend, ?_, ?_⟩
        · simp only [findSlot, if_pos hodd, hx, hfind]
        · intro hb
          refine ⟨(hzero hb).1, ?_⟩
          rw [size_succ_of_odd hodd, (hzero hb).2, hsize]
        · intro hb
          refine ⟨(hpos hb).1, ?_⟩
          rw [size_succ_of_odd hodd, (hpos hb).2, hsize]
    · refine ⟨bits, tail, [], ls, by simp only [findSlot, if_neg hodd], rfl, rfl, h, ?_, ?_⟩
      · rintro rfl
        exact ⟨length_eq_zero_iff.mp (by simpa using hlen), by simp⟩
      · intro hb
        refine ⟨?_, size_succ_of_even (by omega) hb⟩
        rw [hlen, size_eq_size_half hb, size_eq_size_half (by omega)]
        omega

end

/-! ## Sorted pieces -/

section
variable {cmp : P → P → Int} {xs l la lb : List P} {ls ls₁ : List (List P)}

theorem SortedPieces.perm (h : SortedPieces cmp xs ls) : ls.flatten.Perm xs := by
  induction ls generalizing xs with
  | nil => rw [show xs = [] from h]; simp
  | cons l ls ih =>
    obtain ⟨ys, zs, rfl, hys, hzs⟩ := h
    exact (hzs.perm.append (ih hys)).trans perm_append_comm

theorem SortedPieces.push (h : SortedPieces cmp xs ls) (x : P) :
    SortedPieces cmp (xs ++ [x]) ([x] :: ls) :=
  ⟨xs, [x], rfl, h, stableSorted_singleton x⟩

variable [Std.Total fun a b => cmp a b ≤ 0] [IsTrans P fun a b => cmp a b ≤ 0]

theorem SortedPieces.merge (h : SortedPieces cmp xs (ls₁ ++ la :: lb :: ls)) :
    SortedPieces cmp xs (ls₁ ++ mergeLists cmp lb la :: ls) := by
  induction ls₁ generalizing xs with
  | nil =>
    obtain ⟨ys, zs, rfl, ⟨us, vs, rfl, hus, hvs⟩, hzs⟩ := h
    exact ⟨us, vs ++ zs, by simp, hus, hvs.merge hzs⟩
  | cons l ls₁ ih =>
    obtain ⟨ys, zs, rfl, hys, hzs⟩ := h
    exact ⟨ys, zs, rfl, ih hys, hzs⟩

end

/-! ## One round, and the whole run -/

section
variable [DecidableEq P] {cmp : P → P → Int} {links : Links P} {pending : Option P}
  {head : P} {xs l : List P} {ls : List (List P)}
omit [DecidableEq P] in
theorem mergeLists_eq_cons {as bs : List P} {a m : P}
    (h : Chain links.next (some m) (mergeLists cmp (a :: as) bs)) :
    ∃ ms, mergeLists cmp (a :: as) bs = m :: ms := by
  cases hlist : mergeLists cmp (a :: as) bs with
  | nil => simp [hlist] at h
  | cons m' ms =>
    rw [hlist] at h
    exact ⟨ms, by rw [Option.some.inj h.1]⟩

variable {fuel : Nat}

/-- Merging the two lists in front of the pending ones, and installing the result in
their place, touches no other node. -/
theorem mergeFront_spec (cmp : P → P → Int) {a b : P} {as bs : List P}
    (ha : Chain links.next (some a) (a :: as)) (hb : Chain links.next (some b) (b :: bs))
    (hrest : Pending links (links.prev b) ls)
    (hnodup : (a :: as ++ (b :: bs ++ ls.flatten)).Nodup) (hfuel : as.length + bs.length < fuel) :
    ∃ links₁ m, merge cmp fuel links b a = some (links₁, m) ∧
      Pending (links₁.setPrev m (links₁.prev b)) (some m)
        (mergeLists cmp (b :: bs) (a :: as) :: ls) ∧
      ∀ x, x ∉ a :: as → x ∉ b :: bs → links₁.next x = links.next x ∧
        (links₁.setPrev m (links₁.prev b)).prev x = links.prev x := by
  rw [nodup_append, nodup_append] at hnodup
  obtain ⟨hnda, ⟨hndb, -, hdisb⟩, hdisa⟩ := hnodup
  have hnd : (b :: bs ++ a :: as).Nodup := by
    rw [nodup_append]
    exact ⟨hndb, hnda, fun x hx y hy h => hdisa y hy x (mem_append_left _ hx) h.symm⟩
  have hfuel' : bs.length + as.length < fuel := by omega
  obtain ⟨links₁, m, hmerge, hchain, hprev, hframe⟩ := merge_spec cmp hb ha hnd hfuel'
  have hperm : (mergeLists cmp (b :: bs) (a :: as)).Perm (b :: bs ++ a :: as) := mergeLists_perm
  obtain ⟨ms, hms⟩ := mergeLists_eq_cons hchain
  have hm : m ∈ b :: bs ++ a :: as := by
    rw [← hperm.mem_iff, hms]
    simp
  have hother : ∀ x, x ∉ a :: as → x ∉ b :: bs → links₁.next x = links.next x ∧
      (links₁.setPrev m (links₁.prev b)).prev x = links.prev x := by
    intro x hxa hxb
    have hx : x ∉ b :: bs ++ a :: as := by simp only [mem_append, not_or]; exact ⟨hxb, hxa⟩
    refine ⟨hframe x hx, ?_⟩
    rw [prev_setPrev_of_ne (ne_of_mem_of_not_mem hm hx).symm, hprev]
  refine ⟨links₁, m, hmerge, ?_, hother⟩
  rw [hms] at hchain ⊢
  refine ⟨rfl, hchain, ?_⟩
  rw [prev_setPrev_self]
  have hrest' : Pending links (links₁.prev b) ls := by rwa [hprev]
  have hout : ∀ x ∈ ls.flatten, x ∉ a :: as ∧ x ∉ b :: bs := fun x hx =>
    ⟨fun h => hdisa x h x (mem_append_right _ hx) rfl, fun h => hdisb x h x hx rfl⟩
  apply hrest'.congr
  · exact fun x hx => (hother x (hout x hx).1 (hout x hx).2).1
  · exact fun x hx => (hother x (hout x hx).1 (hout x hx).2).2

variable [Std.Total fun a b => cmp a b ≤ 0] [IsTrans P fun a b => cmp a b ≤ 0]

/-- One round's merge: the lists stay stable sorts of pieces of the same input, and there
is room for one more. -/
theorem mergePending_spec {count : Nat} (hpend : Pending links pending ls)
    (hsorted : SortedPieces cmp xs ls) (hnodup : xs.Nodup) (hlen : ls.length = count.size)
    (hfuel : xs.length < fuel) :
    ∃ links' pending' ls', mergePending cmp fuel links pending count = some (links', pending') ∧
      Pending links' pending' ls' ∧ SortedPieces cmp xs ls' ∧
      ls'.length + 1 = (count + 1).size ∧ ∀ p ∉ xs, links'.next p = links.next p := by
  have hperm := hsorted.perm
  have hcount : count.size < fuel := by
    have hle := hpend.length_le
    rw [hperm.length_eq] at hle
    omega
  have hpend' : Pending links (loadPrev links pending .var) ls := hpend
  obtain ⟨bits, tail, ls₁, ls₂, hfind, rfl, hreach, hslot, hzero, hpos⟩ :=
    findSlot_spec hpend' hlen hcount
  by_cases hbits : bits = 0
  · exact ⟨links, pending, _, by simp [mergePending, hfind, hbits], hpend, hsorted,
      by omega, fun _ _ => rfl⟩
  obtain ⟨htwo, hsize⟩ := hpos hbits
  match ls₂, htwo with
  | la :: lb :: ls₂, _ =>
    obtain ⟨a, as, rfl, ha, hachain, hb⟩ := hslot.exists_cons
    obtain ⟨b, bs, rfl, hb, hbchain, hrest⟩ := hb.exists_cons
    have hnd : (ls₁.flatten ++ ((a :: as) ++ ((b :: bs) ++ ls₂.flatten))).Nodup := by
      simpa using hperm.nodup_iff.mpr hnodup
    rw [nodup_append] at hnd
    obtain ⟨-, hnd₂, hdis⟩ := hnd
    have hlength : as.length + bs.length < fuel := by
      have hle := hperm.length_eq
      simp only [flatten_append, flatten_cons, length_append, length_cons] at hle
      omega
    obtain ⟨links₁, m, hmerge, hfront, hother⟩ :=
      mergeFront_spec cmp hachain hbchain hrest hnd₂ hlength
    have hsorted' := hsorted.merge
    have hout : ∀ x ∈ ls₁.flatten, x ∉ a :: as ∧ x ∉ b :: bs := fun x hx =>
      ⟨fun h => hdis x hx x (mem_append_left _ h) rfl,
        fun h => hdis x hx x (mem_append_right _ (mem_append_left _ h)) rfl⟩
    have hstore := hreach.store hfront (hsorted'.perm.nodup_iff.mpr hnodup) (by simp) rfl
      (fun x hx => (hother x (hout x hx).1 (hout x hx).2).1)
      (fun x hx => (hother x (hout x hx).1 (hout x hx).2).2)
    simp only [loadPrev] at hstore
    refine ⟨_, _, _, ?_, hstore, hsorted', ?_, ?_⟩
    · simp [mergePending, hfind, hbits, ha, hb, hmerge]
    · simp only [length_append, length_cons] at hlen ⊢
      omega
    intro p hp
    rw [next_storePrev]
    have hmem : p ∉ (ls₁ ++ (a :: as) :: (b :: bs) :: ls₂).flatten :=
      fun h => hp (hperm.mem_iff.mp h)
    simp only [flatten_append, flatten_cons, mem_append, not_or] at hmem
    exact (hother p hmem.2.1 hmem.2.2.1).1

variable {x : P}

theorem pendLoop_spec {count : Nat} {rest : List P}
    (hpend : Pending links pending ls) (hsorted : SortedPieces cmp xs ls)
    (hrest : Chain links.next (some x) (x :: rest)) (hnodup : (xs ++ x :: rest).Nodup)
    (hlen : ls.length = count.size) (hfuel : xs.length + 2 * (rest.length + 1) < fuel) :
    ∃ links' newest ls', pendLoop cmp fuel links pending count x = some (links', newest) ∧
      Pending links' (some newest) ls' ∧ SortedPieces cmp (xs ++ x :: rest) ls' ∧
      ls'.length = (count + (rest.length + 1)).size := by
  induction fuel generalizing links pending count x rest xs ls with
  | zero => omega
  | succ fuel ih =>
    obtain ⟨hxs, hndx, hdis⟩ := nodup_append.mp hnodup
    have hfuel₁ : xs.length < fuel := by omega
    obtain ⟨links₁, pending₁, ls₁, hmerge, hpend₁, hsorted₁, hlen₁, hframe⟩ :=
      mergePending_spec hpend hsorted hxs hlen hfuel₁
    have hx : x ∉ xs := fun h => hdis x h x (by simp) rfl
    have hxls : ∀ y ∈ ls₁.flatten, y ≠ x := fun y hy => by
      rintro rfl
      exact hx (hsorted₁.perm.mem_iff.mp hy)
    -- the node moved to the pending lists becomes a list of its own
    have hpend₂ : Pending ((links₁.setPrev x pending₁).setNext x none) (some x) ([x] :: ls₁) := by
      refine ⟨rfl, by simp, ?_⟩
      rw [prev_setNext, prev_setPrev_self]
      apply hpend₁.congr
      · exact fun y hy => next_setNext_of_ne (hxls y hy)
      · exact fun y hy => prev_setPrev_of_ne (hxls y hy)
    have hsorted₂ := hsorted₁.push x
    have hlen₂ : ([x] :: ls₁).length = (count + 1).size := hlen₁
    have hnext : links₁.next x = links.next x := hframe x hx
    cases rest with
    | nil =>
      refine ⟨_, x, _, ?_, hpend₂, hsorted₂, hlen₂⟩
      simp [pendLoop, hmerge, hnext, chain_nil.mp hrest.2]
    | cons y rest =>
      have hchain : Chain ((links₁.setPrev x pending₁).setNext x none).next (some y)
          (y :: rest) := by
        refine Chain.setNext ?_ (nodup_cons.mp hndx).1
        rw [← hrest.2.1]
        refine hrest.2.congr fun z hz => hframe z fun h => ?_
        exact hdis z h z (mem_cons_of_mem _ hz) rfl
      have hnodup₂ : ((xs ++ [x]) ++ y :: rest).Nodup := by simpa using hnodup
      have hfuel₂ : (xs ++ [x]).length + 2 * (rest.length + 1) < fuel := by
        simp only [length_append, length_cons, length_nil] at hfuel ⊢
        omega
      obtain ⟨links', newest, ls', hloop, hpend', hsorted', hlen'⟩ :=
        ih hpend₂ hsorted₂ hchain hnodup₂ hlen₂ hfuel₂
      refine ⟨links', newest, ls', ?_, hpend', by simpa using hsorted', ?_⟩
      · simp [pendLoop, hmerge, hnext, hrest.2.1, hloop]
      · rw [hlen', length_cons]
        congr 1
        omega

omit [DecidableEq P] in
theorem SortedPieces.stableSorted_of_two {la lb : List P} (h : SortedPieces cmp xs [la, lb]) :
    StableSorted (fun a b => cmp a b ≤ 0) xs (mergeLists cmp lb la) := by
  have hmerged : SortedPieces cmp xs ([] ++ [mergeLists cmp lb la]) := SortedPieces.merge h
  obtain ⟨ys, zs, rfl, hys, hzs⟩ := hmerged
  rw [show ys = [] from hys]
  exact hzs

theorem mergeAll_spec {p : P} {t : List P} (hpend : Pending links (some p) ls)
    (hlist : Chain links.next (some x) (x :: t)) (hsorted : SortedPieces cmp xs ((x :: t) :: ls))
    (hnodup : (head :: xs).Nodup) (hfuel : ls.length + xs.length < fuel) :
    ∃ links' ys, mergeAll cmp head fuel links p x = some links' ∧
      StableSorted (fun a b => cmp a b ≤ 0) xs ys ∧ Path links' (head :: (ys ++ [head])) := by
  induction fuel generalizing links p x t ls with
  | zero => omega
  | succ fuel ih =>
    have hperm := hsorted.perm
    have hnd := (hperm.cons head).nodup_iff.mpr hnodup
    have hlength := hperm.length_eq
    cases ls with
    | nil => exact absurd hpend (by simp [Pending])
    | cons l ls =>
      obtain ⟨p', tp, rfl, ⟨⟩, hpchain, hrest⟩ := hpend.exists_cons
      simp only [flatten_cons, length_append, length_cons] at hlength hfuel
      rw [flatten_cons, flatten_cons, ← append_assoc] at hnd
      have hcomm : (p :: tp ++ x :: t).Perm (x :: t ++ p :: tp) := perm_append_comm
      cases ls with
      | nil =>
        rw [flatten_nil, append_nil] at hnd
        have hnd' := (hcomm.cons head).nodup_iff.mpr hnd
        have hfuel' : tp.length + t.length + 1 < fuel := by omega
        obtain ⟨links', hfinal, hclosed⟩ :=
          mergeFinalLoop_spec cmp hpchain hlist hnd' (nodup_cons.mp hnd').1 hfuel'
        have hnone : links.prev p = none := hrest
        refine ⟨links', _, ?_, hsorted.stableSorted_of_two, hclosed.path⟩
        simp [mergeAll, mergeFinal, hnone, hfinal]
      | cons l₂ ls =>
        obtain ⟨q, tq, rfl, hq, hqchain, hqrest⟩ := hrest.exists_cons
        obtain ⟨hndm, -, hdis⟩ := nodup_append.mp (nodup_cons.mp hnd).2
        have hfuel' : tp.length + t.length < fuel := by omega
        obtain ⟨links₁, m, hmerge, hchain, hprev, hframe⟩ :=
          merge_spec cmp hpchain hlist (hcomm.nodup_iff.mpr hndm) hfuel'
        have hpend₁ : Pending links₁ (some q) ((q :: tq) :: ls) := by
          rw [hq] at hrest
          refine hrest.congr (fun y hy => hframe y fun h => ?_) fun y _ => by rw [hprev]
          exact hdis y (hcomm.mem_iff.mp h) y hy rfl
        have hsorted₁ : SortedPieces cmp xs
            ([] ++ mergeLists cmp (p :: tp) (x :: t) :: (q :: tq) :: ls) :=
          SortedPieces.merge hsorted
        obtain ⟨ms, hms⟩ := mergeLists_eq_cons hchain
        rw [hms] at hchain hsorted₁
        obtain ⟨links', ys, hall, hys, hpath⟩ :=
          ih hpend₁ hchain hsorted₁ (by omega)
        refine ⟨links', ys, ?_, hys, hpath⟩
        simp [mergeAll, hq, hmerge, hall]

theorem sortChain_spec (cmp : P → P → Int) [Std.Total fun a b => cmp a b ≤ 0]
    [IsTrans P fun a b => cmp a b ≤ 0] {y : P} {rest : List P}
    (hchain : Chain links.next (some x) (x :: y :: rest))
    (hnodup : (head :: x :: y :: rest).Nodup) (hfuel : 2 * (rest.length + 2) < fuel) :
    ∃ links₁ newest p links' ys, pendLoop cmp fuel links none 0 x = some (links₁, newest) ∧
      links₁.prev newest = some p ∧ mergeAll cmp head fuel links₁ p newest = some links' ∧
      StableSorted (fun a b => cmp a b ≤ 0) (x :: y :: rest) ys ∧
      Path links' (head :: (ys ++ [head])) := by
  have hpend₀ : Pending links none [] := rfl
  have hsorted₀ : SortedPieces cmp [] [] := rfl
  have hlen₀ : ([] : List (List P)).length = (0 : Nat).size := by simp
  have hfuel₀ : ([] : List P).length + 2 * ((y :: rest).length + 1) < fuel := by
    simp only [length_nil, length_cons]
    omega
  obtain ⟨links₁, newest, ls, hloop, hpend, hsorted, hlen⟩ :=
    pendLoop_spec hpend₀ hsorted₀ hchain (nodup_cons.mp hnodup).2 hlen₀ hfuel₀
  have htwo : 2 ≤ ls.length := by
    rw [hlen, size_eq_size_half (by omega), size_eq_size_half]
    · omega
    · simp only [length_cons]
      omega
  match ls, htwo with
  | l :: l₂ :: ls, _ =>
    obtain ⟨x', t, rfl, ⟨⟩, hx', hrest⟩ := hpend.exists_cons
    obtain ⟨p, tp, rfl, hp, -, -⟩ := hrest.exists_cons
    have hle := hpend.length_le
    rw [hsorted.perm.length_eq] at hle
    simp only [nil_append, length_cons] at hle
    rw [hp] at hrest
    have hfuel' : ((p :: tp) :: ls).length + (x :: y :: rest).length < fuel := by
      simp only [length_cons]
      omega
    obtain ⟨links', ys, hall, hys, hpath⟩ := mergeAll_spec hrest hx' hsorted hnodup hfuel'
    exact ⟨links₁, newest, p, links', ys, hloop, hp, hall, hys, hpath⟩

end

/-- For every list and every `cmp` such that `cmp(a, b) <= 0` is a total preorder,
`list_sort` ends with a circular list, read the same by `next` and by `prev`, whose
sequence is a stable sort of the input's. -/
theorem listSort_stable [DecidableEq P] (cmp : P → P → Int)
    (htotal : ∀ a b, cmp a b ≤ 0 ∨ cmp b a ≤ 0)
    (htrans : ∀ a b c, cmp a b ≤ 0 → cmp b c ≤ 0 → cmp a c ≤ 0) (links : Links P) (head : P)
    (xs : List P) (hring : Ring links head xs) (fuel : Nat) (hfuel : 2 * xs.length + 1 < fuel) :
    ∃ links' ys, listSort cmp fuel links head = some links' ∧ Ring links' head ys ∧
      StableSorted (fun a b => cmp a b ≤ 0) xs ys := by
  have : Std.Total fun a b => cmp a b ≤ 0 := ⟨htotal⟩
  have : IsTrans P fun a b => cmp a b ≤ 0 := ⟨htrans⟩
  match xs, hring with
  | [], hring =>
    obtain ⟨hnext, hprev⟩ := (path_cons_cons.mp hring.path).1
    refine ⟨links, [], ?_, hring, stableSorted_nil⟩
    simp [listSort, hnext, hprev]
  | [x], hring =>
    obtain ⟨⟨hnext, -⟩, hpath⟩ := path_cons_cons.mp hring.path
    obtain ⟨⟨-, hprev⟩, -⟩ := path_cons_cons.mp hpath
    refine ⟨links, [x], ?_, hring, stableSorted_singleton x⟩
    simp [listSort, hnext, hprev]
  | x :: y :: rest, hring =>
    obtain ⟨front, last, hlast⟩ : ∃ front last, y :: rest = front ++ [last] :=
      ⟨_, _, (dropLast_append_getLast (by simp)).symm⟩
    rw [hlast] at hring hfuel ⊢
    have hnodup := hring.nodup
    have hnd := (nodup_cons.mp hnodup).2
    have hxlast : last ∉ x :: front := by
      rw [← cons_append, nodup_append] at hnd
      exact fun hmem => hnd.2.2 last hmem last (by simp) rfl
    obtain ⟨⟨hnext, -⟩, hpath⟩ := path_cons_cons.mp hring.path
    have hring' : Path links ((head :: x :: front) ++ [last, head]) := by simpa using hring.path
    have hprev : links.prev head = some last := hring'.prev_last
    have hcut : Path links ((x :: (front ++ [last])) ++ [head]) := by simpa using hpath
    have hchain := hcut.left_of_append.chain_setNext hxlast
    rw [← hlast] at hchain hnodup hfuel ⊢
    have hfuel' : 2 * (rest.length + 2) < fuel := by
      simp only [length_cons] at hfuel
      omega
    obtain ⟨links₁, newest, p, links', ys, hloop, hp, hall, hys, hpath'⟩ :=
      sortChain_spec cmp hchain hnodup hfuel'
    refine ⟨links', ys, ?_, ⟨?_, hpath'⟩, hys⟩
    · have hne : ¬x = last := fun h => hxlast (by simp [h])
      simp [listSort, hnext, hprev, hne, hloop, hp, hall]
    · exact (hys.perm.cons head).nodup_iff.mpr hnodup

/-- Three nodes 0, 1, 2 behind the head 3, with the keys 2, 1, 1. -/
def threeNodes : Links (Fin 4) where
  next i := some (i + 1)
  prev i := some (i - 1)

def keyCmp (a b : Fin 4) : Int :=
  [2, 1, 1, 0].getD a 0 - [2, 1, 1, 0].getD b 0

theorem listSort_stable_threeNodes :
    ∃ links' ys, listSort keyCmp 8 threeNodes 3 = some links' ∧ Ring links' 3 ys ∧
      StableSorted (fun a b => keyCmp a b ≤ 0) [0, 1, 2] ys :=
  listSort_stable keyCmp (by decide) (by decide) threeNodes 3 [0, 1, 2]
    ⟨by decide, by unfold Foundation.Linked.Path; decide⟩ 8 (by decide)

end LinuxKernel.Lib
