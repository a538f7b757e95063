import LinuxKernel.Foundation.Linked
import LinuxKernel.Foundation.StableSort

/-!
# `list_sort`

The bottom-up merge sort of `tools/lib/list_sort.c` over a heap of `struct list_head`
links. A `struct list_head **` is a slot: either the local variable it was set to the
address of, or a link field of a node. Loops take fuel; running out of it, like
following a NULL pointer, yields `none`.
-/

namespace LinuxKernel.Lib

open Foundation.Linked Foundation.StableSort List

variable {P : Type*} [DecidableEq P]

/-! ## The model -/

/-- A `struct list_head **`: `&head`/`&pending`, or the address of a link of a node. -/
inductive Slot (P : Type*) where
  | var
  | field (p : P)

def storeNext (links : Links P) (head : Option P) (v : Option P) : Slot P → Links P × Option P
  | .var => (links, v)
  | .field p => (links.setNext p v, head)

def mergeLoop (cmp : P → P → Int) : Nat → Links P → Option P → Slot P → P → P →
    Option (Links P × Option P)
  | 0, _, _, _, _, _ => none
  | fuel + 1, links, head, tail, a, b =>
    -- if equal, take `a`: this is what makes the sort stable
    if cmp a b ≤ 0 then
      let (links, head) := storeNext links head (some a) tail
      match links.next a with
      | none => some (storeNext links head (some b) (.field a))
      | some a' => mergeLoop cmp fuel links head (.field a) a' b
    else
      let (links, head) := storeNext links head (some b) tail
      match links.next b with
      | none => some (storeNext links head (some a) (.field b))
      | some b' => mergeLoop cmp fuel links head (.field b) a b'

def merge (cmp : P → P → Int) (fuel : Nat) (links : Links P) (a b : P) :
    Option (Links P × P) := do
  let (links, head) ← mergeLoop cmp fuel links none .var a b
  let head ← head
  return (links, head)

/-- `merge_final`: relinking what is left of one list behind `tail`, then closing the
ring. The extra `cmp(priv, b, b)` calls have no effect on the links. -/
def mergeFinalRest (head : P) : Nat → Links P → P → P → Option (Links P)
  | 0, _, _, _ => none
  | fuel + 1, links, tail, b =>
    let links := links.setPrev b (some tail)
    match links.next b with
    | none => some ((links.setNext b (some head)).setPrev head (some b))
    | some b' => mergeFinalRest head fuel links b b'

def linkAfter (links : Links P) (tail a : P) : Links P :=
  (links.setNext tail (some a)).setPrev a (some tail)

def mergeFinalLoop (cmp : P → P → Int) (head : P) : Nat → Links P → P → P → P → Option (Links P)
  | 0, _, _, _, _ => none
  | fuel + 1, links, tail, a, b =>
    if cmp a b ≤ 0 then
      let links := linkAfter links tail a
      match links.next a with
      | none => mergeFinalRest head fuel (links.setNext a (some b)) a b
      | some a' => mergeFinalLoop cmp head fuel links a a' b
    else
      let links := linkAfter links tail b
      match links.next b with
      | none => mergeFinalRest head fuel (links.setNext b (some a)) b a
      | some b' => mergeFinalLoop cmp head fuel links b a b'

def mergeFinal (cmp : P → P → Int) (fuel : Nat) (links : Links P) (head a b : P) :
    Option (Links P) :=
  mergeFinalLoop cmp head fuel links head a b

def loadPrev (links : Links P) (pending : Option P) : Slot P → Option P
  | .var => pending
  | .field p => links.prev p

def storePrev (links : Links P) (pending : Option P) (v : Option P) : Slot P → Links P × Option P
  | .var => (links, v)
  | .field p => (links.setPrev p v, pending)

/-- `for (bits = count; bits & 1; bits >>= 1) tail = &(*tail)->prev;` -/
def findSlot (links : Links P) (pending : Option P) : Nat → Nat → Slot P → Option (Nat × Slot P)
  | 0, _, _ => none
  | fuel + 1, bits, tail =>
    if bits % 2 = 1 then
      match loadPrev links pending tail with
      | none => none
      | some p => findSlot links pending fuel (bits / 2) (.field p)
    else some (bits, tail)

def mergePending (cmp : P → P → Int) (fuel : Nat) (links : Links P) (pending : Option P)
    (count : Nat) : Option (Links P × Option P) := do
  let (bits, tail) ← findSlot links pending fuel count .var
  if bits ≠ 0 then
    let a ← loadPrev links pending tail
    let b ← links.prev a
    let (links, a) ← merge cmp fuel links b a
    let links := links.setPrev a (links.prev b)
    return storePrev links pending (some a) tail
  else
    return (links, pending)

/-- The `do … while (list)` loop; returns the links and the newest pending list. -/
def pendLoop (cmp : P → P → Int) : Nat → Links P → Option P → Nat → P → Option (Links P × P)
  | 0, _, _, _, _ => none
  | fuel + 1, links, pending, count, list => do
      let (links, pending) ← mergePending cmp fuel links pending count
      let links := links.setPrev list pending
      let rest := links.next list
      let links := links.setNext list none
      match rest with
      | none => return (links, list)
      | some rest => pendLoop cmp fuel links (some list) (count + 1) rest

/-- The final `for (;;)` over the pending lists, and `merge_final`. -/
def mergeAll (cmp : P → P → Int) (head : P) : Nat → Links P → P → P → Option (Links P)
  | 0, _, _, _ => none
  | fuel + 1, links, pending, list =>
    match links.prev pending with
    | none => mergeFinal cmp fuel links head pending list
    | some next => do
        let (links, list) ← merge cmp fuel links pending list
        mergeAll cmp head fuel links next list

def listSort (cmp : P → P → Int) (fuel : Nat) (links : Links P) (head : P) :
    Option (Links P) := do
  if links.next head = links.prev head then
    return links
  let list ← links.next head
  let last ← links.prev head
  let links := links.setNext last none
  let (links, list) ← pendLoop cmp fuel links none 0 list
  let pending ← links.prev list
  mergeAll cmp head fuel links pending list

/-! ## `merge` -/

/-- What merging two lists of nodes yields: on ties the element of the first one. -/
def mergeLists (cmp : P → P → Int) (as bs : List P) : List P :=
  as.merge bs fun a b => decide (cmp a b ≤ 0)

section

omit [DecidableEq P]

variable {cmp : P → P → Int} {a b x : P} {as bs : List P}

theorem mergeLists_cons_cons : mergeLists cmp (a :: as) (b :: bs) =
    if cmp a b ≤ 0 then a :: mergeLists cmp as (b :: bs)
    else b :: mergeLists cmp (a :: as) bs := by
  simp [mergeLists, cons_merge_cons]

@[simp]
theorem mergeLists_nil_left : mergeLists cmp [] bs = bs := by simp [mergeLists]

@[simp]
theorem mergeLists_nil_right : mergeLists cmp as [] = as := by simp [mergeLists]

theorem mergeLists_perm : (mergeLists cmp as bs).Perm (as ++ bs) := merge_perm_append _

end

def loadNext (links : Links P) (head : Option P) : Slot P → Option P
  | .var => head
  | .field p => links.next p

/-- From `links` and `head`, the loop has written `vs` behind the slot `tail`, touching
only the `next` links of `zs` and the slot itself. -/
structure Spliced (links : Links P) (head : Option P) (tail : Slot P) (zs vs : List P)
    (out : Links P × Option P) : Prop where
  chain : Chain out.1.next (loadNext out.1 out.2 tail) vs
  prev : out.1.prev = links.prev
  frame : ∀ p ∉ zs, tail ≠ .field p → out.1.next p = links.next p
  head : tail ≠ .var → out.2 = head

variable {fuel : Nat} {v : Option P}

section
variable {cmp : P → P → Int} {links : Links P} {head : Option P} {tail : Slot P} {a b : P}
  {as bs zs vs : List P} {out : Links P × Option P}

theorem prev_storeNext : (storeNext links head v tail).1.prev = links.prev := by
  cases tail <;> simp [storeNext]

theorem next_storeNext {p : P} (hp : tail ≠ .field p) :
    (storeNext links head v tail).1.next p = links.next p := by
  cases tail with
  | var => rfl
  | field q => exact next_setNext_of_ne (fun h => hp (by rw [h]))

theorem head_storeNext (htail : tail ≠ .var) : (storeNext links head v tail).2 = head := by
  cases tail with
  | var => exact absurd rfl htail
  | field q => rfl

omit [DecidableEq P] in
theorem loadNext_congr {links' : Links P} {head' : Option P}
    (hnext : ∀ p, tail = .field p → links'.next p = links.next p)
    (hhead : tail = .var → head' = head) :
    loadNext links' head' tail = loadNext links head tail := by
  cases tail with
  | var => exact hhead rfl
  | field p => exact hnext p rfl

theorem spliced_rest (hb : Chain links.next (some b) bs) (ha : a ∉ bs) :
    Spliced links head (.field a) zs bs (storeNext links head (some b) (.field a)) where
  chain := by
    simp only [storeNext, loadNext, next_setNext_self]
    exact hb.setNext ha
  prev := prev_storeNext
  frame _ _ hp := next_storeNext hp
  head := head_storeNext

theorem Spliced.cons
    (h : Spliced (storeNext links head (some a) tail).1 (storeNext links head (some a) tail).2
      (.field a) zs vs out) (htail : ∀ p, tail = .field p → p ∉ a :: zs) :
    Spliced links head tail (a :: zs) (a :: vs) out where
  chain := by
    -- the later stores hit neither the slot nor the local variable
    have hload : loadNext out.1 out.2 tail = some a := by
      calc loadNext out.1 out.2 tail
          = loadNext (storeNext links head (some a) tail).1
              (storeNext links head (some a) tail).2 tail := by
            apply loadNext_congr
            · intro p hp
              have hmem := htail p hp
              rw [mem_cons, not_or] at hmem
              exact h.frame p hmem.2 (by simpa using Ne.symm hmem.1)
            · exact fun _ => h.head (by simp)
        _ = some a := by cases tail <;> simp [storeNext, loadNext]
    exact ⟨hload, h.chain⟩
  prev := h.prev.trans prev_storeNext
  frame p hp hne := by
    rw [mem_cons, not_or] at hp
    rw [h.frame p hp.2 (by simpa using Ne.symm hp.1), next_storeNext hne]
  head hne := (h.head (by simp)).trans (head_storeNext hne)

omit [DecidableEq P] in
theorem Spliced.perm {zs' : List P} (h : Spliced links head tail zs vs out) (hperm : zs.Perm zs') :
    Spliced links head tail zs' vs out :=
  { h with frame := fun p hp => h.frame p (mt hperm.mem_iff.mp hp) }

omit [DecidableEq P] in
theorem chain_taken {links' : Links P} (ha : Chain links.next (some a) (a :: as))
    (hb : Chain links.next (some b) bs)
    (hkeep : ∀ x ∈ a :: (as ++ bs), links'.next x = links.next x) :
    links'.next a = links.next a ∧ Chain links'.next (links.next a) as ∧
      Chain links'.next (some b) bs :=
  ⟨hkeep a (by simp), ha.2.congr fun x hx => hkeep x (by simp [hx]),
    hb.congr fun x hx => hkeep x (by simp [hx])⟩

theorem store_taken (head : Option P) (ha : Chain links.next (some a) (a :: as))
    (hb : Chain links.next (some b) bs) (htail : ∀ p, tail = .field p → p ∉ a :: (as ++ bs)) :
    (storeNext links head (some a) tail).1.next a = links.next a ∧
      Chain (storeNext links head (some a) tail).1.next (links.next a) as ∧
      Chain (storeNext links head (some a) tail).1.next (some b) bs :=
  chain_taken ha hb fun x hx => next_storeNext fun heq => htail x heq hx

theorem mergeLoop_spec (cmp : P → P → Int) (head : Option P) (tail : Slot P)
    (ha : Chain links.next (some a) (a :: as)) (hb : Chain links.next (some b) (b :: bs))
    (hnodup : (a :: as ++ b :: bs).Nodup) (htail : ∀ p, tail = .field p → p ∉ a :: as ++ b :: bs)
    (hfuel : as.length + bs.length < fuel) :
    ∃ out, mergeLoop cmp fuel links head tail a b = some out ∧
      Spliced links head tail (a :: as ++ b :: bs) (mergeLists cmp (a :: as) (b :: bs)) out := by
  induction fuel generalizing links head tail a b as bs with
  | zero => omega
  | succ fuel ih =>
    rw [mergeLists_cons_cons]
    by_cases hle : cmp a b ≤ 0
    · obtain ⟨hnext, has, hbs⟩ := store_taken head ha hb htail
      have hnd := nodup_cons.mp hnodup
      simp only [mergeLoop, if_pos hle, hnext]
      cases as with
      | nil =>
        rw [chain_nil.mp ha.2, mergeLists_nil_left]
        exact ⟨_, rfl, (spliced_rest hbs hnd.1).cons htail⟩
      | cons a₂ as =>
        rw [ha.2.1] at has ⊢
        simp only [length_cons] at hfuel
        have htail₂ : ∀ p, Slot.field a = .field p → p ∉ a₂ :: as ++ b :: bs := by
          rintro p ⟨⟩
          exact hnd.1
        obtain ⟨out, hout, hspl⟩ := ih _ _ has hbs hnd.2 htail₂ (by omega)
        exact ⟨out, hout, hspl.cons htail⟩
    · have hperm : (a :: as ++ b :: bs).Perm (b :: (bs ++ a :: as)) := perm_append_comm
      have htail' : ∀ p, tail = .field p → p ∉ b :: (bs ++ a :: as) :=
        fun p hp hmem => htail p hp (hperm.mem_iff.mpr hmem)
      obtain ⟨hnext, hbs, has⟩ := store_taken head hb ha htail'
      have hnd := nodup_cons.mp (hperm.nodup_iff.mp hnodup)
      simp only [mergeLoop, if_neg hle, hnext]
      cases bs with
      | nil =>
        rw [chain_nil.mp hb.2, mergeLists_nil_right]
        exact ⟨_, rfl, ((spliced_rest has hnd.1).cons htail').perm hperm.symm⟩
      | cons b₂ bs =>
        rw [hb.2.1] at hbs ⊢
        simp only [length_cons] at hfuel
        have hcomm : (a :: as ++ b₂ :: bs).Perm (b₂ :: bs ++ a :: as) :=
          perm_append_comm
        have htail₂ : ∀ p, Slot.field b = .field p → p ∉ a :: as ++ b₂ :: bs := by
          rintro p ⟨⟩
          exact fun hmem => hnd.1 (hcomm.mem_iff.mp hmem)
        obtain ⟨out, hout, hspl⟩ := ih (storeNext links head (some b) tail).2 (.field b) has
          hbs (hcomm.nodup_iff.mpr hnd.2) htail₂ (by omega)
        exact ⟨out, hout, ((hspl.perm hcomm).cons htail').perm hperm.symm⟩

/-- `merge` returns the merged list; it writes only the `next` links of its two inputs. -/
theorem merge_spec (cmp : P → P → Int) (ha : Chain links.next (some a) (a :: as))
    (hb : Chain links.next (some b) (b :: bs)) (hnodup : (a :: as ++ b :: bs).Nodup)
    (hfuel : as.length + bs.length < fuel) :
    ∃ links' m, merge cmp fuel links a b = some (links', m) ∧
      Chain links'.next (some m) (mergeLists cmp (a :: as) (b :: bs)) ∧ links'.prev = links.prev ∧
      ∀ p ∉ a :: as ++ b :: bs, links'.next p = links.next p := by
  obtain ⟨⟨links', head⟩, hloop, hspl⟩ :=
    mergeLoop_spec cmp none .var ha hb hnodup (by simp) hfuel
  obtain ⟨m, rfl⟩ : ∃ m, head = some m := by
    have hchain := hspl.chain
    rw [mergeLists_cons_cons] at hchain
    split at hchain
    · exact ⟨a, hchain.1⟩
    · exact ⟨b, hchain.1⟩
  refine ⟨links', m, by simp [merge, hloop], hspl.chain, hspl.prev, fun p hp => ?_⟩
  exact hspl.frame p hp (by simp)

end

/-! ## `merge_final` -/

/-- `links'` is `links` with the nodes `vs` linked, both ways, from `tail` to `head`. -/
structure Closed (links : Links P) (head tail : P) (vs : List P) (links' : Links P) : Prop where
  path : Path links' (tail :: (vs ++ [head]))
  next : ∀ p ∉ tail :: vs, links'.next p = links.next p
  prev : ∀ p ∉ head :: vs, links'.prev p = links.prev p

section
variable {cmp : P → P → Int} {links links' : Links P} {head tail a b : P} {as bs vs : List P}

theorem closed_nil : Closed links head tail []
    ((links.setNext tail (some head)).setPrev head (some tail)) where
  path := by simp
  next p hp := next_setNext_of_ne (by simpa using hp)
  prev p hp := prev_setPrev_of_ne (by simpa using hp)

omit [DecidableEq P] in
theorem Closed.cons {links₁ : Links P} (h : Closed links₁ head a vs links')
    (hnext : links₁.next tail = some a) (hnext' : ∀ p, p ≠ tail → links₁.next p = links.next p)
    (hprev : links₁.prev a = some tail) (hprev' : ∀ p, p ≠ a → links₁.prev p = links.prev p)
    (htail : tail ∉ a :: vs) (ha : a ∉ head :: vs) : Closed links head tail (a :: vs) links' where
  path := by
    refine path_cons_cons.mpr ⟨⟨?_, ?_⟩, h.path⟩
    · rw [h.next tail htail, hnext]
    · rw [h.prev a ha, hprev]
  next p hp := by
    rw [mem_cons, not_or] at hp
    rw [h.next p hp.2, hnext' p hp.1]
  prev p hp := by
    simp only [mem_cons, not_or] at hp
    rw [h.prev p (by simp [hp]), hprev' p hp.2.1]

theorem mergeFinalRest_spec (hb : Chain links.next (some b) (b :: bs))
    (hnext : links.next tail = some b) (hnodup : (tail :: b :: bs).Nodup)
    (hhead : head ∉ b :: bs) (hfuel : bs.length < fuel) :
    ∃ links', mergeFinalRest head fuel links tail b = some links' ∧
      Closed links head tail (b :: bs) links' := by
  induction fuel generalizing links tail b bs with
  | zero => omega
  | succ fuel ih =>
    have htail := (nodup_cons.mp hnodup).1
    have hnodup' := (nodup_cons.mp hnodup).2
    have hb' : b ∉ head :: bs := by
      simp only [mem_cons, not_or] at hhead ⊢
      exact ⟨Ne.symm hhead.1, (nodup_cons.mp hnodup').1⟩
    have hcons : ∀ links', Closed (links.setPrev b (some tail)) head b bs links' →
        Closed links head tail (b :: bs) links' := fun links' h =>
      h.cons hnext (fun _ _ => rfl) (by simp) (fun _ hp => prev_setPrev_of_ne hp) htail hb'
    simp only [mergeFinalRest, next_setPrev]
    cases bs with
    | nil =>
      rw [chain_nil.mp hb.2]
      exact ⟨_, rfl, hcons _ closed_nil⟩
    | cons b₂ bs =>
      rw [hb.2.1]
      simp only [length_cons] at hfuel
      simp only [mem_cons, not_or] at hhead
      have hbs : Chain (links.setPrev b (some tail)).next (some b₂) (b₂ :: bs) :=
        ⟨rfl, hb.2.2⟩
      obtain ⟨links', hrest, hclosed⟩ :=
        ih hbs hb.2.1 hnodup' (by simp [hhead]) (by omega)
      exact ⟨links', hrest, hcons _ hclosed⟩

theorem Closed.of_setNext (h : Closed (links.setNext tail v) head tail vs links') :
    Closed links head tail vs links' :=
  { h with
    next := fun p hp => by
      rw [h.next p hp]
      exact next_setNext_of_ne (by simp only [mem_cons, not_or] at hp; exact hp.1) }

theorem mergeFinalRest_setNext (hb : Chain links.next (some b) (b :: bs))
    (hnodup : (tail :: b :: bs).Nodup) (hhead : head ∉ b :: bs) (hfuel : bs.length < fuel) :
    ∃ links', mergeFinalRest head fuel (links.setNext tail (some b)) tail b = some links' ∧
      Closed links head tail (b :: bs) links' := by
  obtain ⟨links', hrest, hclosed⟩ := mergeFinalRest_spec
    (hb.setNext (nodup_cons.mp hnodup).1) (next_setNext_self _ _ _) hnodup hhead hfuel
  exact ⟨links', hrest, hclosed.of_setNext⟩

theorem linkAfter_taken (ha : Chain links.next (some a) (a :: as))
    (hb : Chain links.next (some b) bs) (htail : tail ∉ a :: (as ++ bs)) :
    (linkAfter links tail a).next a = links.next a ∧
      Chain (linkAfter links tail a).next (links.next a) as ∧
      Chain (linkAfter links tail a).next (some b) bs :=
  chain_taken ha hb fun _ hx => next_setNext_of_ne (ne_of_mem_of_not_mem hx htail)

theorem Closed.linkAfter {rest : List P} (h : Closed (linkAfter links tail a) head a vs links')
    (hperm : vs.Perm rest) (htail : tail ∉ a :: rest) (hhead : head ∉ a :: rest) (ha : a ∉ rest) :
    Closed links head tail (a :: vs) links' := by
  apply h.cons
  · simp [Lib.linkAfter]
  · exact fun p hp => next_setNext_of_ne hp
  · simp [Lib.linkAfter]
  · exact fun p hp => prev_setPrev_of_ne hp
  · exact mt (hperm.cons a).mem_iff.mp htail
  · rw [mem_cons, hperm.mem_iff, not_or]
    exact ⟨fun heq => hhead (by simp [heq]), ha⟩

theorem mergeFinalLoop_spec (cmp : P → P → Int)
    (ha : Chain links.next (some a) (a :: as)) (hb : Chain links.next (some b) (b :: bs))
    (hnodup : (tail :: (a :: as ++ b :: bs)).Nodup) (hhead : head ∉ a :: as ++ b :: bs)
    (hfuel : as.length + bs.length + 1 < fuel) :
    ∃ links', mergeFinalLoop cmp head fuel links tail a b = some links' ∧
      Closed links head tail (mergeLists cmp (a :: as) (b :: bs)) links' := by
  induction fuel generalizing links tail a b as bs with
  | zero => omega
  | succ fuel ih =>
    obtain ⟨htail, hnodup'⟩ := nodup_cons.mp hnodup
    rw [mergeLists_cons_cons]
    by_cases hle : cmp a b ≤ 0
    · obtain ⟨hnext, has, hbs⟩ := linkAfter_taken ha hb htail
      have hnd := nodup_cons.mp hnodup'
      simp only [mergeFinalLoop, if_pos hle, hnext]
      cases as with
      | nil =>
        rw [chain_nil.mp ha.2]
        obtain ⟨links', hrest, hclosed⟩ := mergeFinalRest_setNext hbs hnodup'
          (fun h => hhead (mem_cons_of_mem _ h)) (by simp at hfuel; omega)
        rw [mergeLists_nil_left]
        exact ⟨links', hrest, hclosed.linkAfter (.refl _) htail hhead hnd.1⟩
      | cons a₂ as =>
        rw [ha.2.1] at has ⊢
        simp only [length_cons] at hfuel
        obtain ⟨links', hloop, hclosed⟩ :=
          ih has hbs hnodup' (fun h => hhead (mem_cons_of_mem _ h)) (by omega)
        exact ⟨links', hloop, hclosed.linkAfter mergeLists_perm htail hhead hnd.1⟩
    · have hperm : (a :: as ++ b :: bs).Perm (b :: (bs ++ a :: as)) := perm_append_comm
      have htail' : tail ∉ b :: (bs ++ a :: as) := fun h => htail (hperm.mem_iff.mpr h)
      have hhead' : head ∉ b :: (bs ++ a :: as) := fun h => hhead (hperm.mem_iff.mpr h)
      obtain ⟨hnext, hbs, has⟩ := linkAfter_taken hb ha htail'
      have hnodup₂ := hperm.nodup_iff.mp hnodup'
      have hnd := nodup_cons.mp hnodup₂
      simp only [mergeFinalLoop, if_neg hle, hnext]
      cases bs with
      | nil =>
        rw [chain_nil.mp hb.2]
        obtain ⟨links', hrest, hclosed⟩ := mergeFinalRest_setNext has hnodup₂
          (fun h => hhead' (mem_cons_of_mem _ h)) (by simp at hfuel; omega)
        rw [mergeLists_nil_right]
        exact ⟨links', hrest, hclosed.linkAfter (.refl _) htail' hhead' hnd.1⟩
      | cons b₂ bs =>
        rw [hb.2.1] at hbs ⊢
        simp only [length_cons] at hfuel
        have hcomm : (b :: (a :: as ++ b₂ :: bs)).Perm (b :: (b₂ :: bs ++ a :: as)) :=
          perm_append_comm.cons b
        obtain ⟨links', hloop, hclosed⟩ := ih has hbs (hcomm.nodup_iff.mpr hnodup₂)
          (fun h => hhead' (hcomm.mem_iff.mp (mem_cons_of_mem _ h))) (by omega)
        exact ⟨links', hloop, hclosed.linkAfter (mergeLists_perm.trans perm_append_comm)
          htail' hhead' hnd.1⟩

end

end LinuxKernel.Lib
