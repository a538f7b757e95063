import Mathlib

/-!
# Chained buckets

A bucket array is a list of chains, and an index function says in which chain
an element belongs. The operations of a chained hash table are edits of one
chain; each of them is described here by what it does to the concatenation of
all chains, up to permutation, and by whether it keeps every element in the
chain its index names.
-/

namespace LinuxKernel.Foundation.Buckets

open List hiding getElem?_eq_some_iff

variable {α : Type*}

def Placed (idx : α → Nat) (bs : List (List α)) : Prop :=
  ∀ i chain, bs[i]? = some chain → ∀ x ∈ chain, idx x = i

def place (bs : List (List α)) (i : Nat) (x : α) : List (List α) :=
  bs.modify i (x :: ·)

/-- Link the elements of `xs`, one after the other, into `n` empty chains. -/
def rehash (idx : α → Nat) (n : Nat) (xs : List α) : List (List α) :=
  xs.foldl (fun bs x => place bs (idx x) x) (List.replicate n [])

variable {bs : List (List α)} {i : Nat} {chain : List α}

/-- One chain is a segment of the concatenation, and editing the chain edits
that segment only. -/
theorem flatten_modify (hchain : bs[i]? = some chain) : ∃ l r, bs.flatten = l ++ chain ++ r ∧
      ∀ g : List α → List α, (bs.modify i g).flatten = l ++ g chain ++ r := by
  induction bs generalizing i with
  | nil => simp at hchain
  | cons b bs ih =>
    cases i with
    | zero =>
      obtain rfl : b = chain := by simpa using hchain
      exact ⟨[], bs.flatten, by simp, fun g => by simp⟩
    | succ i =>
      obtain ⟨l, r, hflat, hmod⟩ := ih (by simpa using hchain)
      refine ⟨b ++ l, r, by simp [hflat], fun g => ?_⟩
      simp [hmod]

variable {x : α}

theorem split_of_getElem? (hx : chain[i]? = some x) :
    ∃ l r, chain = l ++ x :: r ∧ l.length = i := by
  obtain ⟨hi, rfl⟩ := List.getElem?_eq_some_iff.mp hx
  refine ⟨chain.take i, chain.drop (i + 1), ?_, by simp; omega⟩
  simp

theorem flatten_modify_set {j : Nat} (hchain : bs[i]? = some chain) (hx : chain[j]? = some x) :
    ∃ l r, bs.flatten = l ++ x :: r ∧
      ∀ y, (bs.modify i fun chain => chain.set j y).flatten = l ++ y :: r := by
  obtain ⟨l, r, hflat, hmod⟩ := flatten_modify hchain
  obtain ⟨l', r', rfl, rfl⟩ := split_of_getElem? hx
  refine ⟨l ++ l', r' ++ r, by simp [hflat], fun y => ?_⟩
  rw [hmod]
  simp

theorem flatten_modify_eraseIdx {j : Nat} (hchain : bs[i]? = some chain) (hx : chain[j]? = some x) :
    bs.flatten.Perm (x :: (bs.modify i fun chain => chain.eraseIdx j).flatten) := by
  obtain ⟨l, r, hflat, hmod⟩ := flatten_modify hchain
  obtain ⟨l', r', rfl, rfl⟩ := split_of_getElem? hx
  rw [hmod, hflat, eraseIdx_append_of_length_le (Nat.le_refl _)]
  have hmiddle : ((l ++ l') ++ x :: (r' ++ r)).Perm (x :: ((l ++ l') ++ (r' ++ r))) :=
    perm_middle
  simpa using hmiddle

theorem mem_flatten_of_getElem? (hchain : bs[i]? = some chain) (hx : x ∈ chain) : x ∈ bs.flatten :=
  mem_flatten.mpr ⟨chain, mem_of_getElem? hchain, hx⟩

variable {idx : α → Nat}

theorem mem_chain_of_placed (hplaced : Placed idx bs) (hx : x ∈ bs.flatten) :
    ∃ chain, bs[idx x]? = some chain ∧ x ∈ chain := by
  obtain ⟨chain, hmem, hx⟩ := mem_flatten.mp hx
  obtain ⟨i, hi⟩ := getElem?_of_mem hmem
  rw [hplaced i chain hi x hx]
  exact ⟨chain, hi, hx⟩

variable {g : List α → List α}

theorem Placed.modify (hplaced : Placed idx bs)
    (hg : ∀ chain, bs[i]? = some chain → ∀ x ∈ g chain, idx x = i) :
    Placed idx (bs.modify i g) := by
  intro j chain hchain x hx
  by_cases hij : i = j
  · subst hij
    cases hb : bs[i]? with
    | none => simp [hb] at hchain
    | some old =>
      obtain rfl : g old = chain := by simpa [hb] using hchain
      exact hg old hb x hx
  · exact hplaced j chain (by simpa [hij] using hchain) x hx

/-! ## Linking -/

@[simp] theorem length_place (bs : List (List α)) (i : Nat) (x : α) :
    (place bs i x).length = bs.length := by
  simp [place]

theorem flatten_place_perm (hi : i < bs.length) (x : α) :
    (place bs i x).flatten.Perm (x :: bs.flatten) := by
  obtain ⟨l, r, hflat, hmod⟩ :=
    flatten_modify (getElem?_eq_getElem hi)
  rw [place, hmod, hflat]
  simp only [cons_append, append_assoc]
  exact perm_middle

theorem Placed.place (hplaced : Placed idx bs) : Placed idx (place bs (idx x) x) := by
  refine hplaced.modify fun chain hchain y hy => ?_
  rcases mem_cons.mp hy with rfl | hy
  · rfl
  · exact hplaced _ chain hchain y hy

/-! ## Rebuilding -/

theorem placed_replicate (idx : α → Nat) (n : Nat) : Placed idx (replicate n []) := by
  intro i chain hchain x hx
  have hmem := mem_of_getElem? hchain
  rw [eq_of_mem_replicate hmem] at hx
  simp at hx

private theorem foldl_place (xs : List α) (bs : List (List α))
    (hidx : ∀ x ∈ xs, idx x < bs.length) (hplaced : Placed idx bs) :
    let bs' := xs.foldl (fun bs x => place bs (idx x) x) bs
    bs'.length = bs.length ∧ Placed idx bs' ∧ bs'.flatten.Perm (xs ++ bs.flatten) := by
  induction xs generalizing bs with
  | nil => exact ⟨rfl, hplaced, List.Perm.refl _⟩
  | cons x xs ih =>
    have hlt : idx x < bs.length := hidx x (by simp)
    obtain ⟨hlen, hpl, hperm⟩ := ih (place bs (idx x) x)
      (fun y hy => by simpa using hidx y (by simp [hy])) hplaced.place
    refine ⟨by simpa using hlen, hpl, hperm.trans ?_⟩
    exact ((flatten_place_perm hlt x).append_left xs).trans perm_middle

variable {n : Nat} {xs : List α}

section
variable (hidx : ∀ x ∈ xs, idx x < n)
include hidx

theorem length_rehash : (rehash idx n xs).length = n := by
  simpa [rehash] using (foldl_place xs (replicate n []) (by simpa using hidx)
    (placed_replicate idx n)).1

theorem placed_rehash : Placed idx (rehash idx n xs) :=
  (foldl_place xs (replicate n []) (by simpa using hidx) (placed_replicate idx n)).2.1

theorem flatten_rehash_perm : (rehash idx n xs).flatten.Perm xs := by
  have h := (foldl_place xs (replicate n []) (by simpa using hidx) (placed_replicate idx n)).2.2
  simpa [rehash] using h

end

/-! ## One class of elements

A class is a predicate whose elements all have the same index, so they share a
chain and their order is the order of that chain. -/

private theorem flatten_eq_getD (hother : ∀ j chain, bs[j]? = some chain → j ≠ i → chain = []) :
    bs.flatten = bs.getD i [] := by
  induction bs generalizing i with
  | nil => rfl
  | cons b bs ih =>
    cases i with
    | zero =>
      have hrest : bs.flatten = [] := by
        rw [flatten_eq_nil_iff]
        intro chain hmem
        obtain ⟨j, hj⟩ := getElem?_of_mem hmem
        exact hother (j + 1) chain (by simpa using hj) (by omega)
      simp [hrest]
    | succ i =>
      have hb : b = [] := hother 0 b rfl (by omega)
      have hbs : bs.flatten = bs.getD i [] := ih fun j chain hj hne =>
        hother (j + 1) chain (by simpa using hj) (by omega)
      simpa [hb] using hbs

variable {p : α → Bool}

/-- The elements of a class are those of one chain, in its order. -/
theorem filter_flatten_of_placed (hplaced : Placed idx bs) (hp : ∀ x, p x = true → idx x = i) :
    bs.flatten.filter p = (bs.getD i []).filter p := by
  have hother : ∀ j chain, (bs.map (filter p))[j]? = some chain → j ≠ i → chain = [] := by
    intro j chain hj hne
    rw [getElem?_map, Option.map_eq_some_iff] at hj
    obtain ⟨whole, hwhole, rfl⟩ := hj
    rw [filter_eq_nil_iff]
    intro x hx hpx
    have hidx := hplaced j whole hwhole x hx
    exact hne (hidx.symm.trans (hp x hpx))
  rw [filter_flatten, flatten_eq_getD hother]
  simp only [getD_eq_getElem?_getD, getElem?_map]
  cases bs[i]? <;> rfl

theorem filter_flatten_modify_of_eq (hchain : bs[i]? = some chain)
    (hg : (g chain).filter p = chain.filter p) :
    (bs.modify i g).flatten.filter p = bs.flatten.filter p := by
  obtain ⟨l, r, hflat, hmod⟩ := flatten_modify hchain
  rw [hmod, hflat]
  simp only [filter_append, hg]

theorem filter_flatten_modify (hplaced : Placed idx (bs.modify i g)) (hchain : bs[i]? = some chain)
    (hp : ∀ x, p x = true → idx x = i) : (bs.modify i g).flatten.filter p = (g chain).filter p := by
  rw [filter_flatten_of_placed hplaced hp]
  simp [getD_eq_getElem?_getD, hchain]

theorem filter_flatten_place (hplaced : Placed idx bs) (hlt : idx x < bs.length)
    (hp : ∀ x, p x = true → idx x = i) : (place bs (idx x) x).flatten.filter p =
      if p x then x :: bs.flatten.filter p else bs.flatten.filter p := by
  have hchain : bs[idx x]? = some (bs.get ⟨idx x, hlt⟩) := getElem?_eq_getElem hlt
  by_cases hx : p x = true
  · have hidx := hp x hx
    rw [place, filter_flatten_modify hplaced.place hchain (hidx ▸ hp),
      filter_flatten_of_placed hplaced (hidx ▸ hp), getD_eq_getElem?_getD, hchain]
    simp [hx]
  · rw [if_neg hx, place, filter_flatten_modify_of_eq hchain]
    simp [hx]

theorem filter_flatten_rehash (hidx : ∀ x ∈ xs, idx x < n) (hp : ∀ x, p x = true → idx x = i) :
    (rehash idx n xs).flatten.filter p = (xs.filter p).reverse := by
  have hfold : ∀ (ys : List α) (bs : List (List α)), (∀ y ∈ ys, idx y < bs.length) →
      Placed idx bs → (ys.foldl (fun bs x => place bs (idx x) x) bs).flatten.filter p =
        (ys.filter p).reverse ++ bs.flatten.filter p := by
    intro ys
    induction ys with
    | nil => simp
    | cons y ys ih =>
      intro bs hlt hplaced
      have hy := hlt y (by simp)
      rw [foldl_cons, ih _ (fun z hz => by simpa using hlt z (by simp [hz])) hplaced.place,
        filter_flatten_place hplaced hy hp]
      by_cases hpy : p y = true <;> simp [hpy]
  rw [rehash, hfold xs _ (by simpa using hidx) (placed_replicate idx n)]
  simp

/-! ## The first match of a chain -/

variable {l : List α} {q : α → Bool}

theorem getElem?_of_findIdx? (hfind : l.findIdx? q = some i) : l[i]? = l.find? q := by
  rw [find?_eq_bind_findIdx?_getElem?, hfind]
  rfl

theorem find?_filter_of_imp (hqp : ∀ x, q x = true → p x = true) :
    (l.filter p).find? q = l.find? q := by
  rw [find?_filter]
  congr 1
  funext x
  cases hq : q x with
  | false => simp
  | true => simp [hqp x hq]

/-- Overwriting or erasing the first match, seen on a class that holds all matches. -/
theorem filter_edit_of_findIdx?
    (hqp : ∀ x, q x = true → p x = true) (hfind : l.findIdx? q = some i) : (∀ y, p y = true →
      (l.set i y).filter p = (l.filter p).replaceF fun x => if q x then some y else none) ∧
      (l.eraseIdx i).filter p = (l.filter p).eraseP q := by
  induction l generalizing i with
  | nil => simp at hfind
  | cons x l ih =>
    by_cases hx : q x = true
    · obtain rfl : 0 = i := by simpa [findIdx?_cons, hx] using hfind
      simp +contextual [hx, hqp x hx]
    · obtain ⟨j, hj, rfl⟩ : ∃ j, l.findIdx? q = some j ∧ j + 1 = i := by
        simpa [findIdx?_cons, hx] using hfind
      by_cases hpx : p x = true <;> simp +contextual [hx, hpx, ih hj]

theorem filter_set_of_not {y : α} (hx : l[i]? = some x) (hpx : p x = false) (hpy : p y = false) :
    (l.set i y).filter p = l.filter p := by
  obtain ⟨l', r', rfl, rfl⟩ := split_of_getElem? hx
  simp [hpx, hpy]

theorem filter_eraseIdx_of_not
    (hx : l[i]? = some x) (hpx : p x = false) : (l.eraseIdx i).filter p = l.filter p := by
  obtain ⟨l', r', rfl, rfl⟩ := split_of_getElem? hx
  rw [eraseIdx_append_of_length_le (Nat.le_refl _)]
  simp [hpx]

end LinuxKernel.Foundation.Buckets
