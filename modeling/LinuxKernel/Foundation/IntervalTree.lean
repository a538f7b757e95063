import Mathlib

/-!
# Interval trees

A search tree ordered by the start of intervals, where each node knows the largest end in its
subtree, and the iteration over the intervals that meet a given one. A node is reached through a
context, the list of its ancestors with their other subtrees, which plays the role of parent
pointers.

Rebalancing is a parameter of each insertion and removal: any change of the tree that keeps the
order of the entries and the largest ends.
-/

namespace LinuxKernel.Foundation.IntervalTree

open List

variable {α : Type}

structure Endpoints (α : Type) where
  start : α → Nat
  last : α → Nat

def Endpoints.Meets (E : Endpoints α) (lo hi : Nat) (x : α) : Prop :=
  E.start x ≤ hi ∧ lo ≤ E.last x

instance (E : Endpoints α) (lo hi : Nat) : DecidablePred (E.Meets lo hi) :=
  fun x => inferInstanceAs (Decidable (E.start x ≤ hi ∧ lo ≤ E.last x))

inductive Tree (α : Type) where
  | nil
  | node (left : Tree α) (entry : α) (subtreeLast : Nat) (right : Tree α)
deriving Repr, DecidableEq

namespace Tree

def inorder : Tree α → List α
  | nil => []
  | node l x _ r => l.inorder ++ x :: r.inorder

def Augmented (E : Endpoints α) : Tree α → Prop
  | nil => True
  | node l x m r => l.Augmented E ∧ r.Augmented E ∧
      (∀ y ∈ l.inorder ++ x :: r.inorder, E.last y ≤ m) ∧
      ∃ y ∈ l.inorder ++ x :: r.inorder, E.last y = m

def Sorted (E : Endpoints α) (t : Tree α) : Prop :=
  t.inorder.Pairwise fun x y => E.start x ≤ E.start y

def reaches (lo : Nat) : Tree α → Bool
  | nil => false
  | node _ _ m _ => decide (lo ≤ m)

theorem reaches_iff {E : Endpoints α} {t : Tree α} (haug : t.Augmented E) (lo : Nat) :
    t.reaches lo = true ↔ ∃ y ∈ t.inorder, lo ≤ E.last y := by
  cases t with
  | nil => simp [reaches, inorder]
  | node l x m r =>
    obtain ⟨-, -, hmax, y, hy, hm⟩ := haug
    simp only [reaches, decide_eq_true_eq, inorder]
    constructor
    · intro h
      exact ⟨y, hy, hm ▸ h⟩
    · rintro ⟨z, hz, hlo⟩
      exact hlo.trans (hmax z hz)

end Tree

/-! ## Locations -/

/-- An ancestor: from which side one came, its entry, and its other subtree. -/
structure Frame (α : Type) where
  fromLeft : Bool
  entry : α
  subtreeLast : Nat
  other : Tree α
deriving Repr, DecidableEq

def before : List (Frame α) → List α
  | [] => []
  | f :: ctx => if f.fromLeft then before ctx else before ctx ++ f.other.inorder ++ [f.entry]

def after : List (Frame α) → List α
  | [] => []
  | f :: ctx => if f.fromLeft then f.entry :: f.other.inorder ++ after ctx else after ctx

def Frame.fill (f : Frame α) (t : Tree α) : Tree α :=
  if f.fromLeft then .node t f.entry f.subtreeLast f.other
  else .node f.other f.entry f.subtreeLast t

def plug (t : Tree α) : List (Frame α) → Tree α
  | [] => t
  | f :: ctx => plug (f.fill t) ctx

structure Loc (α : Type) where
  left : Tree α
  entry : α
  subtreeLast : Nat
  right : Tree α
  ctx : List (Frame α)
deriving Repr, DecidableEq

def Loc.zip (loc : Loc α) : Tree α :=
  plug (.node loc.left loc.entry loc.subtreeLast loc.right) loc.ctx

def Loc.before (loc : Loc α) : List α := IntervalTree.before loc.ctx ++ loc.left.inorder

def Loc.after (loc : Loc α) : List α := loc.right.inorder ++ IntervalTree.after loc.ctx

theorem inorder_plug (t : Tree α) (ctx : List (Frame α)) :
    (plug t ctx).inorder = before ctx ++ t.inorder ++ after ctx := by
  induction ctx generalizing t with
  | nil => simp [plug, before, after]
  | cons f ctx ih =>
    rw [plug, ih]
    cases hf : f.fromLeft <;> simp [before, after, Frame.fill, hf, Tree.inorder]

theorem Loc.inorder_zip (loc : Loc α) : loc.zip.inorder = loc.before ++ loc.entry :: loc.after := by
  rw [Loc.zip, inorder_plug]
  simp [Loc.before, Loc.after, Tree.inorder]

theorem augmented_of_plug {E : Endpoints α} {t : Tree α} {ctx : List (Frame α)}
    (h : (plug t ctx).Augmented E) : t.Augmented E := by
  induction ctx generalizing t with
  | nil => exact h
  | cons f ctx ih =>
    have hfill := ih h
    unfold Frame.fill at hfill
    split at hfill
    · exact hfill.1
    · exact hfill.2.1

/-! ## Iteration -/

section
variable (E : Endpoints α) (lo hi : Nat)

def subtreeSearch : Tree α → List (Frame α) → Option (Loc α)
  | .nil, _ => none
  | .node l x m r, ctx =>
    if l.reaches lo then subtreeSearch l (⟨true, x, m, r⟩ :: ctx)
    else if E.start x ≤ hi then
      if lo ≤ E.last x then some ⟨l, x, m, r, ctx⟩
      else if r.reaches lo then subtreeSearch r (⟨false, x, m, l⟩ :: ctx)
      else none
    else none

def leftmost : Tree α → Option α
  | .nil => none
  | .node l x _ _ => (leftmost l).or (some x)

def iterFirst (t : Tree α) : Option (Loc α) :=
  if t.reaches lo then
    match leftmost t with
    | none => none
    | some x => if hi < E.start x then none else subtreeSearch E lo hi t []
  else none

def climb (cur : Tree α) : List (Frame α) → Option (Loc α)
  | [] => none
  | f :: ctx =>
    if f.fromLeft then
      if hi < E.start f.entry then none
      else if lo ≤ E.last f.entry then some ⟨cur, f.entry, f.subtreeLast, f.other, ctx⟩
      else if f.other.reaches lo then
        subtreeSearch E lo hi f.other (⟨false, f.entry, f.subtreeLast, cur⟩ :: ctx)
      else climb (f.fill cur) ctx
    else climb (f.fill cur) ctx

def iterNext (loc : Loc α) : Option (Loc α) :=
  if loc.right.reaches lo then
    subtreeSearch E lo hi loc.right (⟨false, loc.entry, loc.subtreeLast, loc.left⟩ :: loc.ctx)
  else climb E lo hi (.node loc.left loc.entry loc.subtreeLast loc.right) loc.ctx

def visitFrom : Nat → Option (Loc α) → List (Loc α)
  | 0, _ => []
  | _ + 1, none => []
  | n + 1, some loc => loc :: visitFrom n (iterNext E lo hi loc)

/-- The nodes visited by `_iter_first` and `_iter_next`, in this order. -/
def visits (t : Tree α) : List (Loc α) := visitFrom E lo hi t.inorder.length (iterFirst E lo hi t)

end

/-! ## What iteration visits -/

variable {loc : Loc α}

section
variable {E : Endpoints α} {T : Tree α} (lo hi : Nat)

/-- The result of looking for the next match behind the entries `seen`, with `rest` to come: the
first of `rest` that meets the interval, or nothing if none does. -/
def NextMatch (E : Endpoints α) (T : Tree α) (seen rest : List α) : Option (Loc α) → Prop
  | some loc => loc.zip = T ∧ E.Meets lo hi loc.entry ∧
      ∃ gap, loc.before = seen ++ gap ∧ ∀ y ∈ gap, ¬E.Meets lo hi y
  | none => ∀ y ∈ rest, ¬E.Meets lo hi y

theorem NextMatch.skip {lo hi : Nat} (gap : List α) {seen rest : List α} {r : Option (Loc α)}
    (h : NextMatch lo hi E T (seen ++ gap) rest r) (hgap : ∀ y ∈ gap, ¬E.Meets lo hi y) :
    NextMatch lo hi E T seen (gap ++ rest) r := by
  cases r with
  | none => exact forall_mem_append.2 ⟨hgap, h⟩
  | some loc =>
    obtain ⟨hzip, hmeets, gap', hbefore, hgap'⟩ := h
    exact ⟨hzip, hmeets, gap ++ gap', by rw [hbefore, append_assoc],
      forall_mem_append.2 ⟨hgap, hgap'⟩⟩

theorem not_meets_of_not_reaches {t : Tree α} (haug : t.Augmented E) (h : ¬t.reaches lo = true) :
    ∀ y ∈ t.inorder, ¬E.Meets lo hi y := by
  intro y hy hmeets
  exact h ((Tree.reaches_iff haug lo).2 ⟨y, hy, hmeets.2⟩)

/-- Behind an entry that starts too late all entries start too late. -/
theorem not_meets_of_start {pre post : List α} {x : α} (hsorted : T.Sorted E)
    (hinorder : T.inorder = pre ++ x :: post) (hx : hi < E.start x) :
    ∀ y ∈ x :: post, ¬E.Meets lo hi y := by
  intro y hy hmeets
  rw [Tree.Sorted, hinorder] at hsorted
  have hle : E.start x ≤ E.start y := by
    rcases mem_cons.mp hy with rfl | hy
    · exact le_rfl
    · exact (pairwise_cons.mp (pairwise_append.mp hsorted).2.1).1 y hy
  exact absurd hmeets.1 (by omega)

theorem subtreeSearch_spec (t : Tree α) (ctx : List (Frame α)) (hT : plug t ctx = T)
    (haug : T.Augmented E) (hsorted : T.Sorted E) (hreach : t.reaches lo = true) :
    NextMatch lo hi E T (before ctx) (t.inorder ++ after ctx) (subtreeSearch E lo hi t ctx) := by
  induction t generalizing ctx with
  | nil => simp [Tree.reaches] at hreach
  | node l x m r ihl ihr =>
    have haugt : (Tree.node l x m r).Augmented E := augmented_of_plug (hT ▸ haug)
    have hinorder : T.inorder = (before ctx ++ l.inorder) ++ x :: (r.inorder ++ after ctx) := by
      rw [← hT, inorder_plug]
      simp [Tree.inorder]
    unfold subtreeSearch
    split
    · -- the first node that reaches `lo` is in the left subtree
      rename_i hl
      have hleft := ihl (⟨true, x, m, r⟩ :: ctx) hT hl
      simpa [before, after, Tree.inorder] using hleft
    next hl =>
      have hgap := not_meets_of_not_reaches lo hi haugt.1 hl
      split
      · rename_i hstart
        split
        · rename_i hlast
          exact ⟨hT, ⟨hstart, hlast⟩, l.inorder, rfl, hgap⟩
        rename_i hlast
        have hgapx : ∀ y ∈ l.inorder ++ [x], ¬E.Meets lo hi y :=
          forall_mem_append.2 ⟨hgap, forall_mem_singleton.2 fun h => hlast h.2⟩
        split
        · rename_i hr
          have hright := ihr (⟨false, x, m, l⟩ :: ctx) hT hr
          have hskip : NextMatch lo hi E T (before ctx)
              ((l.inorder ++ [x]) ++ (r.inorder ++ after ctx)) _ :=
            NextMatch.skip _ (by simpa [before, after] using hright) hgapx
          simpa [Tree.inorder] using hskip
        · -- no entry of the subtree reaches `lo`
          rename_i hr
          obtain ⟨y, hy, hlo⟩ := (Tree.reaches_iff haugt lo).1 hreach
          rw [Tree.inorder, mem_append, mem_cons] at hy
          rcases hy with hy | rfl | hy
          · exact absurd ((Tree.reaches_iff haugt.1 lo).2 ⟨y, hy, hlo⟩) hl
          · exact absurd hlo hlast
          · exact absurd ((Tree.reaches_iff haugt.2.1 lo).2 ⟨y, hy, hlo⟩) hr
      · rename_i hstart
        have hlate := not_meets_of_start lo hi hsorted hinorder (Nat.lt_of_not_le hstart)
        have hnone := forall_mem_append.2 ⟨hgap, hlate⟩
        simpa [NextMatch, Tree.inorder] using hnone

theorem climb_spec (cur : Tree α) (ctx : List (Frame α)) (hT : plug cur ctx = T)
    (haug : T.Augmented E) (hsorted : T.Sorted E) :
    NextMatch lo hi E T (before ctx ++ cur.inorder) (after ctx) (climb E lo hi cur ctx) := by
  induction ctx generalizing cur with
  | nil =>
    intro y hy
    simp [after] at hy
  | cons f ctx ih =>
    obtain ⟨fromLeft, x, m, other⟩ := f
    cases fromLeft with
    | false =>
      have hup := ih (.node other x m cur) hT
      simpa [before, after, climb, Frame.fill, Tree.inorder] using hup
    | true =>
      have hplug : plug (.node cur x m other) ctx = T := hT
      have haugt : (Tree.node cur x m other).Augmented E := augmented_of_plug (hplug ▸ haug)
      have hinorder : T.inorder = (before ctx ++ cur.inorder) ++
          x :: (other.inorder ++ after ctx) := by
        rw [← hT, inorder_plug]
        simp [before, after]
      simp only [climb, before, after, if_true]
      by_cases hstart : hi < E.start x
      · rw [if_pos hstart]
        exact not_meets_of_start lo hi hsorted hinorder hstart
      rw [if_neg hstart]
      by_cases hlast : lo ≤ E.last x
      · rw [if_pos hlast]
        exact ⟨hT, ⟨Nat.le_of_not_lt hstart, hlast⟩, [], by simp [Loc.before], by simp⟩
      rw [if_neg hlast]
      have hx : ¬E.Meets lo hi x := fun h => hlast h.2
      by_cases hother : other.reaches lo = true
      · rw [if_pos hother]
        have hright := subtreeSearch_spec lo hi other (⟨false, x, m, cur⟩ :: ctx)
          hT haug hsorted hother
        exact NextMatch.skip [x] (by simpa [before, after] using hright) (forall_mem_singleton.2 hx)
      · rw [if_neg hother]
        have hup := ih (.node cur x m other) hT
        have hgap : ∀ y ∈ x :: other.inorder, ¬E.Meets lo hi y :=
          forall_mem_cons.2 ⟨hx, not_meets_of_not_reaches lo hi haugt.2.1 hother⟩
        exact NextMatch.skip (x :: other.inorder)
          (by simpa [Tree.inorder, Frame.fill] using hup) hgap

theorem iterNext_spec (hT : loc.zip = T) (haug : T.Augmented E) (hsorted : T.Sorted E) :
    NextMatch lo hi E T (loc.before ++ [loc.entry]) loc.after (iterNext E lo hi loc) := by
  have haugt := augmented_of_plug (hT ▸ haug : (loc.zip).Augmented E)
  unfold iterNext
  split
  next hright =>
    have hsearch := subtreeSearch_spec lo hi loc.right
      (⟨false, loc.entry, loc.subtreeLast, loc.left⟩ :: loc.ctx) hT haug hsorted hright
    simpa [before, after, Loc.before, Loc.after] using hsearch
  next hright =>
    have hclimb := climb_spec lo hi _ loc.ctx hT haug hsorted
    have hgap := not_meets_of_not_reaches lo hi haugt.2.1 hright
    exact NextMatch.skip _ (by simpa [Tree.inorder, Loc.before] using hclimb) hgap

theorem leftmost_eq_head? (t : Tree α) : leftmost t = t.inorder.head? := by
  induction t with
  | nil => rfl
  | node l x m r ihl ihr =>
    rw [leftmost, ihl, Tree.inorder, head?_append]
    rfl

theorem iterFirst_spec (haug : T.Augmented E) (hsorted : T.Sorted E) :
    NextMatch lo hi E T [] T.inorder (iterFirst E lo hi T) := by
  unfold iterFirst
  split
  next hreach =>
    rw [leftmost_eq_head?]
    cases hlist : T.inorder with
    | nil =>
      intro y hy
      simp at hy
    | cons x rest =>
      simp only [head?_cons]
      split
      · rename_i hlate
        have hsplit : T.inorder = [] ++ x :: rest := hlist
        exact not_meets_of_start lo hi hsorted hsplit hlate
      · have hsearch := subtreeSearch_spec (T := T) lo hi T [] rfl haug hsorted hreach
        simpa [before, after, hlist] using hsearch
  next hreach => exact not_meets_of_not_reaches lo hi haug hreach

/-- Every node visited is a node of the tree, and the entries visited are those that meet the
interval, in the order of the tree. -/
theorem visitFrom_spec (haug : T.Augmented E) (hsorted : T.Sorted E) (fuel : Nat)
    (seen rest : List α) (r : Option (Loc α)) (hrest : T.inorder = seen ++ rest)
    (hfuel : rest.length ≤ fuel) (hr : NextMatch lo hi E T seen rest r) :
    (visitFrom E lo hi fuel r).map (·.entry) = rest.filter (E.Meets lo hi) ∧
      ∀ loc ∈ visitFrom E lo hi fuel r, loc.zip = T := by
  induction fuel generalizing seen rest r with
  | zero =>
    obtain rfl : rest = [] := eq_nil_of_length_eq_zero (by omega)
    simp [visitFrom]
  | succ fuel ih =>
    cases r with
    | none =>
      have hnone : rest.filter (E.Meets lo hi) = [] := by
        rw [filter_eq_nil_iff]
        intro y hy
        simpa using hr y hy
      simp [visitFrom, hnone]
    | some loc =>
      obtain ⟨hzip, hmeets, gap, hbefore, hgap⟩ := hr
      have hsplit : rest = gap ++ loc.entry :: loc.after := by
        have hall := loc.inorder_zip
        rw [hzip, hrest, hbefore, append_assoc] at hall
        exact append_cancel_left hall
      have hnone : gap.filter (E.Meets lo hi) = [] := by
        rw [filter_eq_nil_iff]
        intro y hy
        simpa using hgap y hy
      have hlen : loc.after.length ≤ fuel := by
        rw [hsplit, length_append, length_cons] at hfuel
        omega
      have hnext := ih (loc.before ++ [loc.entry]) loc.after (iterNext E lo hi loc)
        (by rw [← hzip, loc.inorder_zip]; simp) hlen (iterNext_spec lo hi hzip haug hsorted)
      constructor
      · rw [visitFrom, map_cons, hnext.1, hsplit, filter_append, hnone,
          nil_append, filter_cons_of_pos (by simpa using hmeets)]
      · intro loc' hloc'
        rcases mem_cons.mp hloc' with rfl | hloc'
        · exact hzip
        · exact hnext.2 loc' hloc'

theorem visits_spec (haug : T.Augmented E) (hsorted : T.Sorted E) :
    (visits E lo hi T).map (·.entry) = T.inorder.filter (E.Meets lo hi) ∧
      ∀ loc ∈ visits E lo hi T, loc.zip = T :=
  visitFrom_spec lo hi haug hsorted T.inorder.length [] T.inorder _ rfl le_rfl
    (iterFirst_spec lo hi haug hsorted)

end

/-! ## Insertion and removal -/

section
variable (E : Endpoints α)

def insertLeaf (x : α) : Tree α → Tree α
  | .nil => .node .nil x (E.last x) .nil
  | .node l y m r =>
    if E.start x < E.start y then .node (insertLeaf x l) y (max m (E.last x)) r
    else .node l y (max m (E.last x)) (insertLeaf x r)

def subtreeLast : Tree α → Nat
  | .nil => 0
  | .node _ _ m _ => m

def mkNode (l : Tree α) (x : α) (r : Tree α) : Tree α :=
  .node l x (max (E.last x) (max (subtreeLast l) (subtreeLast r))) r

def join : Tree α → Tree α → Tree α
  | .nil, r => r
  | .node l x _ lr, r => mkNode E l x (join lr r)

def refill (t : Tree α) : List (Frame α) → Tree α
  | [] => t
  | f :: ctx =>
    refill (if f.fromLeft then mkNode E t f.entry f.other else mkNode E f.other f.entry t) ctx

def removeLoc (loc : Loc α) : Tree α := refill E (join E loc.left loc.right) loc.ctx

/-- What the red-black tree does after a change: it moves nodes, keeps their order, and keeps the
largest ends up to date. -/
structure Rebalancing where
  fix : Tree α → Tree α
  inorder_fix : ∀ t, (fix t).inorder = t.inorder
  augmented_fix : ∀ t, t.Augmented E → (fix t).Augmented E

def Rebalancing.none : Rebalancing E := ⟨fun t => t, fun _ => rfl, fun _ h => h⟩

variable {E}

theorem inorder_insertLeaf_perm (x : α) (t : Tree α) :
    (insertLeaf E x t).inorder.Perm (x :: t.inorder) := by
  induction t with
  | nil => rfl
  | node l y m r ihl ihr =>
    unfold insertLeaf
    split
    · exact ihl.append_right _
    · have hswap := (ihr.cons y).trans (.swap x y _)
      exact (hswap.append_left _).trans perm_middle

variable {x y : α} {t : Tree α}

theorem mem_insertLeaf : y ∈ (insertLeaf E x t).inorder ↔ y = x ∨ y ∈ t.inorder := by
  rw [(inorder_insertLeaf_perm x t).mem_iff, mem_cons]

theorem sorted_insertLeaf (x : α) (t : Tree α) (hsorted : t.Sorted E) :
    (insertLeaf E x t).Sorted E := by
  induction t with
  | nil => exact pairwise_singleton _ _
  | node l y m r ihl ihr =>
    obtain ⟨hl, hyr, hlr⟩ := pairwise_append.mp hsorted
    obtain ⟨hy, hr⟩ := pairwise_cons.mp hyr
    have hly : ∀ z ∈ l.inorder, E.start z ≤ E.start y := fun z hz => hlr z hz y (by simp)
    unfold insertLeaf
    split
    · refine pairwise_append.mpr ⟨ihl hl, hyr, fun z hz w hw => ?_⟩
      rcases mem_insertLeaf.1 hz with rfl | hz
      · rcases mem_cons.mp hw with rfl | hw
        · omega
        · exact Nat.le_of_lt (Nat.lt_of_lt_of_le ‹_› (hy w hw))
      · exact hlr z hz w hw
    · refine pairwise_append.mpr ⟨hl, pairwise_cons.mpr ⟨fun z hz => ?_, ihr hr⟩,
        fun z hz w hw => ?_⟩
      · rcases mem_insertLeaf.1 hz with rfl | hz
        · omega
        · exact hy z hz
      rcases mem_cons.mp hw with rfl | hw
      · exact hly z hz
      · rcases mem_insertLeaf.1 hw with rfl | hw
        · exact (hly z hz).trans (by omega)
        · exact hlr z hz w (by simp [hw])

/-- The ends stay right when one entry is added below and the bound raised accordingly. -/
theorem augmented_insertLeaf (x : α) (t : Tree α) (haug : t.Augmented E) :
    (insertLeaf E x t).Augmented E := by
  have hmax : ∀ {old new : List α} {m : Nat}, (∀ y, y ∈ new ↔ y = x ∨ y ∈ old) →
      (∀ y ∈ old, E.last y ≤ m) → (∃ y ∈ old, E.last y = m) →
      (∀ y ∈ new, E.last y ≤ max m (E.last x)) ∧ ∃ y ∈ new, E.last y = max m (E.last x) := by
    intro old new m hmem hle hex
    obtain ⟨z, hz, hzm⟩ := hex
    refine ⟨fun y hy => ?_, ?_⟩
    · rcases (hmem y).1 hy with rfl | hy
      · exact Nat.le_max_right _ _
      · exact (hle y hy).trans (Nat.le_max_left _ _)
    · by_cases hlt : m < E.last x
      · exact ⟨x, (hmem x).2 (.inl rfl), by omega⟩
      · exact ⟨z, (hmem z).2 (.inr hz), by omega⟩
  induction t with
  | nil => simp [insertLeaf, Tree.Augmented, Tree.inorder]
  | node l y m r ihl ihr =>
    obtain ⟨hl, hr, hle, hex⟩ := haug
    unfold insertLeaf
    split
    · refine ⟨ihl hl, hr, hmax (fun z => ?_) hle hex⟩
      simp only [mem_append, mem_cons, mem_insertLeaf]
      tauto
    · refine ⟨hl, ihr hr, hmax (fun z => ?_) hle hex⟩
      simp only [mem_append, mem_cons, mem_insertLeaf]
      tauto

theorem last_le_subtreeLast (haug : t.Augmented E) (hy : y ∈ t.inorder) :
    E.last y ≤ subtreeLast t := by
  cases t with
  | nil => simp [Tree.inorder] at hy
  | node l x m r => exact haug.2.2.1 y hy

theorem subtreeLast_eq (haug : t.Augmented E) :
    subtreeLast t = 0 ∨ ∃ y ∈ t.inorder, E.last y = subtreeLast t := by
  cases t with
  | nil => exact .inl rfl
  | node l x m r => exact .inr haug.2.2.2

variable {l r : Tree α}

theorem augmented_mkNode (hl : l.Augmented E) (hr : r.Augmented E) :
    (mkNode E l x r).Augmented E := by
  refine ⟨hl, hr, fun y hy => ?_, ?_⟩
  · rcases mem_append.mp hy with hy | hy
    · have := last_le_subtreeLast hl hy
      omega
    · rcases mem_cons.mp hy with rfl | hy
      · omega
      · have := last_le_subtreeLast hr hy
        omega
  · generalize hm : max (E.last x) (max (subtreeLast l) (subtreeLast r)) = m
    by_cases hx : E.last x = m
    · exact ⟨x, by simp, hx⟩
    by_cases hlm : subtreeLast l = m
    · rcases subtreeLast_eq hl with h0 | ⟨y, hy, hyl⟩
      · omega
      · exact ⟨y, by simp [hy], by omega⟩
    · rcases subtreeLast_eq hr with h0 | ⟨y, hy, hyr⟩
      · omega
      · exact ⟨y, by simp [hy], by omega⟩

theorem join_spec (hl : l.Augmented E) (hr : r.Augmented E) :
    (join E l r).inorder = l.inorder ++ r.inorder ∧ (join E l r).Augmented E := by
  induction l with
  | nil => exact ⟨rfl, hr⟩
  | node ll x m lr ihl ihr =>
    obtain ⟨hinorder, haug⟩ := ihr hl.2.1
    refine ⟨?_, augmented_mkNode hl.1 haug⟩
    simp [join, mkNode, Tree.inorder, hinorder]

theorem refill_spec {old : Tree α} (ctx : List (Frame α)) (ht : t.Augmented E)
    (hold : (plug old ctx).Augmented E) :
    (refill E t ctx).inorder = before ctx ++ t.inorder ++ after ctx ∧
      (refill E t ctx).Augmented E := by
  induction ctx generalizing t old with
  | nil => exact ⟨by simp [refill, before, after], ht⟩
  | cons f ctx ih =>
    have hfill : (f.fill old).Augmented E := by exact augmented_of_plug hold
    unfold Frame.fill at hfill
    rw [refill]
    cases hf : f.fromLeft with
    | true =>
      simp only [hf, if_true] at hfill ⊢
      obtain ⟨hinorder, haug⟩ := ih (augmented_mkNode ht hfill.2.1) hold
      refine ⟨?_, haug⟩
      rw [hinorder]
      simp [mkNode, Tree.inorder, before, after, hf]
    | false =>
      simp only [hf, Bool.false_eq_true, if_false] at hfill ⊢
      obtain ⟨hinorder, haug⟩ := ih (augmented_mkNode hfill.1 ht) hold
      refine ⟨?_, haug⟩
      rw [hinorder]
      simp [mkNode, Tree.inorder, before, after, hf]

theorem removeLoc_spec (haug : loc.zip.Augmented E) :
    (removeLoc E loc).inorder = loc.before ++ loc.after ∧ (removeLoc E loc).Augmented E := by
  have hnode : (Tree.node loc.left loc.entry loc.subtreeLast loc.right).Augmented E :=
    augmented_of_plug haug
  obtain ⟨hjoin, haugj⟩ := join_spec hnode.1 hnode.2.1
  obtain ⟨hrefill, haugr⟩ := refill_spec loc.ctx haugj haug
  refine ⟨?_, haugr⟩
  rw [removeLoc, hrefill, hjoin]
  simp [Loc.before, Loc.after]

end

/-! ## Trees in use -/

structure Intervals (E : Endpoints α) where
  tree : Tree α
  sorted : tree.Sorted E
  augmented : tree.Augmented E

namespace Intervals

variable {E : Endpoints α} (R : Rebalancing E)

def empty : Intervals E := ⟨.nil, List.Pairwise.nil, trivial⟩

def entries (t : Intervals E) : List α := t.tree.inorder

def insert (t : Intervals E) (x : α) : Intervals E where
  tree := R.fix (insertLeaf E x t.tree)
  sorted := by
    rw [Tree.Sorted, R.inorder_fix]
    exact sorted_insertLeaf x t.tree t.sorted
  augmented := R.augmented_fix _ (augmented_insertLeaf x t.tree t.augmented)

variable (t : Intervals E)

theorem entries_insert (x : α) : (t.insert R x).entries.Perm (x :: t.entries) := by
  rw [entries, insert, R.inorder_fix]
  exact inorder_insertLeaf_perm x t.tree

def remove (t : Intervals E) (loc : Loc α) (hloc : loc.zip = t.tree) : Intervals E where
  tree := R.fix (removeLoc E loc)
  sorted := by
    have hspec := removeLoc_spec (hloc ▸ t.augmented : loc.zip.Augmented E)
    have hsorted := t.sorted
    rw [Tree.Sorted, ← hloc, loc.inorder_zip] at hsorted
    rw [Tree.Sorted, R.inorder_fix, hspec.1]
    exact hsorted.sublist (List.Sublist.append_left (List.sublist_cons_self _ _) _)
  augmented := R.augmented_fix _ (removeLoc_spec (hloc ▸ t.augmented : loc.zip.Augmented E)).2

theorem entries_remove (loc : Loc α) (hloc : loc.zip = t.tree) :
    t.entries.Perm (loc.entry :: (t.remove R loc hloc).entries) := by
  have hspec := removeLoc_spec (hloc ▸ t.augmented : loc.zip.Augmented E)
  rw [entries, entries, remove, R.inorder_fix, hspec.1, ← hloc, loc.inorder_zip]
  exact perm_middle

/-- The nodes that meet `[lo, hi]`, as the iteration visits them. -/
def visits (t : Intervals E) (lo hi : Nat) : List (Loc α) := IntervalTree.visits E lo hi t.tree

theorem visits_entries (lo hi : Nat) :
    (t.visits lo hi).map (·.entry) = t.entries.filter (E.Meets lo hi) :=
  (visits_spec lo hi t.augmented t.sorted).1

theorem zip_of_mem_visits {t : Intervals E} {lo hi : Nat}
    (h : loc ∈ t.visits lo hi) : loc.zip = t.tree :=
  (visits_spec lo hi t.augmented t.sorted).2 loc h

end Intervals

end LinuxKernel.Foundation.IntervalTree
