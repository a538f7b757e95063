import LinuxKernel.Lib.RbtreeMax

/-!
# Augmented trees with a cached first node

`struct rb_root_cached` remembers the first node of the tree. The insertion is the one of an
interval tree: on the way down every node passed is given at least the value of the new node, then
the node is linked and the tree rebalanced.
-/

namespace LinuxKernel.Lib

open List Function
open RbTree (mk toList)

variable {P A V : Type}

/-! ## The next node -/

/-- `while (node->rb_left) node = node->rb_left;` -/
def rbDownLeft (h : RbHeap P A) : Nat → P → Option P
  | 0, _ => none
  | fuel + 1, node =>
    match h.child .left node with
    | none => some node
    | some left => rbDownLeft h fuel left

/-- `while ((parent = rb_parent(node)) && node == parent->rb_right) node = parent;` -/
def rbNextUp [DecidableEq P] (h : RbHeap P A) : Nat → P → Option (Option P)
  | 0, _ => none
  | fuel + 1, node =>
    match h.parent node with
    | none => some none
    | some parent =>
      if h.child .right parent = some node then rbNextUp h fuel parent else some (some parent)

/-- `rb_next`; a node is `RB_EMPTY_NODE` if its parent word is its own address. -/
def rbNext [DecidableEq P] (fuel : Nat) (h : RbHeap P A) (node : P) : Option (Option P) :=
  if h.parent node = some node ∧ h.color node = .red then some none
  else
    match h.child .right node with
    | some right => (rbDownLeft h fuel right).map some
    | none => rbNextUp h fuel node

/-! ## The operations -/

/-- `struct rb_root_cached`, with the nodes of the tree. -/
structure RbRootCached (P A : Type) where
  heap : RbHeap P A
  leftmost : Option P

section
variable [DecidableEq P]

def rbInsertAugmentedCached (cb : RbAugmentCallbacks P A) (fuel : Nat) (root : RbRootCached P A)
    (node : P) (newleft : Bool) : Option (RbRootCached P A) := do
  let leftmost := if newleft then some node else root.leftmost
  let h ← rbInsert cb fuel root.heap node
  return ⟨h, leftmost⟩

def rbEraseAugmentedCached (cb : RbAugmentCallbacks P A) (fuel : Nat) (root : RbRootCached P A)
    (node : P) : Option (RbRootCached P A) := do
  let leftmost ← if root.leftmost = some node then rbNext fuel root.heap node
    else some root.leftmost
  let h ← rbEraseAugmentedNode cb fuel root.heap node
  return ⟨h, leftmost⟩

/-- What a link points to: `root->rb_node`, or a child. -/
def RbHeap.slot (h : RbHeap P A) : Option (P × Dir) → Option P
  | none => h.root
  | some (p, d) => h.child d p

variable [LinearOrder V]

/-- `if (parent->ITSUBTREE < last) parent->ITSUBTREE = last;` -/
def raiseAt (last : V) (parent : P) (a : P → V) : P → V :=
  if a parent < last then Function.update a parent last else a

/-- The loop of `_insert`, with the test that sends it to the left: returns the link reached, and
whether the new node comes first. -/
def rbDescend (goLeft : P → Bool) (last : V) : Nat → RbHeap P (Option (P → V)) →
    Option (P × Dir) → Bool → Option (RbHeap P (Option (P → V)) × Option (P × Dir) × Bool)
  | 0, _, _, _ => none
  | fuel + 1, h, link, leftmost =>
    match h.slot link with
    | none => some (h, link, leftmost)
    | some parent =>
      let h := h.setAug (h.aug.map (raiseAt last parent))
      if goLeft parent then rbDescend goLeft last fuel h (some (parent, .left)) leftmost
      else rbDescend goLeft last fuel h (some (parent, .right)) false

/-- `node->ITSUBTREE = last; rb_link_node(node, rb_parent, link);` -/
def linkRaised (h : RbHeap P (Option (P → V))) (node : P) (last : V) (link : Option (P × Dir)) :
    RbHeap P (Option (P → V)) :=
  rbLinkNode (h.setAug (h.aug.map fun a => Function.update a node last)) node link

end

/-! ## Finding the next node -/

section
variable {h : RbHeap P A} {p : Option P} {t : RbTree P} {fuel : Nat} {x : P}

theorem rbDownLeft_spec (ht : IsTree h p (some x) t) (hfuel : t.toList.length < fuel) :
    rbDownLeft h fuel x = t.toList.head? := by
  induction fuel generalizing p t x with
  | zero => omega
  | succ fuel ih =>
    match t, ht with
    | .node c l y r, ht =>
      obtain ⟨⟨⟩, -, -, hl, -⟩ := ht
      rw [rbDownLeft, toList]
      cases hleft : h.child .left x with
      | none =>
        obtain rfl := hl.eq_none_iff.mp hleft
        rfl
      | some z =>
        rw [hleft] at hl
        have hlen : l.toList.length < fuel := by
          simp only [toList, length_append, length_cons] at hfuel
          omega
        have hne : l.toList ≠ [] := ne_nil_of_mem (hl.mem rfl)
        rw [head?_append_of_ne_nil _ hne]
        exact ih hl hlen

theorem eq_of_append_cons_eq {pre post pre' post' : List P} (hnodup : (pre ++ x :: post).Nodup)
    (heq : pre ++ x :: post = pre' ++ x :: post') : post = post' := by
  obtain ⟨-, hnd, hdis⟩ := nodup_append.mp hnodup
  have hpre : x ∉ pre := fun hmem => hdis x hmem x (by simp) rfl
  exact ((append_cons_inj_of_notMem hpre (nodup_cons.mp hnd).1).mp heq).2.2

theorem map_some_head? {l : List P} (hne : l ≠ []) : l.head?.map some = some l.head? := by
  rw [head?_eq_some_head hne, Option.map_some]

variable [DecidableEq P] {ctx : List (RbStep P)}

theorem rbNextUp_spec (hplace : IsCtx h (some x) ctx) (hparent : h.parent x = parentOf ctx)
    (hx : (x :: ctxNodes ctx).Nodup) (hfuel : ctx.length < fuel) :
    rbNextUp h fuel x = some (ctxAfter ctx).head? := by
  induction ctx generalizing fuel x with
  | nil =>
    obtain ⟨fuel, rfl⟩ : ∃ k, fuel = k + 1 := ⟨fuel - 1, by omega⟩
    simp [rbNextUp, hparent, ctxAfter]
  | cons s ctx ih =>
    obtain ⟨fuel, rfl⟩ : ∃ k, fuel = k + 1 := ⟨fuel - 1, by omega⟩
    obtain ⟨d, c, y, other⟩ := s
    obtain ⟨hchild, -, hparent', hother, hup⟩ := hplace
    obtain ⟨hxnot, hnd⟩ := nodup_cons.mp hx
    have hnd' : (y :: ctxNodes ctx).Nodup :=
      hnd.sublist ((sublist_append_right _ _).cons_cons y)
    rw [parentOf_cons] at hparent
    cases d with
    | left =>
      -- coming from the left: the parent is next
      have hne : h.child .right y ≠ some x := by
        intro heq
        exact hxnot (by simp [ctxNodes, hother.mem heq])
      simp [rbNextUp, hparent, hne, ctxAfter]
    | right =>
      simp only [rbNextUp, hparent, hchild, if_true, ctxAfter]
      exact ih hup hparent' hnd' (by simpa using hfuel)

theorem rbNext_spec {pre post : List P} (hrep : Rep h t) (hlist : t.toList = pre ++ x :: post)
    (hfuel : t.toList.length < fuel) : rbNext fuel h x = some post.head? := by
  obtain ⟨ctx, c, l, r, rfl⟩ := exists_plug .left (x := x) (t := t) (by simp [hlist])
  obtain ⟨q, hl⟩ := hrep.located
  obtain ⟨rfl, -, hparent, -, hr⟩ := isTree_mk.mp hl.tree
  have hnodup := hrep.nodup
  have hpost : post = r.toList ++ ctxAfter ctx := by
    rw [hlist] at hnodup
    have hsplit : pre ++ x :: post =
        (ctxBefore ctx ++ l.toList) ++ x :: (r.toList ++ ctxAfter ctx) := by
      rw [← hlist, toList_plug]
      simp [mk, toList]
    exact eq_of_append_cons_eq hnodup hsplit
  have hctx : (x :: ctxNodes ctx).Nodup := by
    have hsub : [x].Sublist (mk .left c l x r).toList := by simp [mk, toList]
    exact hl.nodup.sublist (hsub.append_right _)
  have hself : h.parent x ≠ some x := by
    rw [hparent]
    exact fun heq => (nodup_cons.mp hctx).1 (mem_ctxNodes_of_parentOf heq)
  rw [rbNext, if_neg fun hempty => hself hempty.1, hpost]
  rw [length_toList_plug, length_toList_mk] at hfuel
  cases hright : h.child .right x with
  | none =>
    obtain rfl := hr.eq_none_iff.mp hright
    have hle : ctx.length ≤ (plug ctx (.nil : RbTree P)).toList.length := length_le_toList_plug
    rw [length_toList_plug, toList, length_nil] at hle
    exact rbNextUp_spec hl.place hparent hctx (by omega)
  | some y =>
    rw [show h.child Dir.left.other x = some y from hright] at hr
    have hne : r.toList ≠ [] := ne_nil_of_mem (hr.mem rfl)
    rw [head?_append_of_ne_nil _ hne]
    dsimp only
    rw [rbDownLeft_spec hr (by omega), map_some_head? hne]

end

/-! ## The way down -/

section
variable [DecidableEq P] [LinearOrder V] {val a : P → V} {last : V} {x : P}

theorem coe_raiseAt_self : ((raiseAt last x a x : V) : WithBot V) = max (a x : WithBot V) last := by
  rw [← WithBot.coe_max, raiseAt, max_def_lt]
  split
  · rw [update_self]
  · rfl

theorem raiseAt_of_ne {y : P} (hy : y ≠ x) : raiseAt last x a y = a y := by
  rw [raiseAt]
  split
  · rw [update_of_ne hy]
  · rfl

variable {h : RbHeap P (Option (P → V))} {ctx : List (RbStep P)} {q : Option P} {t : RbTree P}
omit [DecidableEq P] [LinearOrder V] in
theorem IsCtx.slot_eq (hctx : IsCtx h q ctx) : h.slot (linkOf ctx) = q := by
  cases ctx with
  | nil => exact hctx
  | cons s ctx => exact hctx.1

/-- Passing a node on the way down: the node takes the new value into account before it is there. -/
theorem ctxAug_raiseAt {d : Dir} {c : Color} {near far : RbTree P}
    (hnodup : ((mk d c near x far).toList ++ ctxNodes ctx).Nodup)
    (ht : (mk d c near x far).AugMax val a) (hctx : CtxAug val a ctx (max (a x : WithBot V) last)) :
    near.AugMax val (raiseAt last x a) ∧ CtxAug val (raiseAt last x a) (⟨d, c, x, far⟩ :: ctx)
      (max (near.top (raiseAt last x a)) last) := by
  have hnd : (x :: (near.toList ++ (far.toList ++ ctxNodes ctx))).Nodup := by
    refine nodup_of_count hnodup fun y => ?_
    simp only [RbTree.count_mk, count_append, count_cons]
    omega
  have hx := (nodup_cons.mp hnd).1
  have hsame : ∀ y ∈ near.toList ++ (far.toList ++ ctxNodes ctx), raiseAt last x a y = a y :=
    fun y hy => raiseAt_of_ne (ne_of_mem_of_not_mem hy hx)
  simp only [mem_append] at hsame
  obtain ⟨hax, hnear, hfar⟩ := RbTree.augMax_mk.mp ht
  refine ⟨hnear.congr fun y hy => hsame y (.inl hy), ?_, hfar.congr fun y hy =>
    hsame y (.inr (.inl hy)), ?_⟩
  · rw [coe_raiseAt_self, hax, RbTree.top_congr fun y hy => hsame y (.inl hy),
      RbTree.top_congr fun y hy => hsame y (.inr (.inl hy))]
    ac_rfl
  · rw [coe_raiseAt_self]
    exact hctx.congr fun y hy => hsame y (.inr (.inr hy))

/-- The walk down the tree `t` ends at a NULL link, with the values on the way raised to `last`,
that of the new node. -/
def Descended (val : P → V) (goLeft : P → Bool) (last : V) (t : RbTree P)
    (out : Option (RbHeap P (Option (P → V)) × Option (P × Dir) × Bool)) : Prop :=
  ∃ h ctx a leftmost, out = some (h, linkOf ctx, leftmost) ∧ Located h ctx none .nil ∧
    h.aug = some a ∧ CtxAug val a ctx last ∧ (∀ s ∈ ctx, s.dir = .left ↔ goLeft s.node = true) ∧
    (leftmost = true ↔ ctxBefore ctx = []) ∧ plug ctx .nil = t

theorem rbDescend_spec {goLeft : P → Bool} {fuel : Nat} {leftmost : Bool} (hl : Located h ctx q t)
    (haug : h.aug = some a) (ht : t.AugMax val a) (hctx : CtxAug val a ctx (max (t.top a) last))
    (hdirs : ∀ s ∈ ctx, s.dir = .left ↔ goLeft s.node = true)
    (hleft : leftmost = true ↔ ctxBefore ctx = []) (hfuel : t.toList.length < fuel) :
    Descended val goLeft last (plug ctx t)
      (rbDescend goLeft last fuel h (linkOf ctx) leftmost) := by
  induction fuel generalizing h ctx q t a leftmost with
  | zero => omega
  | succ fuel ih =>
    have hslot := hl.place.slot_eq
    cases t with
    | nil =>
      obtain rfl : q = none := hl.tree
      refine ⟨h, ctx, a, leftmost, by rw [rbDescend, hslot], hl, haug, ?_, hdirs, hleft, rfl⟩
      simpa [RbTree.top] using hctx
    | node c l x r =>
      obtain rfl : q = some x := hl.tree.1
      have hrun : rbDescend goLeft last (fuel + 1) h (linkOf ctx) leftmost =
          if goLeft x then rbDescend goLeft last fuel
            (h.setAug (h.aug.map (raiseAt last x))) (some (x, .left)) leftmost
          else rbDescend goLeft last fuel
            (h.setAug (h.aug.map (raiseAt last x))) (some (x, .right)) false := by
        rw [rbDescend, hslot]
      have haug' : (h.setAug (h.aug.map (raiseAt last x))).aug = some (raiseAt last x a) := by
        simp [RbHeap.setAug, haug]
      -- one step down, to the side `d`
      have hdown : ∀ d near far, RbTree.node c l x r = .mk d c near x far →
          (d = .left ↔ goLeft x = true) → ∀ leftmost₁ : Bool,
          (leftmost₁ = true ↔ ctxBefore (⟨d, c, x, far⟩ :: ctx) = []) →
          Descended val goLeft last (plug ctx (.node c l x r)) (rbDescend goLeft last fuel
            (h.setAug (h.aug.map (raiseAt last x))) (some (x, d)) leftmost₁) := by
        intro d near far hnode hside leftmost₁ hleft₁
        rw [hnode] at hl ht hfuel ⊢
        rw [length_toList_mk] at hfuel
        let step : RbStep P := ⟨d, c, x, far⟩
        have hup : Located (h.setAug (h.aug.map (raiseAt last x))) ctx (some step.node)
            (.mk step.dir step.color near step.node step.other) := hl.setAug
        obtain ⟨q₁, hl₁⟩ := located_up.mp hup
        obtain ⟨hnear, hctx₁⟩ := ctxAug_raiseAt hl.nodup ht hctx
        exact ih hl₁ haug' hnear hctx₁ (forall_mem_cons.mpr ⟨hside, hdirs⟩) hleft₁ (by omega)
      rw [hrun]
      cases hgo : goLeft x with
      | true =>
        refine hdown .left l r rfl (by simp [hgo]) leftmost ?_
        rw [hleft, ctxBefore]
      | false =>
        refine hdown .right r l rfl (by simp [hgo]) false ?_
        simp [ctxBefore]

end

/-! ## Insertion and erasure -/

section
variable [DecidableEq P] [LinearOrder V] {val : P → V} {fuel : Nat} {h : RbHeap P (Option (P → V))}
  {a : P → V} {ctx : List (RbStep P)} {t : RbTree P} {n : P}

theorem maxFits_leaf (hn : n ∉ ctxNodes ctx) (haug : h.aug = some a)
    (hctx : CtxAug val a ctx (val n)) (hfuel : (plug ctx .nil).toList.length + 1 < fuel) :
    MaxFits val fuel (h.aug.map fun a => update a n (val n)) []
      (plug ctx (.mk .left .red .nil n .nil)) := by
  refine maxFits_nil.mpr ⟨update a n (val n), by rw [haug, Option.map_some], ?_, ?_⟩
  · refine augMax_plug.mpr ⟨RbTree.augMax_mk.mpr ⟨?_, trivial, trivial⟩, ?_⟩
    · simp [RbTree.top]
    · rw [RbTree.top_mk, update_self]
      exact hctx.congr fun x hx => update_of_ne (ne_of_mem_of_not_mem hx hn) _ _
  · rw [length_toList_plug] at hfuel ⊢
    simpa [mk, toList, Nat.add_comm] using hfuel

omit [DecidableEq P] in
theorem head?_plug_leaf {first : Bool} (hfirst : first = true ↔ ctxBefore ctx = []) :
    (plug ctx (.mk .left .red .nil n .nil)).toList.head? =
      if first then some n else (plug ctx .nil).toList.head? := by
  rw [toList_plug, toList_plug]
  cases hctx : ctxBefore ctx with
  | nil =>
    rw [if_pos (hfirst.mpr hctx)]
    rfl
  | cons x xs =>
    have hne : ¬first = true := fun h => by simp [hfirst.mp h] at hctx
    rw [if_neg hne]
    rfl

theorem rbInsert_descended (goLeft : P → Bool) (hrep : Rep h t) (hrb : t.RedBlack)
    (haug : h.aug = some a) (hmax : t.AugMax val a) (hn : n ∉ t.toList)
    (hfuel : t.toList.length + 1 < fuel) :
    ∃ h₁ link first h' t' a', rbDescend goLeft (val n) fuel h none true = some (h₁, link, first) ∧
      rbInsert (rbMaxCallbacks val fuel) fuel (linkRaised h₁ n (val n) link) n = some h' ∧
      Rep h' t' ∧ t'.RedBlack ∧ h'.aug = some a' ∧ t'.AugMax val a' ∧
      t'.toList.head? = (if first then some n else t.toList.head?) ∧
      ∃ ctx, t = plug ctx .nil ∧ (∀ s ∈ ctx, s.dir = .left ↔ goLeft s.node = true) ∧
        t'.toList = ctxBefore ctx ++ n :: ctxAfter ctx := by
  have hstart : CtxAug val a [] (max (t.top a) (val n : WithBot V)) := trivial
  obtain ⟨h₁, ctx, a₁, first, hrun, hl, haug₁, hctx, hdirs, hfirst, hplug⟩ :
      Descended val goLeft (val n) t (rbDescend goLeft (val n) fuel h none true) :=
    rbDescend_spec (located_iff_rep.mpr hrep) haug hmax hstart (by simp) (by simp [ctxBefore])
      (by omega)
  subst hplug
  have hn' : n ∉ ctxNodes ctx := fun hmem => hn (toList_plug_perm.mem_iff.mpr (by simp [hmem]))
  have hfits := maxFits_leaf hn' haug₁ hctx hfuel
  obtain ⟨h', t', hins, hrep', hfits', hrb', hlist⟩ :=
    rbInsert_spec rbMaxCallbacks_keeps hl.setAug hrb hn (Nat.lt_of_succ_lt hfuel) hfits
  obtain ⟨a', haug', hmax', -⟩ := maxFits_nil.mp hfits'
  refine ⟨h₁, _, first, h', t', a', hrun, hins, hrep', hrb', haug', hmax', ?_, ctx, rfl, hdirs, ?_⟩
  · rw [hlist, head?_plug_leaf hfirst]
  · rw [hlist, toList_plug]
    simp [mk, toList]

theorem rbEraseMax_spec (hrep : Rep h t) (hrb : t.RedBlack) (haug : h.aug = some a)
    (hmax : t.AugMax val a) (hn : n ∈ t.toList) (hfuel : t.toList.length < fuel) :
    ∃ h' t' a', rbEraseAugmentedNode (rbMaxCallbacks val fuel) fuel h n = some h' ∧
      rbEraseAugmentedCached (rbMaxCallbacks val fuel) fuel ⟨h, t.toList.head?⟩ n =
        some ⟨h', t'.toList.head?⟩ ∧ Rep h' t' ∧ t'.RedBlack ∧ h'.aug = some a' ∧ t'.AugMax val a' ∧
      ∃ pre post, t.toList = pre ++ n :: post ∧ t'.toList = pre ++ post := by
  have hfits : MaxFits val fuel h.aug [] t := maxFits_nil.mpr ⟨a, haug, hmax, hfuel⟩
  obtain ⟨h', t', hrun, hrep', hfits', hrb', pre, post, hlist, hlist'⟩ :=
    rbEraseAugmentedNode_spec rbMaxCallbacks_keeps hrep hfits hrb hn hfuel
  obtain ⟨a', haug', hmax', -⟩ := maxFits_nil.mp hfits'
  refine ⟨h', t', a', hrun, ?_, hrep', hrb', haug', hmax', pre, post, hlist, hlist'⟩
  have hnodup := hrep.nodup
  rw [hlist] at hnodup
  cases pre with
  | nil =>
    -- the first node goes: its successor is next
    have hfirst : t.toList.head? = some n := by rw [hlist]; rfl
    have hnext := rbNext_spec hrep hlist hfuel
    simp [rbEraseAugmentedCached, hfirst, hnext, hrun, hlist']
  | cons x pre =>
    have hfirst : t.toList.head? = some x := by rw [hlist]; rfl
    have hne : x ≠ n := by
      rintro rfl
      exact (nodup_cons.mp hnodup).1 (by simp)
    simp [rbEraseAugmentedCached, hfirst, hne, hrun, hlist']

end

/-! ## The two operations -/

/-- From a red-black tree with right maxima and its first node cached, the insertion of a new node
(with the way down raised to its value, and any test for the side) and the erasure of any node
lead to such a tree again, with the callbacks of `RB_DECLARE_CALLBACKS_MAX`. -/
theorem rbtree_augmented_max [DecidableEq P] [LinearOrder V] (val : P → V)
    (h : RbHeap P (Option (P → V))) (t : RbTree P) (a : P → V) (hrep : Rep h t) (hrb : t.RedBlack)
    (haug : h.aug = some a) (hmax : t.AugMax val a) (fuel : Nat)
    (hfuel : t.toList.length + 1 < fuel) :
    (∀ (goLeft : P → Bool) (n : P), n ∉ t.toList →
      ∃ h₁ link newleft h' t' a',
        rbDescend goLeft (val n) fuel h none true = some (h₁, link, newleft) ∧
        rbInsert (rbMaxCallbacks val fuel) fuel (linkRaised h₁ n (val n) link) n = some h' ∧
        rbInsertAugmentedCached (rbMaxCallbacks val fuel) fuel
          ⟨linkRaised h₁ n (val n) link, t.toList.head?⟩ n newleft = some ⟨h', t'.toList.head?⟩ ∧
        Rep h' t' ∧ t'.RedBlack ∧ h'.aug = some a' ∧ t'.AugMax val a' ∧
        t'.toList.Perm (n :: t.toList)) ∧
    ∀ n ∈ t.toList, ∃ h' t' a',
      rbEraseAugmentedNode (rbMaxCallbacks val fuel) fuel h n = some h' ∧
      rbEraseAugmentedCached (rbMaxCallbacks val fuel) fuel ⟨h, t.toList.head?⟩ n =
        some ⟨h', t'.toList.head?⟩ ∧
      Rep h' t' ∧ t'.RedBlack ∧ h'.aug = some a' ∧ t'.AugMax val a' ∧
      t.toList.Perm (n :: t'.toList) := by
  constructor
  · intro goLeft n hn
    obtain ⟨h₁, link, newleft, h', t', a', hrun, hins, hrep', hrb', haug', hmax', hfirst,
      ctx, rfl, -,
      hlist⟩ := rbInsert_descended goLeft hrep hrb haug hmax hn hfuel
    refine ⟨h₁, link, newleft, h', t', a', hrun, hins, ?_, hrep', hrb', haug', hmax', ?_⟩
    · simp [rbInsertAugmentedCached, hins, hfirst]
    · rw [hlist, toList_plug]
      simp [RbTree.toList]
  · intro n hn
    obtain ⟨h', t', a', hrun, hcached, hrep', hrb', haug', hmax', pre, post, hlist, hlist'⟩ :=
      rbEraseMax_spec hrep hrb haug hmax hn (Nat.lt_of_succ_lt hfuel)
    refine ⟨h', t', a', hrun, hcached, hrep', hrb', haug', hmax', ?_⟩
    rw [hlist, hlist']
    exact List.perm_middle

/-- The three nodes of `threeNodeHeap`, each with its own address as value. -/
def threeNodeMax : RbHeap Nat (Option (Nat → Nat)) where
  parent x := if x = 1 then none else some 1
  color x := if x = 1 then .black else .red
  child d x := if x = 1 then some (match d with | .left => 0 | .right => 2) else none
  root := some 1
  aug := some fun x => if x = 0 then 0 else 2

theorem rbtree_augmented_max_threeNodes :
    (∃ h₁ link newleft h' t' a',
      rbDescend (fun x => decide (3 < x)) 3 5 threeNodeMax none true = some (h₁, link, newleft) ∧
      rbInsert (rbMaxCallbacks id 5) 5 (linkRaised h₁ 3 3 link) 3 = some h' ∧
      rbInsertAugmentedCached (rbMaxCallbacks id 5) 5 ⟨linkRaised h₁ 3 3 link, some 0⟩ 3 newleft =
        some ⟨h', t'.toList.head?⟩ ∧
      Rep h' t' ∧ t'.RedBlack ∧ h'.aug = some a' ∧ t'.AugMax id a' ∧
      t'.toList.Perm [3, 0, 1, 2]) ∧
    ∃ h' t' a', rbEraseAugmentedNode (rbMaxCallbacks id 5) 5 threeNodeMax 1 = some h' ∧
      rbEraseAugmentedCached (rbMaxCallbacks id 5) 5 ⟨threeNodeMax, some 0⟩ 1 =
        some ⟨h', t'.toList.head?⟩ ∧
      Rep h' t' ∧ t'.RedBlack ∧ h'.aug = some a' ∧ t'.AugMax id a' ∧
      [0, 1, 2].Perm (1 :: t'.toList) := by
  have hrep : Rep threeNodeMax threeNodeTree :=
    ⟨by simp [threeNodeTree, IsTree, threeNodeMax], by decide⟩
  have hmax : threeNodeTree.AugMax id fun x => if x = 0 then 0 else 2 := by
    simp [threeNodeTree, RbTree.AugMax, RbTree.top]
  obtain ⟨hinsert, herase⟩ :=
    rbtree_augmented_max id threeNodeMax threeNodeTree _ hrep redBlack_threeNodeTree rfl hmax 5
      (by decide)
  exact ⟨hinsert (fun x => decide (3 < x)) 3 (by decide), herase 1 (by decide)⟩

end LinuxKernel.Lib
