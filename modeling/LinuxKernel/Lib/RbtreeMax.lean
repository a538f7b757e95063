import LinuxKernel.Lib.RbtreeEraseNode

/-!
# Subtree maxima

The callbacks that `RB_DECLARE_CALLBACKS_MAX` generates keep, at every node, the maximum of `val`
over its subtree. `propagate` goes up from a node and stops where nothing changes; following a NULL
pointer, or running out of fuel, leaves the augmented data at `none`.
-/

namespace LinuxKernel.Lib

open List Function RbTree

variable {P A V : Type}

/-! ## The callbacks -/

section
variable [DecidableEq P] [LinearOrder V]

/-- `if (child && child->RBAUGMENTED > max) max = child->RBAUGMENTED;` -/
def raiseTo (a : P → V) (max : V) : Option P → V
  | none => max
  | some child => if max < a child then a child else max

/-- `RBNAME_compute_max`: whether the caller may stop, and the data after the call. -/
def rbComputeMax (val : P → V) (h : RbHeap P A) (a : P → V) (node : P) (exit : Bool) :
    Bool × (P → V) :=
  let max := raiseTo a (raiseTo a (val node) (h.child .left node)) (h.child .right node)
  if exit ∧ a node = max then (true, a) else (false, Function.update a node max)

/-- `RBNAME_propagate` -/
def rbMaxPropagate (val : P → V) (h : RbHeap P A) : Nat → (P → V) → Option P → Option P →
    Option (P → V)
  | 0, _, _, _ => none
  | fuel + 1, a, rb, stop =>
    if rb = stop then some a
    else do
      let node ← rb
      let (done, a) := rbComputeMax val h a node true
      if done then some a else rbMaxPropagate val h fuel a (h.parent node) stop

/-- `RB_DECLARE_CALLBACKS_MAX` -/
def rbMaxCallbacks (val : P → V) (fuel : Nat) : RbAugmentCallbacks P (Option (P → V)) where
  propagate h rb stop := h.aug.bind fun a => rbMaxPropagate val h fuel a rb stop
  copy h old new := h.aug.map fun a => Function.update a new (a old)
  rotate h old new := h.aug.map fun a =>
    (rbComputeMax val h (Function.update a new (a old)) old false).2

end

/-! ## Trees with right maxima -/

namespace RbTree

def root : RbTree P → Option P
  | nil => none
  | node _ _ x _ => some x

def top (a : P → V) : RbTree P → WithBot V
  | nil => ⊥
  | node _ _ x _ => a x

/-- At each node the augmented value is the maximum of the node's own value and of the augmented
values of its children. -/
def AugMax [LinearOrder V] (val a : P → V) : RbTree P → Prop
  | nil => True
  | node _ l x r => (a x : WithBot V) = max (val x : WithBot V) (max (l.top a) (r.top a)) ∧
      l.AugMax val a ∧ r.AugMax val a

variable {val a a' : P → V} {d : Dir} {c : Color} {x : P} {t near far : RbTree P}

@[simp]
theorem top_mk : (mk d c near x far).top a = a x := by cases d <;> rfl

theorem root_mk : (mk d c near x far).root = some x := by cases d <;> rfl

@[simp]
theorem top_uncolored : t.uncolored.top a = t.top a := by cases t <;> rfl

@[simp]
theorem toList_uncolored : t.uncolored.toList = t.toList := by
  induction t with
  | nil => rfl
  | node c l x r ihl ihr => simp [uncolored, toList, ihl, ihr]

theorem top_congr (h : ∀ x ∈ t.toList, a' x = a x) : t.top a' = t.top a := by
  cases t with
  | nil => rfl
  | node c l x r => exact congrArg _ (h x (by simp [toList]))

variable [LinearOrder V]

theorem augMax_mk : (mk d c near x far).AugMax val a ↔
    (a x : WithBot V) = max (val x : WithBot V) (max (near.top a) (far.top a)) ∧
      near.AugMax val a ∧ far.AugMax val a := by
  cases d with
  | left => rfl
  | right =>
    simp only [mk, AugMax, max_comm (far.top a)]
    tauto

theorem augMax_uncolored : t.uncolored.AugMax val a ↔ t.AugMax val a := by
  induction t with
  | nil => rfl
  | node c l x r ihl ihr => simp [uncolored, AugMax, ihl, ihr]

theorem AugMax.congr (ht : t.AugMax val a) (h : ∀ x ∈ t.toList, a' x = a x) : t.AugMax val a' := by
  induction t with
  | nil => trivial
  | node c l x r ihl ihr =>
    simp only [toList, mem_append, mem_cons] at h
    have hl : ∀ y ∈ l.toList, a' y = a y := fun y hy => h y (.inl hy)
    have hr : ∀ y ∈ r.toList, a' y = a y := fun y hy => h y (.inr (.inr hy))
    refine ⟨?_, ihl ht.2.1 hl, ihr ht.2.2 hr⟩
    rw [h x (.inr (.inl rfl)), top_congr hl, top_congr hr]
    exact ht.1

end RbTree

theorem IsTree.root_eq {h : RbHeap P A} {p q : Option P} {t : RbTree P} (ht : IsTree h p q t) :
    q = t.root := by
  cases t with
  | nil => exact ht
  | node c l x r => exact ht.1

/-! ## Around a place -/

section
variable [LinearOrder V] {val a a' : P → V} {ctx : List (RbStep P)} {t : RbTree P} {v : WithBot V}

/-- The maxima around the place are right, `v` being the augmented value of what is in it. -/
def CtxAug (val a : P → V) : List (RbStep P) → WithBot V → Prop
  | [], _ => True
  | s :: ctx, v =>
    (a s.node : WithBot V) = max (val s.node : WithBot V) (max v (s.other.top a)) ∧
    s.other.AugMax val a ∧ CtxAug val a ctx (a s.node)

/-- The maxima around the place are right but perhaps at the node that the place hangs on. -/
def CtxLoose (val a : P → V) : List (RbStep P) → Prop
  | [] => True
  | s :: ctx => s.other.AugMax val a ∧ CtxAug val a ctx (a s.node)

theorem augMax_plug : (plug ctx t).AugMax val a ↔ t.AugMax val a ∧ CtxAug val a ctx (t.top a) := by
  induction ctx generalizing t with
  | nil => simp [plug, CtxAug]
  | cons s ctx ih =>
    rw [plug, ih, augMax_mk, top_mk, CtxAug]
    tauto

theorem CtxAug.loose (h : CtxAug val a ctx v) : CtxLoose val a ctx := by
  cases ctx with
  | nil => trivial
  | cons s ctx => exact h.2

theorem CtxAug.congr (h : CtxAug val a ctx v) (heq : ∀ x ∈ ctxNodes ctx, a' x = a x) :
    CtxAug val a' ctx v := by
  induction ctx generalizing v with
  | nil => trivial
  | cons s ctx ih =>
    simp only [ctxNodes, mem_cons, mem_append] at heq
    have hother : ∀ y ∈ s.other.toList, a' y = a y := fun y hy => heq y (.inr (.inl hy))
    have hs : a' s.node = a s.node := heq s.node (.inl rfl)
    refine ⟨?_, h.2.1.congr hother, ?_⟩
    · rw [hs, top_congr hother]
      exact h.1
    · rw [hs]
      exact ih h.2.2 fun y hy => heq y (.inr (.inr hy))

end

/-! ## What the callbacks compute -/

section
variable [LinearOrder V] {val a : P → V} {h : RbHeap P A} {d : Dir} {x : P} {t near far : RbTree P}

theorem coe_raiseTo {m : V} :
    ((raiseTo a m t.root : V) : WithBot V) = max (m : WithBot V) (t.top a) := by
  cases t with
  | nil => simp [raiseTo, root, top]
  | node c l x r =>
    rw [root, raiseTo, ← max_def_lt]
    rfl

theorem coe_max_children (hnear : h.child d x = near.root) (hfar : h.child d.other x = far.root) :
    ((raiseTo a (raiseTo a (val x) (h.child .left x)) (h.child .right x) : V) : WithBot V) =
      max (val x : WithBot V) (max (near.top a) (far.top a)) := by
  cases d with
  | left =>
    rw [hnear, show h.child .right x = far.root from hfar, coe_raiseTo, coe_raiseTo, max_assoc]
  | right =>
    rw [hnear, show h.child .left x = far.root from hfar, coe_raiseTo, coe_raiseTo, max_assoc,
      max_comm (far.top a)]

variable [DecidableEq P]

theorem rbComputeMax_store (hnear : h.child d x = near.root) (hfar : h.child d.other x = far.root)
    (exit : Bool)
    (hx : exit = true → (a x : WithBot V) ≠ max (val x : WithBot V)
    (max (near.top a) (far.top a))) :
    ∃ m : V, (m : WithBot V) = max (val x : WithBot V) (max (near.top a) (far.top a)) ∧
      rbComputeMax val h a x exit = (false, update a x m) := by
  refine ⟨_, coe_max_children hnear hfar, if_neg ?_⟩
  rintro ⟨hexit, heq⟩
  apply hx hexit
  rw [heq, coe_max_children hnear hfar]

end

/-! ## Going up -/

section
variable [LinearOrder V] [DecidableEq P] {val a : P → V} {h : RbHeap P A} {fuel : Nat}
  {ctx : List (RbStep P)} {q top par : Option P} {t : RbTree P}

/-- From the node that the place hangs on, the values are put right up to `par`. -/
theorem rbMaxPropagate_spec (hseg : IsSeg h top par q ctx) (hq : q = t.root)
    (hnodup : (t.toList ++ ctxNodes ctx).Nodup) (hpar : ∀ x ∈ ctxNodes ctx, par ≠ some x)
    (ht : t.AugMax val a) (hloose : CtxLoose val a ctx) (hfuel : ctx.length < fuel) :
    ∃ a', rbMaxPropagate val h fuel a (parentOr par ctx) par = some a' ∧
      (plug ctx t).AugMax val a' ∧ ∀ x ∉ ctxNodes ctx, a' x = a x := by
  induction ctx generalizing q t a fuel with
  | nil =>
    obtain ⟨fuel, rfl⟩ : ∃ k, fuel = k + 1 := ⟨fuel - 1, by omega⟩
    exact ⟨a, by simp [rbMaxPropagate, parentOr], ht, fun _ _ => rfl⟩
  | cons s ctx ih =>
    obtain ⟨fuel, rfl⟩ : ∃ k, fuel = k + 1 := ⟨fuel - 1, by omega⟩
    obtain ⟨hnear, -, hparent, hother, hup⟩ := hseg
    rw [hq] at hnear
    have hfar := hother.root_eq
    have hstop : some s.node ≠ par := (hpar s.node (by simp [ctxNodes])).symm
    by_cases hx : (a s.node : WithBot V) =
        max (val s.node : WithBot V) (max (t.top a) (s.other.top a))
    · refine ⟨a, ?_, ?_, fun _ _ => rfl⟩
      · have heq := hx
        rw [← coe_max_children hnear hfar, WithBot.coe_inj] at heq
        simp [rbMaxPropagate, parentOr, hstop, rbComputeMax, ← heq]
      · exact augMax_plug.mpr ⟨ht, hx, hloose⟩
    -- the value changes: the next node up may be wrong now
    obtain ⟨m, hm, hstore⟩ := rbComputeMax_store hnear hfar true fun _ => hx
    have hnd := nodup_mk_append.mpr hnodup
    obtain ⟨-, hnd₁, hdis⟩ := nodup_append.mp hnodup
    have hs : ∀ x ∈ s.other.toList ++ ctxNodes ctx, update a s.node m x = a x := by
      intro x hx
      rw [update_of_ne (ne_of_mem_of_not_mem hx (nodup_cons.mp hnd₁).1)]
    have ht' : ∀ x ∈ t.toList, update a s.node m x = a x := by
      intro x hx
      rw [update_of_ne (hdis x hx s.node (by simp [ctxNodes]))]
    have hother' : ∀ x ∈ s.other.toList, update a s.node m x = a x :=
      fun x hx => hs x (mem_append_left _ hx)
    have haug : (mk s.dir s.color t s.node s.other).AugMax val (update a s.node m) := by
      rw [augMax_mk, update_self, top_congr ht', top_congr hother']
      exact ⟨hm, ht.congr ht', hloose.1.congr hother'⟩
    have hloose' : CtxLoose val (update a s.node m) ctx :=
      (hloose.2.congr fun x hx => hs x (mem_append_right _ hx)).loose
    obtain ⟨a', hrun, haug', hsame⟩ := ih hup root_mk.symm hnd
      (fun x hx => hpar x (by simp [ctxNodes, hx])) haug hloose'
      (by simpa using hfuel)
    refine ⟨a', ?_, haug', fun x hx => ?_⟩
    · have hrb : parentOr par (s :: ctx) = some s.node := rfl
      simp [hrb, rbMaxPropagate, hstop, hstore, hparent, hrun]
    · simp only [ctxNodes, mem_cons, mem_append, not_or] at hx
      rw [hsame x hx.2.2, update_of_ne hx.1]

end

/-! ## The contract -/

section
variable [LinearOrder V] {val : P → V} {fuel : Nat}

/-- The maxima are right but perhaps at the node that the place hangs on, and the tree is small
enough for the fuel of `propagate`. -/
def MaxFits (val : P → V) (fuel : Nat) (aug : Option (P → V)) (ctx : List (RbStep P))
    (t : RbTree P) : Prop :=
  ∃ a, aug = some a ∧ t.AugMax val a ∧ CtxLoose val a ctx ∧ (plug ctx t).toList.length < fuel

variable {t : RbTree P}

theorem maxFits_nil {aug : Option (P → V)} :
    MaxFits val fuel aug [] t ↔ ∃ a, aug = some a ∧ t.AugMax val a ∧ t.toList.length < fuel := by
  simp [MaxFits, CtxLoose, plug]

variable {ctx : List (RbStep P)}

theorem length_toList_plug :
    (plug ctx t).toList.length = t.toList.length + (ctxNodes ctx).length := by
  rw [toList_plug_perm.length_eq, length_append]

variable {c : Color} {d : Dir}

theorem length_toList_mk {x : P} {near far : RbTree P} :
    (mk d c near x far).toList.length = near.toList.length + far.toList.length + 1 := by
  rw [toList_mk_perm.length_eq, length_append, length_cons]
  omega

variable [DecidableEq P] {h : RbHeap P A} {a : P → V}

/-- A rotation keeps the maximum of the subtree, and computes that of the node that moves down. -/
theorem rotate_augMax {c₁ c₂ c₃ c₄ : Color} {p g : P} {N C U : RbTree P}
    (hC : IsTree h (some g) (h.child d g) C) (hU : IsTree h (some g) (h.child d.other g) U)
    (hnodup : (p :: g :: (N.toList ++ (C.toList ++ (U.toList ++ ctxNodes ctx)))).Nodup)
    (haug : (plug ctx (.mk d c₁ (.mk d c₂ N p C) g U)).AugMax val a) :
    (plug ctx (.mk d c₃ N p (.mk d c₄ C g U))).AugMax val
      (rbComputeMax val h (update a p (a g)) g false).2 := by
  let a₁ := update a p (a g)
  obtain ⟨m, hm, hstore⟩ : ∃ m : V, (m : WithBot V) = max (val g : WithBot V)
      (max (C.top a₁) (U.top a₁)) ∧
      rbComputeMax val h a₁ g false = (false, update a₁ g m) :=
    rbComputeMax_store hC.root_eq hU.root_eq false (by simp)
  have hpg : p ≠ g := by grind
  have hrest : ∀ x ∈ N.toList ++ (C.toList ++ (U.toList ++ ctxNodes ctx)), x ≠ p ∧ x ≠ g := by grind
  have hsame₁ : ∀ x ∈ N.toList ++ (C.toList ++ (U.toList ++ ctxNodes ctx)), a₁ x = a x :=
    fun x hx => update_of_ne (hrest x hx).1 _ _
  let a₂ := update a₁ g m
  have hp₂ : a₂ p = a g := by simp [a₂, a₁, hpg]
  have hg₂ : a₂ g = m := by simp [a₂]
  have hsame : ∀ x ∈ N.toList ++ (C.toList ++ (U.toList ++ ctxNodes ctx)), a₂ x = a x := by
    intro x hx
    rw [← hsame₁ x hx]
    exact update_of_ne (hrest x hx).2 _ _
  simp only [mem_append] at hsame hsame₁
  rw [augMax_plug, augMax_mk, augMax_mk, top_mk, top_mk] at haug
  obtain ⟨⟨hag, ⟨hap, hN, hCa⟩, hUa⟩, hctx⟩ := haug
  rw [hstore]
  change (plug ctx (.mk d c₃ N p (.mk d c₄ C g U))).AugMax val a₂
  rw [augMax_plug, augMax_mk, augMax_mk, top_mk, top_mk, hp₂, hg₂,
    top_congr fun x hx => hsame x (.inl hx), top_congr fun x hx => hsame x (.inr (.inl hx)),
    top_congr fun x hx => hsame x (.inr (.inr (.inl hx)))]
  rw [top_congr fun x hx => hsame₁ x (.inr (.inl hx)),
    top_congr fun x hx => hsame₁ x (.inr (.inr (.inl hx)))] at hm
  refine ⟨⟨?_, hN.congr fun x hx => hsame x (.inl hx), hm, hCa.congr fun x hx => hsame x
    (.inr (.inl hx)), hUa.congr fun x hx => hsame x (.inr (.inr (.inl hx)))⟩,
    hctx.congr fun x hx => hsame x (.inr (.inr (.inr hx)))⟩
  calc (a g : WithBot V) = max (val g : WithBot V) (max (max (val p : WithBot V)
        (max (N.top a) (C.top a))) (U.top a)) := by rw [hag, hap]
    _ = max (val p : WithBot V) (max (N.top a) (max (val g : WithBot V)
        (max (C.top a) (U.top a)))) := by ac_rfl
    _ = max (val p : WithBot V) (max (N.top a) m) := by rw [hm]

variable {cs : Color} {n s : P} {l r : RbTree P} {ictx : List (RbStep P)}

/-- Once `s` has taken the value of `n`, the path from its old place up to `s` is put right, and
only `s` may be wrong. -/
theorem exists_copy_path {top : Option P} (hseg : IsSeg h top (some s) r.root ictx)
    (hnodup : (n :: s :: (l.toList ++ (r.toList ++ (ctxNodes ictx ++ ctxNodes ctx)))).Nodup)
    (ht : (plug ctx (.mk .right c (plug ictx (.mk .left cs .nil s r)) n l)).AugMax val a)
    (hlen : (plug ctx (.mk .right c (plug ictx (.mk .left cs .nil s r)) n l)).toList.length <
      fuel) :
    ∃ a', rbMaxPropagate val h fuel (update a s (a n)) (parentOr (some s) ictx) (some s) = some a' ∧
      MaxFits val fuel (some a') (⟨.right, c, s, l⟩ :: ctx) (plug ictx r) := by
  obtain ⟨hn, hctx⟩ := augMax_plug.mp ht
  obtain ⟨-, hs, hl⟩ := augMax_mk.mp hn
  obtain ⟨hs, hictx⟩ := augMax_plug.mp hs
  obtain ⟨hspath, hndpath⟩ : s ∉ ctxNodes ictx ∧ (r.toList ++ ctxNodes ictx).Nodup := by grind
  have hrest : ∀ x ∈ l.toList ++ ctxNodes ctx, x ≠ s ∧ x ∉ ctxNodes ictx := by grind
  have hpath : ∀ x ∈ r.toList ++ ctxNodes ictx, x ≠ s := by grind
  let a₁ := update a s (a n)
  have hsame₁ : ∀ x, x ≠ s → a₁ x = a x := fun x hx => update_of_ne hx _ _
  have hr₁ : r.AugMax val a₁ :=
    (augMax_mk.mp hs).2.2.congr fun x hx => hsame₁ x (hpath x (by simp [hx]))
  have hloose₁ : CtxLoose val a₁ ictx :=
    (hictx.congr fun x hx => hsame₁ x (hpath x (by simp [hx]))).loose
  have hsize : (plug ictx r).toList.length + l.toList.length + 1 +
      (ctxNodes ctx).length < fuel := by
    simp only [length_toList_plug, length_toList_mk, toList, length_nil] at hlen ⊢
    omega
  have hfuel : ictx.length < fuel := Nat.lt_of_le_of_lt (length_le_toList_plug (t := r)) (by omega)
  obtain ⟨a₂, hrun, haug₂, hsame₂⟩ := rbMaxPropagate_spec hseg rfl hndpath
    (fun x hx heq => hspath (Option.some.inj heq ▸ hx)) hr₁ hloose₁ hfuel
  have hs₂ : a₂ s = a n := (hsame₂ s hspath).trans (update_self ..)
  have hsame : ∀ x ∈ l.toList ++ ctxNodes ctx, a₂ x = a x := fun x hx =>
    (hsame₂ x (hrest x hx).2).trans (hsame₁ x (hrest x hx).1)
  refine ⟨a₂, hrun, a₂, rfl, haug₂, ⟨hl.congr fun x hx => hsame x (mem_append_left _ hx), ?_⟩, ?_⟩
  · rw [hs₂]
    exact hctx.congr fun x hx => hsame x (mem_append_right _ hx)
  · rw [plug, length_toList_plug, length_toList_mk]
    exact hsize

theorem rbMaxCallbacks_keeps : (rbMaxCallbacks val fuel).Keeps (MaxFits val fuel) where
  recolor {aug ctx t t'} hshape := by
    rintro ⟨a, haug, ht, hloose, hlen⟩
    refine ⟨a, haug, ?_, hloose, ?_⟩
    · rw [← augMax_uncolored, ← hshape, augMax_uncolored]
      exact ht
    · rw [length_toList_plug] at hlen ⊢
      rwa [← toList_uncolored, ← hshape, toList_uncolored]
  rotate {h aug ctx d c₁ c₂ c₃ c₄ p g N C U} hC hU hnodup haug := by
    rintro ⟨a, rfl, ht, -, hlen⟩
    refine ⟨_, by simp only [rbMaxCallbacks, haug]; rfl, rotate_augMax hC hU hnodup ht, trivial, ?_⟩
    simp only [plug, length_toList_plug, length_toList_mk] at hlen ⊢
    omega
  unlink {aug ctx d c n u} := by
    rintro ⟨a, rfl, ht, -, hlen⟩
    obtain ⟨hn, hctx⟩ := augMax_plug.mp ht
    refine ⟨a, rfl, (augMax_mk.mp hn).2.2, hctx.loose, ?_⟩
    simp only [plug, length_toList_plug, length_toList_mk] at hlen ⊢
    omega
  propagate {h ctx q u} hl := by
    rintro ⟨a, haug, ht, hloose, hlen⟩
    have hctx : ctx.length < fuel := Nat.lt_of_le_of_lt length_le_toList_plug hlen
    obtain ⟨a', hrun, haug', -⟩ := rbMaxPropagate_spec (isCtx_iff_isSeg.mp hl.place)
      hl.tree.root_eq hl.nodup (by simp) ht hloose hctx
    refine maxFits_nil.mpr ⟨a', ?_, haug', hlen⟩
    have hpar : parentOr none ctx = parentOf ctx := by cases ctx <;> rfl
    simp only [rbMaxCallbacks, haug, Option.bind_some, ← hpar, hrun]
  copy {h ctx c cs n s l r} hnodup hfits := by
    obtain ⟨a, haug, ht, hlen⟩ := maxFits_nil.mp hfits
    have hseg : IsSeg h r.root (some s) r.root [] := rfl
    obtain ⟨a', hrun, hfits'⟩ := exists_copy_path hseg (by simpa [ctxNodes] using hnodup) ht hlen
    obtain ⟨fuel, rfl⟩ : ∃ k, fuel = k + 1 := ⟨fuel - 1, by omega⟩
    simp only [rbMaxPropagate, parentOr, if_true] at hrun
    cases hrun
    simpa only [rbMaxCallbacks, haug, Option.map_some, plug] using hfits'
  copy_propagate {h ctx ictx step c cs n s l r top q₂ child2} hseg hr hnodup hfits := by
    obtain ⟨a, haug, ht, hlen⟩ := maxFits_nil.mp hfits
    have hseg' : IsSeg (h.setAug ((rbMaxCallbacks val fuel).copy h n s)) top (some s) r.root
        (step :: ictx) := hr.root_eq ▸ hseg.congr fun _ _ => sameAt_setAug
    obtain ⟨a', hrun, hfits'⟩ := exists_copy_path hseg' hnodup ht hlen
    rw [← hrun] at hfits'
    simp only [rbMaxCallbacks, haug, Option.map_some] at hfits' ⊢
    exact hfits'

end

end LinuxKernel.Lib
