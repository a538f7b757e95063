import LinuxKernel.Lib.RbtreeErase

/-!
# Unlinking a node from a red-black tree

`__rb_erase_augmented` replaces the node by its only child, or by its in-order successor.
Either way one leaf place of the tree is closed up; if that costs a black node, it hands
the parent of the place to `____rb_erase_color`.
-/

namespace LinuxKernel.Lib

open List RbTree

variable {P A : Type}

section
variable {ctx ictx : List (RbStep P)}

theorem ctxRedBlack_rename {d : Dir} {c col : Color} {x x' : P} {o : RbTree P} {k : Nat} :
    CtxRedBlack (ictx ++ ⟨d, c, x, o⟩ :: ctx) col k ↔
      CtxRedBlack (ictx ++ ⟨d, c, x', o⟩ :: ctx) col k := by
  induction ictx generalizing col k with
  | nil => rfl
  | cons s ictx ih => simp only [cons_append, CtxRedBlack, ih]

end

/-! ## The successor -/

section
variable {h : RbHeap P A} {q : Option P} {t : RbTree P} {p : Option P}

theorem IsTree.eq_none_iff (ht : IsTree h p q t) : q = none ↔ t = .nil := by
  cases t with
  | nil => simpa using ht
  | node c l x r => simp [ht.1]

theorem rbLeftmost_spec {fuel : Nat} {y z : P} (ht : IsTree h p (some z) t)
    (hfuel : t.toList.length < fuel) :
    ∃ ictx c s r parent post, rbLeftmost h fuel y z = some (parent, s) ∧
      t = plug ictx (.mk .left c .nil s r) ∧ parentOr (some y) ictx = some parent ∧
      (∀ u, (plug ictx u).toList = u.toList ++ post) ∧
      ∀ step ∈ ictx.head?, step.dir = .left := by
  induction fuel generalizing y z p t with
  | zero => omega
  | succ fuel ih =>
    match t, ht with
    | .node c l x r, ht =>
      obtain ⟨⟨⟩, -, -, hl, -⟩ := ht
      cases hchild : h.child .left z with
      | none =>
        obtain rfl := hl.eq_none_iff.mp hchild
        exact ⟨[], c, z, r, y, [], by simp [rbLeftmost, hchild], rfl, rfl, by simp [plug], by simp⟩
      | some w =>
        rw [hchild] at hl
        have hlen : l.toList.length < fuel := by
          simp only [toList, length_append, length_cons] at hfuel
          omega
        obtain ⟨ictx, c', s, r', parent, post, hrun, rfl, hpar, hlist, hdir⟩ :=
          ih (y := z) hl hlen
        refine ⟨ictx ++ [⟨.left, c, z, r⟩], c', s, r', parent, post ++ z :: r.toList, ?_, ?_,
          ?_, ?_, ?_⟩
        · simp [rbLeftmost, hchild, hrun]
        · rw [plug_append]
          rfl
        · cases ictx <;> simp_all [parentOr]
        · intro u
          rw [plug_append]
          simp [plug, mk, toList, hlist]
        · cases ictx <;> simp_all

variable [DecidableEq P] {old : P} {new parent : Option P} {c : Color}

theorem rbChangeChild_setParentColorOpt {o : Option P} :
    (rbChangeChild h old new parent).setParentColorOpt o p c =
      rbChangeChild (h.setParentColorOpt o p c) old new parent := by
  cases parent with
  | none => cases o <;> rfl
  | some x =>
    simp only [rbChangeChild, RbHeap.child_setParentColorOpt]
    split <;> cases o <;> rfl

theorem color_rbChangeChild : (rbChangeChild h old new parent).color = h.color := by
  cases parent with
  | none => rfl
  | some x =>
    simp only [rbChangeChild]
    split <;> rfl

/-- The stores at the end of cases 2 and 3, `x` being the left child of `n`. -/
def successorStores (h : RbHeap P A) (n s x parent : P) (child2 : Option P) : RbHeap P A :=
  let h₂ := (h.setChild .left s (some x)).setParent x (some s)
  ((rbChangeChild h₂ n (some s) (h₂.parent n)).setParentColorOpt (some s) (h₂.parent n)
    (h₂.color n)).setParentColorOpt child2 (some parent) .black

variable {n s x : P}

theorem rbEraseSuccessor_eq (cb : RbAugmentCallbacks P A) (parent : P)
    (child2 : Option P) (hleft : h.child .left n = some x) (hxs : x ≠ s) :
    rbEraseSuccessor cb h n s parent child2 = some ((successorStores h n s x parent child2).setAug
          (cb.propagate (successorStores h n s x parent child2) (some s) none),
        if child2 = none ∧ h.color s = .black then some parent else none) := by
  cases child2 with
  | some c =>
    simp only [rbEraseSuccessor, hleft, Option.bind_eq_bind, Option.bind_some, reduceCtorEq,
      false_and, if_false]
    rfl
  | none =>
    have hcolor : ((h.setChild .left s (some x)).setParent x (some s)).color s = h.color s := by
      simp [RbHeap.setParent, hxs.symm]
    simp only [rbEraseSuccessor, hleft, Option.bind_eq_bind, Option.bind_some,
      color_rbChangeChild, true_and, hcolor]
    rfl

variable {child2 : Option P}

theorem aug_successorStores {parent : P} : (successorStores h n s x parent child2).aug = h.aug := by
  rw [successorStores, RbHeap.aug_setParentColorOpt, RbHeap.aug_setParentColorOpt,
    RbHeap.aug_rbChangeChild]
  rfl

/-- The end of cases 2 and 3: once the place of the successor `s` has been closed by
`child2`, `s` takes the place, colour and left child of `n`. -/
theorem located_successorStores {parent : P} {q₂ : Option P}
    {ctx ictx : List (RbStep P)} {l r : RbTree P} (hctx : IsCtx h (some n) ctx)
    (hparent : h.parent n = parentOf ctx) (hcolor : h.color n = c)
    (hl : IsTree h (some n) (some x) l) (hseg : IsSeg h (h.child .right s) (some s) child2 ictx)
    (hr : IsTree h q₂ child2 r) (hpar : parentOr (some s) ictx = some parent)
    (hnodup : (n :: s :: (l.toList ++ (r.toList ++ (ctxNodes ictx ++ ctxNodes ctx)))).Nodup) :
    Located (successorStores h n s x parent child2) ctx (some s)
      (.mk .right c (plug ictx (r.paint .black)) s l) := by
  have hxl : x ∈ l.toList := hl.mem rfl
  obtain ⟨hxn, hn, hsr, hndl, hndr⟩ : x ≠ n ∧ n ∉ ctxNodes ctx ∧ s ∉ r.toList ∧ l.toList.Nodup ∧
      r.toList.Nodup := by grind
  have hrest : ∀ y ∈ ctxNodes ictx ++ ctxNodes ctx, y ≠ s ∧ y ≠ x ∧ y ∉ r.toList := by grind
  have hrestl : ∀ y ∈ l.toList, y ≠ s ∧ y ∉ r.toList := by grind
  have hrestr : ∀ y ∈ r.toList, y ≠ s ∧ y ≠ x := by grind
  have hrmem : ∀ y ∉ r.toList, child2 ≠ some y := fun y hy heq => hy (hr.mem heq)
  let h₁ := h.setChild .left s (some x)
  let h₂ := h₁.setParent x (some s)
  let h₃ := h₂.setParentColor s (parentOf ctx) c
  let h₄ := h₃.setParentColorOpt child2 (some parent) .black
  -- the stores touch `s`, the left child of `n` and `child2`
  have hsame : ∀ y ∈ ctxNodes ictx ++ ctxNodes ctx, SameAt h h₄ y := by
    intro y hy
    obtain ⟨hys, hyx, hyr⟩ := hrest y hy
    have h12 : SameAt h h₂ y := (sameAt_setChild hys).trans (sameAt_setParentColor hyx)
    have h34 : SameAt h₃ h₄ y := sameAt_setParentColorOpt (hrmem y hyr)
    exact (h12.trans (sameAt_setParentColor hys)).trans h34
  have hsword : h₄.parent s = parentOf ctx ∧ h₄.color s = c := by
    constructor
    · rw [RbHeap.parent_setParentColorOpt (hrmem s hsr)]
      simp [h₃]
    · rw [RbHeap.color_setParentColorOpt (hrmem s hsr)]
      simp [h₃]
  have hchild : ∀ d y, h₄.child d y = h₁.child d y := by simp [h₄, h₃, h₂, RbHeap.setParent]
  have hplace : IsCtx h₄ (some n) ctx := hctx.congr (fun y hy => hsame y (by simp [hy]))
    (by simp [h₄, h₃, h₂, h₁, RbHeap.setParent])
  have hl₄ : IsTree h₄ (some s) (some x) l := by
    have hl₁ : IsTree h₁ (some n) (some x) l :=
      hl.congr fun y hy => sameAt_setChild (hrestl y hy).1
    have hl₂ : IsTree h₂ (some s) (some x) l := hl₁.setParent hndl
    refine hl₂.congr fun y hy => ?_
    have h34 : SameAt h₃ h₄ y := sameAt_setParentColorOpt (hrmem y (hrestl y hy).2)
    exact (sameAt_setParentColor (hrestl y hy).1).trans h34
  have hr₄ : IsTree h₄ (some parent) child2 (r.paint .black) := by
    have hr₃ : IsTree h₃ q₂ child2 r := by
      refine hr.congr fun y hy => ?_
      obtain ⟨hys, hyx⟩ := hrestr y hy
      exact ((sameAt_setChild hys).trans (sameAt_setParentColor hyx)).trans
        (sameAt_setParentColor hys)
    exact hr₃.setParentColorOpt hndr
  have hseg₄ : IsSeg h₄ (h.child .right s) (some s) child2 ictx :=
    hseg.congr fun y hy => hsame y (by simp [hy])
  have htree : IsTree h₄ (parentOf ctx) (some s)
      (.mk .right c (plug ictx (r.paint .black)) s l) := by
    refine isTree_mk.mpr ⟨rfl, hsword.2, hsword.1, ?_, ?_⟩
    · rw [hchild]
      exact isTree_plug.mpr ⟨child2, hseg₄, by rwa [hpar]⟩
    · rw [hchild, show h₁.child Dir.right.other s = some x by simp [h₁, Dir.other]]
      exact hl₄
  have hnodup' : ((mk .right c (plug ictx (r.paint .black)) s l).toList ++ ctxNodes ctx).Nodup := by
    refine nodup_of_count (nodup_cons.mp hnodup).2 fun y => ?_
    simp only [count_mk, count_append, count_cons, toList_plug_perm.count_eq, toList_paint]
    omega
  have hloc := located_rbChangeChild hplace hn htree hnodup'
  have hpar₂ : h₂.parent n = parentOf ctx := by simp [h₂, h₁, RbHeap.setParent, hxn.symm, hparent]
  have hcol₂ : h₂.color n = c := by simp [h₂, h₁, RbHeap.setParent, hxn.symm, hcolor]
  have hfinal : h₄ = (h₂.setParentColorOpt (some s) (parentOf ctx) c).setParentColorOpt child2
      (some parent) .black := rfl
  rw [hfinal, ← rbChangeChild_setParentColorOpt, ← rbChangeChild_setParentColorOpt] at hloc
  change Located (((rbChangeChild h₂ n (some s) (h₂.parent n)).setParentColorOpt (some s)
    (h₂.parent n) (h₂.color n)).setParentColorOpt child2 (some parent) .black) ctx _ _
  rwa [hpar₂, hcol₂]

end

/-! ## Unlinking -/

section
variable {h : RbHeap P A} {ctx : List (RbStep P)} {d : Dir} {c col : Color} {q : Option P}
  {n x : P} {k : Nat} {u : RbTree P}

/-- What `__rb_erase_augmented` leaves: a red-black tree of the nodes `xs`, or one that is a
black node short at a missing child of the node returned. -/
def Unlinked (Fits : A → List (RbStep P) → RbTree P → Prop) (xs : List P)
    (out : RbHeap P A × Option P) : Prop :=
  (out.2 = none ∧ ∃ t, Rep out.1 t ∧ Fits out.1.aug [] t ∧ t.RedBlack ∧ t.toList = xs) ∨
  ∃ step ctx, out.2 = some step.node ∧ Located out.1 (step :: ctx) none .nil ∧
    Fits out.1.aug [] (plug (step :: ctx) .nil) ∧
    CtxRedBlack (step :: ctx) .black 1 ∧ (plug (step :: ctx) .nil).toList = xs

variable {Fits : A → List (RbStep P) → RbTree P → Prop}

/-- A node without a child on one side has at most a red leaf on the other; closing up its
place costs a black node only if it is a black leaf. -/
theorem unlinked_of_located
    (hl : Located h ctx q (u.paint col)) (hfits : Fits h.aug [] (plug ctx (u.paint col)))
    (hnrr : (mk d c .nil x u).NoRedRed) (hk : (mk d c .nil x u).BlackHeight k)
    (hctx : CtxRedBlack ctx c k) (hcol : col = .black ∨ col = c) :
    Unlinked Fits (plug ctx (u.paint col)).toList
      (h, if q = none ∧ c = .black then parentOf ctx else none) := by
  obtain ⟨hred, -, hunrr⟩ := noRedRed_mk.mp hnrr
  cases u with
  | nil =>
    obtain rfl : q = none := hl.tree
    cases c with
    | red =>
      obtain rfl : k = 0 := (blackHeight_mk_red.mp hk).1
      refine .inl ⟨by simp, _, hl.rep, hfits, ?_, rfl⟩
      exact redBlack_plug.mpr ⟨0, trivial, rfl, hctx.black⟩
    | black =>
      obtain ⟨j, rfl, hj, -⟩ := blackHeight_mk_black.mp hk
      obtain rfl : j = 0 := hj
      cases ctx with
      | nil => exact .inl ⟨rfl, _, hl.rep, hfits, redBlack_plug.mpr ⟨0, trivial, rfl, rfl⟩, rfl⟩
      | cons step ctx => exact .inr ⟨step, ctx, rfl, hl, hfits, hctx, rfl⟩
  | node cu a y b =>
    obtain rfl : q = some y := hl.tree.1
    have hu : (node cu a y b).BlackHeight 0 := by
      cases c with
      | red =>
        obtain ⟨hnil, hu⟩ := blackHeight_mk_red.mp hk
        exact hnil ▸ hu
      | black =>
        obtain ⟨j, -, hnil, hu⟩ := blackHeight_mk_black.mp hk
        exact hnil ▸ hu
    obtain rfl : cu = .red := by
      cases cu with
      | red => rfl
      | black =>
        obtain ⟨j, hj, -⟩ := hu
        omega
    obtain rfl : c = .black := by
      cases c with
      | black => rfl
      | red => exact absurd (hred rfl).2 (by simp [color])
    obtain rfl : col = .black := by simpa using hcol
    obtain ⟨j, rfl, hnil, -⟩ := blackHeight_mk_black.mp hk
    obtain rfl : j = 0 := hnil
    refine .inl ⟨by simp, _, hl.rep, hfits, redBlack_plug.mpr ⟨1, hunrr.paint_black, ?_, hctx⟩,
      rfl⟩
    exact hu.paint_black rfl

variable [DecidableEq P]

theorem located_replace (hl : Located h ctx (some n) (.mk d c .nil n u)) :
    Located ((rbChangeChild h n (h.child d.other n) (parentOf ctx)).setParentColorOpt
      (h.child d.other n) (parentOf ctx) c) ctx (h.child d.other n) (u.paint c) := by
  obtain ⟨-, -, -, -, hu⟩ := isTree_mk.mp hl.tree
  have hnd : (n :: (u.toList ++ ctxNodes ctx)).Nodup := by
    have hperm : ((mk d c .nil n u).toList ++ ctxNodes ctx).Perm
        (n :: (u.toList ++ ctxNodes ctx)) := toList_mk_perm.append_right _
    exact hperm.nodup_iff.mp hl.nodup
  obtain ⟨hn, hnd⟩ := nodup_cons.mp hnd
  obtain ⟨hndu, -, hdis⟩ := nodup_append.mp hnd
  rw [rbChangeChild_setParentColorOpt]
  refine located_rbChangeChild ?_ (fun hmem => hn (by simp [hmem])) (hu.setParentColorOpt hndu)
    (by simpa using hnd)
  refine hl.place.congr (fun y hy => sameAt_setParentColorOpt fun heq => ?_) (by simp)
  exact hdis y (hu.mem heq) y hy rfl

variable {cb : RbAugmentCallbacks P A}

theorem unlinked_replace (hcb : cb.Keeps Fits) (hl : Located h ctx (some n) (.mk d c .nil n u))
    (hfits : Fits h.aug [] (plug ctx (.mk d c .nil n u)))
    (hrb : (plug ctx (.mk d c .nil n u)).RedBlack) {h₁ : RbHeap P A}
    (hstores : h₁ = (rbChangeChild h n (h.child d.other n) (parentOf ctx)).setParentColorOpt
      (h.child d.other n) (parentOf ctx) c) : Unlinked Fits (plug ctx (u.paint c)).toList
      (h₁.setAug (cb.propagate h₁ (parentOf ctx) none),
        if h.child d.other n = none ∧ c = .black then parentOf ctx else none) := by
  obtain ⟨k, hnrr, hk, hctx⟩ := redBlack_plug.mp hrb
  rw [color_mk] at hctx
  have hloc : Located h₁ ctx (h.child d.other n) (u.paint c) := hstores ▸ located_replace hl
  have haug : h₁.aug = h.aug := by
    rw [hstores, RbHeap.aug_setParentColorOpt, RbHeap.aug_rbChangeChild]
  have hfits' : Fits h.aug [] (plug ctx (.mk d c .nil n (u.paint c))) :=
    hcb.recolor_plug (by simp) hfits
  have hfit := hcb.propagate hloc (by rw [haug]; exact hcb.unlink hfits')
  exact unlinked_of_located hloc.setAug hfit hnrr hk hctx (.inr rfl)

variable {l r : RbTree P} {s : P} {cs : Color} {ictx : List (RbStep P)}

/-- Cases 2 and 3: the successor `s` of `n` closes up its own place and takes that of `n`. -/
theorem unlinked_successor (hcb : cb.Keeps Fits) {parent : P} {child2 q₂ : Option P}
    (hctx : IsCtx h (some n) ctx) (hparent : h.parent n = parentOf ctx)
    (hcolor : h.color n = c) (hleft : h.child .left n = some x) (hl : IsTree h (some n) (some x) l)
    (hseg : IsSeg h (h.child .right s) (some s) child2 ictx) (hr : IsTree h q₂ child2 r)
    (hpar : parentOr (some s) ictx = some parent) (hscolor : h.color s = cs)
    (hnodup : (n :: s :: (l.toList ++ (r.toList ++ (ctxNodes ictx ++ ctxNodes ctx)))).Nodup)
    (hfits : Fits h.aug (⟨.right, c, s, l⟩ :: ctx) (plug ictx r))
    (hrb : (plug ctx (.mk .right c (plug ictx (.mk .left cs .nil s r)) n l)).RedBlack) :
    ∃ out, rbEraseSuccessor cb h n s parent child2 = some out ∧
      Unlinked Fits (plug ctx (.mk .right c (plug ictx r) s l)).toList out := by
  have hloc := located_successorStores hctx hparent hcolor hl hseg hr hpar hnodup
  have hxs : x ≠ s := by
    rintro rfl
    exact (nodup_cons.mp (nodup_cons.mp hnodup).2).1 (by simp [hl.mem rfl])
  refine ⟨_, rbEraseSuccessor_eq cb parent child2 hleft hxs, ?_⟩
  -- everything but `s` is up to date when the last call starts there
  let step : RbStep P := ⟨.right, c, s, l⟩
  have hup : Located (successorStores h n s x parent child2) ctx (some step.node)
      (.mk step.dir step.color (plug ictx (r.paint .black)) step.node step.other) := hloc
  obtain ⟨q', hdown⟩ := located_up.mp hup
  have hfits' : Fits (successorStores h n s x parent child2).aug (⟨.right, c, s, l⟩ :: ctx)
      (plug ictx (r.paint .black)) := by
    rw [aug_successorStores]
    exact hcb.recolor (uncolored_plug uncolored_paint.symm) hfits
  have hfit := hcb.propagate hdown hfits'
  have hplug : ∀ y t, plug ctx (.mk .right c (plug ictx t) y l) =
      plug (ictx ++ ⟨.right, c, y, l⟩ :: ctx) t := by
    intro y t
    rw [plug_append]
    rfl
  rw [hplug] at hrb ⊢
  obtain ⟨k, hnrr, hk, hctx'⟩ := redBlack_plug.mp hrb
  obtain ⟨q, hloc'⟩ := Rep.located (hplug s (r.paint .black) ▸ hloc.rep)
  rw [← plug_append] at hfit
  have hout := unlinked_of_located hloc'.setAug hfit hnrr hk (ctxRedBlack_rename.mp hctx')
    (.inl rfl)
  have hnone : q = none ↔ child2 = none := by
    rw [hloc'.tree.eq_none_iff, hr.eq_none_iff]
    cases r <;> simp [paint]
  have hup : parentOf (ictx ++ ⟨.right, c, s, l⟩ :: ctx) = some parent := by
    cases ictx with
    | nil | cons s' ictx => exact hpar
  rw [hup, toList_plug_congr toList_paint] at hout
  simp only [hnone] at hout
  rwa [hscolor]

variable {y : P}

/-- Case 3, up to the common end: the place of `s` is closed by its right child, and the
right subtree of `n` is hung below `s`. -/
theorem unlinked_case3 (hcb : cb.Keeps Fits) {step : RbStep P} {h₂ : RbHeap P A}
    (hstores : h₂ = ((h.setChild .left step.node (h.child .right s)).setChild .right s
      (some y)).setParent y (some s))
    (hl : Located h ctx (some n) (.mk .right c (plug (step :: ictx) (.mk .left cs .nil s r)) n l))
    (hright : h.child .right n = some y) (hleft : h.child .left n = some x)
    (hdir : step.dir = .left) (hfits : Fits h.aug []
      (plug ctx (.mk .right c (plug (step :: ictx) (.mk .left cs .nil s r)) n l)))
    (hrb : (plug ctx (.mk .right c (plug (step :: ictx) (.mk .left cs .nil s r)) n l)).RedBlack) :
    ∃ out, rbEraseSuccessor cb (h₂.setAug
        (cb.propagate (h₂.setAug (cb.copy h₂ n s)) (some step.node) (some s))) n s step.node
        (h.child .right s) = some out ∧
      Unlinked Fits (plug ctx (.mk .right c (plug (step :: ictx) r) s l)).toList out := by
  subst hstores
  obtain ⟨-, hncol, hnpar, hseg, htl⟩ := isTree_mk.mp hl.tree
  rw [hright] at hseg
  rw [show h.child Dir.right.other n = some x from hleft] at htl
  obtain ⟨q, hseg, hts⟩ := isTree_plug.mp hseg
  obtain ⟨rfl, hscol, -, -, htr⟩ := isTree_mk.mp hts
  have hyseg : y ∈ ctxNodes (step :: ictx) := hseg.top_mem
  have hnodup : (n :: s :: (l.toList ++
      (r.toList ++ (ctxNodes (step :: ictx) ++ ctxNodes ctx)))).Nodup := by
    refine nodup_of_count hl.nodup fun z => ?_
    simp only [count_mk, count_append, count_cons, toList_plug_perm.count_eq, toList, count_nil]
    omega
  have hstep : step.node ∈ ctxNodes (step :: ictx) := by simp [ctxNodes]
  obtain ⟨hns, hn, hsy, hndi⟩ : n ≠ s ∧ n ∉ ctxNodes (step :: ictx) ∧ s ≠ y ∧
      (ctxNodes (step :: ictx)).Nodup := by grind
  have hrest : ∀ z ∈ l.toList ++ (r.toList ++ ctxNodes ctx),
      z ≠ s ∧ z ∉ ctxNodes (step :: ictx) := by grind
  have hrests : ∀ z ∈ ctxNodes (step :: ictx), z ≠ s := by grind
  let h₁ := h.setChild .left step.node (h.child .right s)
  let h₂ := h₁.setChild .right s (some y)
  let h₃ := h₂.setParent y (some s)
  have hsame : ∀ z, z ≠ s → z ∉ ctxNodes (step :: ictx) → SameAt h h₃ z := by
    intro z hzs hz
    have h12 : SameAt h h₂ z := (sameAt_setChild (ne_of_mem_of_not_mem hstep hz).symm).trans
      (sameAt_setChild hzs)
    exact h12.trans (sameAt_setParentColor (ne_of_mem_of_not_mem hyseg hz).symm)
  have hkeep : ∀ z ∈ l.toList ++ (r.toList ++ ctxNodes ctx), SameAt h h₃ z :=
    fun z hz => hsame z (hrest z hz).1 (hrest z hz).2
  obtain ⟨hnc, hnp, hncl⟩ := hsame n hns hn
  have hys : h₃.child .right s = some y := by simp [h₃, h₂, RbHeap.setParent]
  have hseg₃ : IsSeg h₃ (h₃.child .right s) (some s) (h.child .right s) (step :: ictx) := by
    have hseg₁ : IsSeg h₁ (some y) (some n) (h.child .right s) (step :: ictx) := by
      have hset : IsSeg (h.setChild step.dir step.node (h.child .right s)) (some y) (some n)
          (h.child .right s) (step :: ictx) := hseg.setChild hndi
      rwa [hdir] at hset
    have hseg₂ : IsSeg h₂ (some y) (some n) (h.child .right s) (step :: ictx) :=
      hseg₁.congr fun z hz => sameAt_setChild (hrests z hz)
    rw [hys]
    exact hseg₂.setParent hndi
  have hr₃ : IsTree h₃ (some s) (h.child .right s) r :=
    htr.congr fun z hz => hkeep z (by simp [hz])
  have hscol₃ : h₃.color s = cs := by simpa [h₃, h₂, h₁, RbHeap.setParent, hsy] using hscol
  have hfits₃ := hcb.copy_propagate hseg₃ hr₃ hnodup hfits
  refine unlinked_successor hcb ?_ (hnp.trans hnpar) (hncl.trans hncol) ((hnc _).trans hleft) ?_
    (hseg₃.congr fun _ _ => sameAt_setAug) (isTree_setAug.mpr hr₃) rfl hscol₃ hnodup hfits₃ hrb
  · exact hl.place.congr (fun z hz => (hkeep z (by simp [hz])).trans sameAt_setAug) rfl
  · exact htl.congr fun z hz => (hkeep z (by simp [hz])).trans sameAt_setAug

variable {fuel : Nat}

theorem rbEraseAugmented_two_children (hcb : cb.Keeps Fits)
    (hl : Located h ctx (some n) (.mk .right c r n l))
    (hfits : Fits h.aug [] (plug ctx (.mk .right c r n l)))
    (hrb : (plug ctx (.mk .right c r n l)).RedBlack) (hfuel : r.toList.length < fuel)
    (hleft : h.child .left n = some x) (hright : h.child .right n = some y) :
    ∃ out, rbEraseAugmented cb fuel h n = some out ∧
      Unlinked Fits (ctxBefore ctx ++ (l.toList ++ r.toList) ++ ctxAfter ctx) out := by
  obtain ⟨-, hcol, hpar, htr, htl⟩ := isTree_mk.mp hl.tree
  rw [hright] at htr
  rw [show h.child Dir.right.other n = some x from hleft] at htl
  match r, htr with
  | .node cy ry y' r', htr =>
    obtain ⟨⟨⟩, hycol, hypar, hty, htr'⟩ := htr
    cases hyleft : h.child .left y with
    | none =>
      -- Case 2: the successor is the right child itself
      obtain rfl := hty.eq_none_iff.mp hyleft
      have hnodup : (n :: y :: (l.toList ++ (r'.toList ++
          (ctxNodes ([] : List (RbStep P)) ++ ctxNodes ctx)))).Nodup := by
        refine nodup_of_count hl.nodup fun w => ?_
        simp only [count_mk, toList, ctxNodes, count_append, count_cons, nil_append]
        omega
      have hplace : IsCtx (h.setAug (cb.copy h n y)) (some n) ctx := hl.setAug.place
      have hseg : IsSeg (h.setAug (cb.copy h n y)) (h.child .right y) (some y)
          (h.child .right y) [] := rfl
      have hfits₁ : Fits h.aug [] (plug ctx (.mk .right c (.mk .left cy .nil y r') n l)) := hfits
      have hfits₂ := hcb.copy (by simpa [ctxNodes] using hnodup) hfits₁
      obtain ⟨out, hrun, hout⟩ := unlinked_successor hcb hplace hpar hcol hleft
        (isTree_setAug.mpr htl) hseg (isTree_setAug.mpr htr') rfl hycol hnodup hfits₂ hrb
      rw [toList_plug] at hout
      refine ⟨out, ?_, hout⟩
      simp only [rbEraseAugmented, hleft, hright, hyleft]
      exact hrun
    | some z =>
      -- Case 3: the successor is leftmost below the right child
      rw [hyleft] at hty
      have hlen : ry.toList.length < fuel := by
        simp only [toList, length_append] at hfuel
        omega
      obtain ⟨ictx, cs, s, r₂, parent, rest, hwalk, rfl, hparent, hlist, hdir⟩ :=
        rbLeftmost_spec hty hlen
      obtain ⟨step, ictx', hsteps, hleftdir, rfl⟩ : ∃ step ictx',
          ictx ++ [⟨.left, cy, y, r'⟩] = step :: ictx' ∧ step.dir = .left ∧ step.node = parent := by
        cases ictx with
        | nil => exact ⟨_, _, rfl, rfl, Option.some.inj hparent⟩
        | cons step ictx => exact ⟨_, _, rfl, hdir step rfl, Option.some.inj hparent⟩
      have hnode : ∀ t, node cy (plug ictx t) y r' = plug (step :: ictx') t := by
        intro t
        rw [← hsteps, plug_append]
        rfl
      rw [hnode] at hl hrb hfits
      obtain ⟨out, hrun, hout⟩ := unlinked_case3 hcb rfl hl hright hleft hleftdir hfits hrb
      rw [toList_plug, ← hnode] at hout
      refine ⟨out, ?_, ?_⟩
      · simp only [rbEraseAugmented, hleft, hright, hyleft, hwalk]
        exact hrun
      · simpa [mk, toList, hlist] using hout

/-- `__rb_erase_augmented` takes exactly the node `n` out of the in-order sequence. -/
theorem rbEraseAugmented_spec (hcb : cb.Keeps Fits)
    (hl : Located h ctx (some n) (.mk .left c l n r))
    (hfits : Fits h.aug [] (plug ctx (.mk .left c l n r)))
    (hrb : (plug ctx (.mk .left c l n r)).RedBlack) (hfuel : r.toList.length < fuel) :
    ∃ out, rbEraseAugmented cb fuel h n = some out ∧
      Unlinked Fits (ctxBefore ctx ++ (l.toList ++ r.toList) ++ ctxAfter ctx) out := by
  obtain ⟨-, hcol, hpar, htl, htr⟩ := isTree_mk.mp hl.tree
  cases hleft : h.child .left n with
  | none =>
    -- Case 1, no left child
    obtain rfl := htl.eq_none_iff.mp hleft
    have hout := unlinked_replace hcb hl hfits hrb rfl
    rw [toList_plug, toList_paint] at hout
    cases hright : h.child .right n with
    | none =>
      simp only [Dir.other, hright, true_and] at hout
      simp only [rbEraseAugmented, hleft, hright, hpar, hcol]
      exact ⟨_, rfl, hout⟩
    | some y =>
      simp only [Dir.other, hright, reduceCtorEq, false_and, if_false] at hout
      simp only [rbEraseAugmented, hleft, hright, hpar, hcol]
      exact ⟨_, rfl, hout⟩
  | some x =>
    have hmk : mk .left c l n r = .mk .right c r n l := rfl
    rw [hmk] at hl hrb hfits
    cases hright : h.child .right n with
    | none =>
      -- Case 1, no right child
      obtain rfl := htr.eq_none_iff.mp hright
      have hout := unlinked_replace hcb hl hfits hrb rbChangeChild_setParentColorOpt.symm
      rw [toList_plug, toList_paint] at hout
      simp only [Dir.other, hleft, reduceCtorEq, false_and, if_false] at hout
      simp only [rbEraseAugmented, hleft, hright, hpar, hcol, toList, append_nil]
      exact ⟨_, rfl, hout⟩
    | some y => exact rbEraseAugmented_two_children hcb hl hfits hrb hfuel hleft hright

theorem rbEraseAugmentedNode_spec (hcb : cb.Keeps Fits) (hrep : Rep h t) (hfits : Fits h.aug [] t)
    (hrb : t.RedBlack) (hn : n ∈ t.toList) (hfuel : t.toList.length < fuel) :
    ∃ h' t', rbEraseAugmentedNode cb fuel h n = some h' ∧ Rep h' t' ∧ Fits h'.aug [] t' ∧
      t'.RedBlack ∧ ∃ pre post, t.toList = pre ++ n :: post ∧ t'.toList = pre ++ post := by
  obtain ⟨ctx, c, l, r, rfl⟩ := exists_plug .left hn
  obtain ⟨q, hl⟩ := hrep.located
  obtain rfl : q = some n := (isTree_mk.mp hl.tree).1
  have hlist : (plug ctx (.mk .left c l n r)).toList =
      (ctxBefore ctx ++ l.toList) ++ n :: (r.toList ++ ctxAfter ctx) := by
    simp [toList_plug, mk, toList]
  have hlen : r.toList.length < fuel := by
    rw [hlist] at hfuel
    simp only [length_append, length_cons] at hfuel
    omega
  obtain ⟨⟨h₁, up⟩, hrun, hout⟩ := rbEraseAugmented_spec hcb hl hfits hrb hlen
  rcases hout with ⟨rfl, t', hrep', hfit, hrb', ht'⟩ | ⟨step, ctx', rfl, hloc, hfit, hctx, ht'⟩
  · refine ⟨h₁, t', by simp [rbEraseAugmentedNode, hrun], hrep', hfit, hrb', _, _, hlist, ?_⟩
    simp [ht']
  have hlen' : ctx'.length < fuel := by
    have hle : (step :: ctx').length ≤ (plug (step :: ctx') (.nil : RbTree P)).toList.length :=
      length_le_toList_plug
    rw [ht'] at hle
    rw [hlist] at hfuel
    simp only [length_append, length_cons] at hle hfuel
    omega
  obtain ⟨h', t', hloop, hrep', hfit', hrb', hlist'⟩ :=
    rbEraseColorLoop_spec hcb hloc hfit trivial rfl hctx hlen'
  refine ⟨h', t', by simp [rbEraseAugmentedNode, hrun, hloop], hrep', hfit', hrb', _, _, hlist, ?_⟩
  simp [hlist', ht']

theorem rbErase_spec (hrep : Rep h t) (hrb : t.RedBlack)
    (hn : n ∈ t.toList) (hfuel : t.toList.length < fuel) :
    ∃ h' t', rbErase fuel h n = some h' ∧ Rep h' t' ∧ t'.RedBlack ∧
      ∃ pre post, t.toList = pre ++ n :: post ∧ t'.toList = pre ++ post := by
  obtain ⟨h', t', hrun, hrep', -, hrb', hlist⟩ :=
    rbEraseAugmentedNode_spec (keeps_true (dummyCallbacks P A)) hrep trivial hrb hn hfuel
  exact ⟨h', t', hrun, hrep', hrb', hlist⟩

end

/-! ## The two operations -/

/-- Linking a new node at any NULL slot followed by `rb_insert_color`, and `rb_erase` of any
node, turn a red-black tree with consistent pointers into one again, and change its
in-order sequence by exactly that node. -/
theorem rbtree_insert_erase [DecidableEq P] (h : RbHeap P A) (t : RbTree P) (hrep : Rep h t)
    (hrb : t.RedBlack) (fuel : Nat) (hfuel : t.toList.length < fuel) :
    (∀ n link, n ∉ t.toList → NullSlot h t link →
      ∃ h' t', rbInsertColor fuel (rbLinkNode h n link) n = some h' ∧ Rep h' t' ∧ t'.RedBlack ∧
        InsertedAt n link t.toList t'.toList) ∧
    ∀ n ∈ t.toList, ∃ h' t', rbErase fuel h n = some h' ∧ Rep h' t' ∧ t'.RedBlack ∧
      ∃ pre post, t.toList = pre ++ n :: post ∧ t'.toList = pre ++ post :=
  ⟨fun _ _ hn hslot => rbInsertColor_spec hrep hrb hslot hn hfuel,
    fun _ hn => rbErase_spec hrep hrb hn hfuel⟩

def threeNodeHeap : RbHeap Nat Unit where
  parent x := if x = 1 then none else some 1
  color x := if x = 1 then .black else .red
  child d x := if x = 1 then some (match d with | .left => 0 | .right => 2) else none
  root := some 1
  aug := ()

def threeNodeTree : RbTree Nat :=
  .node .black (.node .red .nil 0 .nil) 1 (.node .red .nil 2 .nil)

theorem redBlack_threeNodeTree : threeNodeTree.RedBlack :=
  ⟨rfl, by simp [threeNodeTree, NoRedRed, color], 1, 0, rfl, ⟨rfl, rfl⟩, rfl, rfl⟩

theorem rbtree_insert_erase_threeNodes :
    (∃ h' t', rbInsertColor 4 (rbLinkNode threeNodeHeap 3 (some (2, .right))) 3 = some h' ∧
      Rep h' t' ∧ t'.RedBlack ∧ InsertedAt 3 (some (2, .right)) [0, 1, 2] t'.toList) ∧
    ∃ h' t', rbErase 4 threeNodeHeap 1 = some h' ∧ Rep h' t' ∧ t'.RedBlack ∧
      ∃ pre post, [0, 1, 2] = pre ++ 1 :: post ∧ t'.toList = pre ++ post := by
  have hrep : Rep threeNodeHeap threeNodeTree :=
    ⟨by simp [threeNodeTree, IsTree, threeNodeHeap], by decide⟩
  obtain ⟨hinsert, herase⟩ :=
    rbtree_insert_erase threeNodeHeap threeNodeTree hrep redBlack_threeNodeTree 4 (by decide)
  exact ⟨hinsert 3 (some (2, .right)) (by decide) ⟨by decide, rfl⟩, herase 1 (by decide)⟩

end LinuxKernel.Lib
