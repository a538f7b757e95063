import LinuxKernel.Lib.RbtreeRep

/-!
# Augmented data

A condition on the augmented data of a tree is kept by the tree operations if the callbacks keep it
where they are called: after a rotation, and after a node has been unlinked or has taken the place
of another one. `RbAugmentCallbacks.Keeps` says what that means for the three callbacks; in between,
the data may be wrong at the node that the place hangs on.
-/

namespace LinuxKernel.Lib

open List RbHeap

variable {P A : Type}

/-! ## Paths inside a subtree -/

section
variable {h : RbHeap P A} {ctx ictx : List (RbStep P)} {q top par : Option P} {t : RbTree P}

theorem isTree_plug : IsTree h par top (plug ctx t) ↔
    ∃ q, IsSeg h top par q ctx ∧ IsTree h (parentOr par ctx) q t := by
  induction ctx generalizing t with
  | nil => simp [plug, IsSeg, parentOr]
  | cons s ctx ih =>
    rw [plug, ih]
    constructor
    · rintro ⟨q, hseg, htree⟩
      obtain ⟨rfl, hcolor, hparent, hnear, hfar⟩ := isTree_mk.mp htree
      exact ⟨_, ⟨rfl, hcolor, hparent, hfar, hseg⟩, hnear⟩
    · rintro ⟨q, ⟨rfl, hcolor, hparent, hfar, hseg⟩, htree⟩
      exact ⟨_, hseg, isTree_mk.mpr ⟨rfl, hcolor, hparent, htree, hfar⟩⟩

theorem IsSeg.top_mem {s : RbStep P} {y : P} (hseg : IsSeg h (some y) par q (s :: ctx)) :
    y ∈ ctxNodes (s :: ctx) := by
  induction ctx generalizing s q with
  | nil =>
    obtain rfl : s.node = y := Option.some.inj hseg.2.2.2.2
    simp [ctxNodes]
  | cons s' ctx ih =>
    have hmem := ih hseg.2.2.2.2
    exact mem_cons_of_mem _ (mem_append_right _ hmem)

theorem plug_append : plug (ictx ++ ctx) t = plug ctx (plug ictx t) := by
  induction ictx generalizing t with
  | nil => rfl
  | cons s ictx ih => exact ih

variable [DecidableEq P]

theorem IsSeg.setParent {s : RbStep P} {y : P} {par' : Option P}
    (hseg : IsSeg h (some y) par q (s :: ctx)) (hnodup : (ctxNodes (s :: ctx)).Nodup) :
    IsSeg (h.setParent y par') (some y) par' q (s :: ctx) := by
  induction ctx generalizing s q with
  | nil =>
    obtain ⟨hchild, hcolor, -, hother, htop⟩ := hseg
    obtain rfl : s.node = y := Option.some.inj htop
    refine ⟨hchild, by simpa [setParent] using hcolor, by simp [setParent, parentOr],
      ?_, rfl⟩
    refine hother.congr fun x hx => sameAt_setParentColor ?_
    rintro rfl
    exact (nodup_cons.mp hnodup).1 (by simp [hx])
  | cons s' ctx ih =>
    obtain ⟨hchild, hcolor, hparent, hother, hup⟩ := hseg
    obtain ⟨hs, hnd⟩ := nodup_cons.mp hnodup
    obtain ⟨-, hnd', hdis⟩ := nodup_append.mp hnd
    have hne : s.node ≠ y := by
      rintro rfl
      exact hs (mem_append_right _ hup.top_mem)
    refine ⟨hchild, by simpa [setParent, hne] using hcolor,
      by simpa [setParent, hne, parentOr] using hparent, ?_, ih hup hnd'⟩
    refine hother.congr fun x hx => sameAt_setParentColor ?_
    rintro rfl
    exact hdis x hx x hup.top_mem rfl

end

/-! ## Shapes -/

namespace RbTree

/-- The shape of a tree: all colours forgotten. -/
def uncolored : RbTree P → RbTree P
  | nil => nil
  | node _ l x r => node .black l.uncolored x r.uncolored

variable {d : Dir} {c : Color} {x : P} {t near far : RbTree P}

@[simp]
theorem uncolored_paint : (t.paint c).uncolored = t.uncolored := by cases t <;> rfl

@[simp]
theorem uncolored_mk :
    (mk d c near x far).uncolored = mk d .black near.uncolored x far.uncolored := by
  cases d <;> rfl

end RbTree

theorem uncolored_plug {ctx : List (RbStep P)} {t t' : RbTree P}
    (h : t.uncolored = t'.uncolored) : (plug ctx t).uncolored = (plug ctx t').uncolored := by
  induction ctx generalizing t t' with
  | nil => exact h
  | cons s ctx ih =>
    apply ih
    rw [RbTree.uncolored_mk, RbTree.uncolored_mk, h]

/-! ## The contract of the callbacks -/

/-- `Fits a ctx t` says that the data is right in and around `t`, but perhaps at the node that the
place hangs on; `Fits a [] t` that it is right in the whole tree `t`. -/
structure RbAugmentCallbacks.Keeps (cb : RbAugmentCallbacks P A)
    (Fits : A → List (RbStep P) → RbTree P → Prop) : Prop where
  recolor {a : A} {ctx : List (RbStep P)} {t t' : RbTree P} :
    t.uncolored = t'.uncolored → Fits a ctx t → Fits a ctx t'
  /-- `p` has moved up into the place of `g`. -/
  rotate {h : RbHeap P A} {a : A} {ctx : List (RbStep P)} {d : Dir} {c₁ c₂ c₃ c₄ : Color} {p g : P}
    {N C U : RbTree P} :
    IsTree h (some g) (h.child d g) C → IsTree h (some g) (h.child d.other g) U →
    (p :: g :: (N.toList ++ (C.toList ++ (U.toList ++ ctxNodes ctx)))).Nodup →
    h.aug = a → Fits a [] (plug ctx (.mk d c₁ (.mk d c₂ N p C) g U)) →
    Fits (cb.rotate h g p) [] (plug ctx (.mk d c₃ N p (.mk d c₄ C g U)))
  /-- A node without a child on one side is replaced by its other child. -/
  unlink {a : A} {ctx : List (RbStep P)} {d : Dir} {c : Color} {n : P} {u : RbTree P} :
    Fits a [] (plug ctx (.mk d c .nil n u)) → Fits a ctx u
  propagate {h : RbHeap P A} {ctx : List (RbStep P)} {q : Option P} {u : RbTree P} :
    Located h ctx q u → Fits h.aug ctx u →
    Fits (cb.propagate h (parentOf ctx) none) [] (plug ctx u)
  /-- The right child `s` takes the place of `n`. -/
  copy {h : RbHeap P A} {ctx : List (RbStep P)} {c cs : Color} {n s : P} {l r : RbTree P} :
    (n :: s :: (l.toList ++ (r.toList ++ ctxNodes ctx))).Nodup →
    Fits h.aug [] (plug ctx (.mk .right c (.mk .left cs .nil s r) n l)) →
    Fits (cb.copy h n s) (⟨.right, c, s, l⟩ :: ctx) r
  /-- A node `s` further down on the right takes the place of `n`. -/
  copy_propagate {h : RbHeap P A} {ctx ictx : List (RbStep P)} {step : RbStep P} {c cs : Color}
    {n s : P} {l r : RbTree P} {top q₂ child2 : Option P} :
    IsSeg h top (some s) child2 (step :: ictx) → IsTree h q₂ child2 r →
    (n :: s :: (l.toList ++ (r.toList ++ (ctxNodes (step :: ictx) ++ ctxNodes ctx)))).Nodup →
    Fits h.aug [] (plug ctx (.mk .right c (plug (step :: ictx) (.mk .left cs .nil s r)) n l)) →
    Fits (cb.propagate (h.setAug (cb.copy h n s)) (some step.node) (some s))
      (⟨.right, c, s, l⟩ :: ctx) (plug (step :: ictx) r)

theorem keeps_true (cb : RbAugmentCallbacks P A) : cb.Keeps fun _ _ _ => True := by
  constructor <;> intros <;> trivial

namespace RbHeap

variable [DecidableEq P] {h : RbHeap P A} {x y : P} {o p : Option P} {c : Color}

@[simp]
theorem aug_setParentColorOpt : (h.setParentColorOpt o p c).aug = h.aug := by cases o <;> rfl

@[simp]
theorem aug_setParentOpt : (h.setParentOpt o p).aug = h.aug := by cases o <;> rfl

@[simp]
theorem aug_rbChangeChild : (rbChangeChild h x o p).aug = h.aug := by
  cases p with
  | none => rfl
  | some p =>
    simp only [rbChangeChild]
    split <;> rfl

@[simp]
theorem aug_rbRotateSetParents : (rbRotateSetParents h x y c).aug = h.aug := by
  rw [rbRotateSetParents, aug_rbChangeChild]
  rfl

end RbHeap

namespace RbAugmentCallbacks.Keeps

variable {cb : RbAugmentCallbacks P A} {Fits : A → List (RbStep P) → RbTree P → Prop}
  {h : RbHeap P A} {ctx : List (RbStep P)} {q : Option P} {d : Dir} {c₁ c₂ c₃ c₄ : Color} {p g : P}
  {N C U : RbTree P}

theorem recolor_plug (hcb : cb.Keeps Fits) {a : A} {t t' : RbTree P}
    (hshape : t.uncolored = t'.uncolored) (hfits : Fits a [] (plug ctx t)) :
    Fits a [] (plug ctx t') :=
  hcb.recolor (uncolored_plug hshape) hfits

theorem located_rotate (hcb : cb.Keeps Fits)
    (hl : Located (h.setAug (cb.rotate h g p)) ctx q (.mk d c₃ N p (.mk d c₄ C g U))) {a : A}
    (haug : h.aug = a) (hfits : Fits a [] (plug ctx (.mk d c₁ (.mk d c₂ N p C) g U))) :
    Fits (cb.rotate h g p) [] (plug ctx (.mk d c₃ N p (.mk d c₄ C g U))) := by
  obtain ⟨-, -, -, -, hg⟩ := isTree_mk.mp hl.tree
  obtain ⟨-, -, -, hC, hU⟩ := isTree_mk.mp hg
  exact hcb.rotate (isTree_setAug.mp hC) (isTree_setAug.mp hU) (nodup_outer.mp hl.nodup) haug hfits

end RbAugmentCallbacks.Keeps

end LinuxKernel.Lib
