import LinuxKernel.Lib.RbtreeAugment

/-!
# Insertion into a red-black tree

Around the loop of `__rb_insert` the tree is a red-black tree but for the red node `node`,
whose parent may be red. A colour flip moves the place two steps up, a rotation or a
black parent ends the loop.
-/

namespace LinuxKernel.Lib

open List RbTree

variable {P A : Type}

/-! ## Red-black trees around a place -/

/-- Around the place, a tree of black height `k` whose root has the colour `c` makes a
red-black tree. -/
def CtxRedBlack : List (RbStep P) → Color → Nat → Prop
  | [], c, _ => c = .black
  | s :: ctx, c, k => (s.color = .red → c = .black ∧ s.other.color = .black) ∧
      s.other.NoRedRed ∧ s.other.BlackHeight k ∧
      CtxRedBlack ctx s.color (k + s.color.height)

section
variable {ctx : List (RbStep P)} {t : RbTree P} {k : Nat}

theorem redBlack_plug : (plug ctx t).RedBlack ↔
    ∃ k, t.NoRedRed ∧ t.BlackHeight k ∧ CtxRedBlack ctx t.color k := by
  induction ctx generalizing t with
  | nil =>
    constructor
    · rintro ⟨hroot, hnrr, k, hk⟩
      exact ⟨k, hnrr, hk, hroot⟩
    · rintro ⟨k, hnrr, hk, hroot⟩
      exact ⟨hroot, hnrr, k, hk⟩
  | cons s ctx ih =>
    rw [plug, ih]
    obtain ⟨d, c, x, other⟩ := s
    cases c with
    | red =>
      simp only [noRedRed_mk, blackHeight_mk_red, color_mk, CtxRedBlack]
      constructor
      · rintro ⟨k, ⟨hc, ht, ho⟩, ⟨htk, hok⟩, hctx⟩
        exact ⟨k, ht, htk, hc, ho, hok, hctx⟩
      · rintro ⟨k, ht, htk, hc, ho, hok, hctx⟩
        exact ⟨k, ⟨hc, ht, ho⟩, ⟨htk, hok⟩, hctx⟩
    | black =>
      simp only [noRedRed_mk, blackHeight_mk_black, color_mk, CtxRedBlack]
      constructor
      · rintro ⟨_, ⟨hc, ht, ho⟩, ⟨k, rfl, htk, hok⟩, hctx⟩
        exact ⟨k, ht, htk, by simp, ho, hok, hctx⟩
      · rintro ⟨k, ht, htk, hc, ho, hok, hctx⟩
        exact ⟨k + 1, ⟨by simp, ht, ho⟩, ⟨k, rfl, htk, hok⟩, hctx⟩

end

/-! ## The rotations -/

section
variable [DecidableEq P] {h : RbHeap P A} {ctx : List (RbStep P)} {d : Dir} {q : Option P}
  {n p g : P} {N C U B D : RbTree P}

/-- Case 3 (and case 1 of the erasure): `p` moves up into the place of `g`. -/
theorem located_rbInsertCase3 (cb : RbAugmentCallbacks P A) (hctx : IsCtx h (some g) ctx)
    (hparent : h.parent g = parentOf ctx) (hN : IsTree h (some p) (h.child d p) N)
    (hC : IsTree h q (h.child d.other p) C) (hU : IsTree h (some g) (h.child d.other g) U)
    (hblack : C.color = .black)
    (hnodup : (p :: g :: (N.toList ++ (C.toList ++ (U.toList ++ ctxNodes ctx)))).Nodup) :
    Located (rbInsertCase3 cb d h p g (h.child d.other p)) ctx (some p)
      (.mk d (h.color g) N p (.mk d .red C g U)) := by
  have hloc : Located (rbRotateSetParents (turn h d p g .black) g p .red) ctx (some p) _ :=
    located_turn hctx hparent hN hC hU hnodup
  rw [paint_eq_self hblack] at hloc
  exact hloc.setAug

/-- Case 2: `p` moves down below `n`, which is not yet linked to the rest of the tree. -/
theorem isTree_rbInsertCase2 (cb : RbAugmentCallbacks P A) (hN : IsTree h (some p) (h.child d p) N)
    (hB : IsTree h q (h.child d n) B) (hD : IsTree h (some n) (h.child d.other n) D)
    (hblack : B.color = .black) (hnodup : (p :: n :: (N.toList ++ (B.toList ++ D.toList))).Nodup) :
    IsTree (rbInsertCase2 cb d h n p) (some n) ((rbInsertCase2 cb d h n p).child d n)
        (.mk d .red N p B) ∧
      IsTree (rbInsertCase2 cb d h n p) (some n) ((rbInsertCase2 cb d h n p).child d.other n) D ∧
      (∀ x, x ≠ n ∧ x ≠ p ∧ x ∉ B.toList → SameAt h (rbInsertCase2 cb d h n p) x) ∧
      (rbInsertCase2 cb d h n p).root = h.root := by
  obtain ⟨hpn, hnd⟩ : p ≠ n ∧ (n :: p :: (B.toList ++ N.toList)).Nodup := by grind
  have hndp : (mk d.other (h.color p) B p N).toList.Nodup := by
    rw [toList_mk_perm.nodup_iff]
    grind
  have hrestD : ∀ x ∈ D.toList, x ≠ n ∧ x ≠ p ∧ x ∉ B.toList := by grind
  have hstores : rbInsertCase2 cb d h n p = ((turn h d.other n p .black).setParentColorOpt (some p)
      (some n) .red).setAug (rbInsertCase2 cb d h n p).aug := by
    simp [rbInsertCase2, turn, RbHeap.setAug, RbHeap.setParentColorOpt]
  have hB' : IsTree h q (h.child d.other.other n) B := by rwa [Dir.other_other]
  have hsame : ∀ x, x ≠ n ∧ x ≠ p ∧ x ∉ B.toList → SameAt h (rbInsertCase2 cb d h n p) x := by
    intro x hx
    rw [hstores]
    exact ((sameAt_turn hB' hx).trans (sameAt_setParentColor hx.2.1)).trans sameAt_setAug
  refine ⟨?_, ?_, hsame, by simp [rbInsertCase2]⟩
  · have hchild : (rbInsertCase2 cb d h n p).child d n = some p := by simp [rbInsertCase2]
    have ht : IsTree (turn h d.other n p .black) (h.parent p) (some p)
        (.mk d.other (h.color p) (B.paint .black) p N) :=
      isTree_turn hB' (by rwa [Dir.other_other]) hnd
    rw [paint_eq_self hblack] at ht
    have hred : IsTree ((turn h d.other n p .black).setParentColorOpt (some p) (some n) .red)
      (some n)
        (some p) _ := ht.setParentColorOpt hndp
    rw [paint_mk, mk_other] at hred
    rw [hchild, hstores]
    exact isTree_setAug.mpr hred
  · have hchild : (rbInsertCase2 cb d h n p).child d.other n = h.child d.other n := by
      simp [rbInsertCase2, hpn.symm]
    rw [hchild]
    exact hD.congr fun x hx => hsame x (hrestD x hx)

variable {cb : RbAugmentCallbacks P A} {Fits : A → List (RbStep P) → RbTree P → Prop}
    {c₁ c₂ : Color}

theorem fits_rbInsertCase3 (hcb : cb.Keeps Fits) {tmp : Option P} {c₃ c₄ : Color}
    (hl : Located (rbInsertCase3 cb d h p g tmp) ctx q (.mk d c₃ N p (.mk d c₄ C g U)))
    (hfits : Fits h.aug [] (plug ctx (.mk d c₁ (.mk d c₂ N p C) g U))) :
    Fits (rbInsertCase3 cb d h p g tmp).aug [] (plug ctx (.mk d c₃ N p (.mk d c₄ C g U))) := by
  refine hcb.located_rotate hl ?_ hfits
  rw [RbHeap.aug_rbRotateSetParents, RbHeap.aug_setParentColorOpt]
  rfl

theorem Located.paint {x : P} (hl : Located h ctx (some x) N) (c : Color) :
    Located (h.setParentColor x (parentOf ctx) c) ctx (some x) (N.paint c) := by
  obtain ⟨hnd, -, hdis⟩ := nodup_append.mp hl.nodup
  refine ⟨hl.place.congr (fun y hy => sameAt_setParentColor ?_) rfl, ?_, by simpa using hl.nodup⟩
  · rintro rfl
    exact hdis y (hl.tree.mem rfl) y hy rfl
  · exact hl.tree.setParentColorOpt hnd

theorem Located.paint_sibling {s : P} {c : Color} (hl : Located h ctx (some p) (.mk d c N p C))
    (hs : h.child d.other p = some s) (c' : Color) :
    Located (h.setParentColor s (some p) c') ctx (some p) (.mk d c N p (C.paint c')) := by
  let step : RbStep P := ⟨d.other, c, p, N⟩
  have hdown : Located h ctx (some step.node) (.mk step.dir step.color C step.node step.other) := by
    rw [mk_other]
    exact hl
  obtain ⟨q, hq⟩ := located_up.mp hdown
  obtain rfl : q = some s := hq.place.1.symm.trans hs
  have hup := located_up.mpr ⟨_, hq.paint c'⟩
  rwa [mk_other] at hup

theorem located_flip {u : P} {e : Dir}
    (hl : Located h ctx (some g) (.mk d c₁ (.mk e c₂ N p C) g U))
    (hu : h.child d.other g = some u) :
    Located (((h.setParentColor u (some g) .black).setParentColor p (some g) .black).setParentColor
      g (parentOf ctx) .red) ctx (some g) (.mk d .red (.mk e .black N p C) g (U.paint .black)) := by
  obtain ⟨-, -, -, hnear, -⟩ := isTree_mk.mp hl.tree
  have hp : (h.setParentColor u (some g) .black).child d.other.other g = some p := by
    rw [Dir.other_other]
    exact (isTree_mk.mp hnear).1
  have hflip := hl.paint_sibling hu .black
  rw [← mk_other] at hflip
  have hred := (hflip.paint_sibling hp .black).paint .red
  rwa [paint_mk, paint_mk, mk_other] at hred

omit [DecidableEq P] in
theorem IsTree.exists_mk {p : Option P} {t : RbTree P} (d : Dir) (ht : IsTree h p (some n) t) :
    ∃ near far, t = .mk d t.color near n far := by
  cases t with
  | nil => simp at ht
  | node c l x r =>
    obtain rfl : n = x := Option.some.inj ht.1
    cases d with
    | left => exact ⟨l, r, rfl⟩
    | right => exact ⟨r, l, rfl⟩

/-- Cases 2 and 3 together: the red nodes `n` and `p` end up on two levels, below a black
node in the place of `g`. -/
theorem rbInsertRotate_spec (hcb : cb.Keeps Fits) {e : Dir} {k : Nat}
    {T : RbTree P} (hl : Located h ctx (some g) (.mk d .black (.mk e .red T p C) g U))
    (hfits : Fits h.aug [] (plug ctx (.mk d .black (.mk e .red T p C) g U)))
    (hn : h.child e p = some n) (hT : T.color = .red) (hTnrr : T.NoRedRed)
    (hTk : T.BlackHeight k) (hC : C.color = .black) (hCnrr : C.NoRedRed) (hCk : C.BlackHeight k)
    (hU : U.color = .black) (hUnrr : U.NoRedRed) (hUk : U.BlackHeight k) :
    ∃ q t, Located (rbInsertRotate cb d h n p g) ctx q t ∧
      Fits (rbInsertRotate cb d h n p g).aug [] (plug ctx t) ∧
      t.toList = (mk d .black (.mk e .red T p C) g U).toList ∧
      t.color = .black ∧ t.NoRedRed ∧ t.BlackHeight (k + 1) := by
  have hnodup := nodup_inner.mp hl.nodup
  obtain ⟨-, hgcolor, hgp, hnear, htU⟩ := isTree_mk.mp hl.tree
  obtain ⟨hgchild, -, -, htT, htC⟩ := isTree_mk.mp hnear
  by_cases hed : e = d
  · -- `n` is an outer grandchild: one rotation
    subst hed
    have hinner : ¬h.child e.other p = some n := by
      intro heq
      have hnT : n ∈ T.toList := htT.mem hn
      have hnC : n ∈ C.toList := htC.mem heq
      grind
    have hloc := located_rbInsertCase3 cb hl.place hgp htT htC htU hC hnodup
    rw [hgcolor] at hloc
    have hrun : rbInsertRotate cb e h n p g = rbInsertCase3 cb e h p g (h.child e.other p) :=
      if_neg hinner
    rw [hrun]
    refine ⟨_, _, hloc, fits_rbInsertCase3 hcb hloc hfits, toList_rotate, ?_⟩
    simp [hTnrr, hTk, hC, hCnrr, hCk, hU, hUnrr, hUk]
  · -- `n` is an inner grandchild: two rotations
    obtain rfl : e = d.other := by
      cases e <;> cases d <;> simp_all [Dir.other]
    rw [hn] at htT
    obtain ⟨B, D, hTeq⟩ := htT.exists_mk d
    rw [hT] at hTeq
    subst hTeq
    obtain ⟨-, -, -, htB, htD⟩ := isTree_mk.mp htT
    rw [Dir.other_other] at htC
    have hnd₁ : (g :: (U.toList ++ ctxNodes ctx) ++
        (p :: n :: (C.toList ++ (B.toList ++ D.toList)))).Nodup := by
      refine nodup_of_count hnodup fun x => ?_
      simp only [count_mk, count_append, count_cons]
      omega
    have hnd₂ : (n :: g :: ((mk d .red C p B).toList ++
        (D.toList ++ (U.toList ++ ctxNodes ctx)))).Nodup := by
      refine nodup_of_count hnodup fun x => ?_
      simp only [count_mk, count_append, count_cons]
      omega
    have hnd₃ : (n :: p :: (D.toList ++ (B.toList ++ (C.toList ++
        ctxNodes (⟨d, .black, g, U⟩ :: ctx))))).Nodup := by
      refine nodup_of_count hnodup fun x => ?_
      simp only [count_mk, ctxNodes, count_append, count_cons]
      omega
    obtain ⟨-, hnd, hdis⟩ := nodup_append.mp hnd₁
    simp only [noRedRed_mk, forall_const] at hTnrr
    obtain ⟨⟨hB, hD⟩, hBnrr, hDnrr⟩ := hTnrr
    obtain ⟨hBk, hDk⟩ := blackHeight_mk_red.mp hTk
    obtain ⟨htN, htD', hsame, hroot⟩ := isTree_rbInsertCase2 cb htC htB htD hB hnd
    -- what case 2 touched is away from `g` and the rest of the tree
    have hout : ∀ x ∈ g :: (U.toList ++ ctxNodes ctx), SameAt h (rbInsertCase2 cb d h n p) x := by
      intro x hx
      refine hsame x ⟨hdis x hx n (by simp), hdis x hx p (by simp), fun hxB => ?_⟩
      exact hdis x hx x (by simp [hxB]) rfl
    obtain ⟨hgc, hgpar, hgcol⟩ := hout g (by simp)
    have hloc := located_rbInsertCase3 cb (hl.place.congr (fun x hx => hout x (by simp [hx])) hroot)
      (hgpar.trans hgp) htN htD'
      (by rw [hgc]; exact htU.congr fun x hx => hout x (by simp [hx])) hD hnd₂
    rw [hgcol, hgcolor] at hloc
    have hrun : rbInsertRotate cb d h n p g = rbInsertCase3 cb d (rbInsertCase2 cb d h n p) n g
        ((rbInsertCase2 cb d h n p).child d.other n) := if_pos hn
    have hfits₁ : Fits h.aug [] (plug (⟨d, .black, g, U⟩ :: ctx)
        (.mk d.other .red (.mk d .red B n D) p C)) := hfits
    rw [← mk_other (d := d)] at hfits₁
    have hfits₂ : Fits (rbInsertCase2 cb d h n p).aug []
        (plug (⟨d, .black, g, U⟩ :: ctx) (.mk d.other .red D n (.mk d.other .red B p C))) := by
      obtain ⟨-, -, -, htC', htB'⟩ := isTree_mk.mp htN
      refine hcb.rotate (isTree_setAug.mp htB') ?_ hnd₃ ?_ hfits₁
      · rw [Dir.other_other]
        exact isTree_setAug.mp htC'
      · exact RbHeap.aug_setParentColorOpt
    rw [mk_other, mk_other] at hfits₂
    rw [hrun]
    refine ⟨_, _, hloc, fits_rbInsertCase3 hcb hloc hfits₂, ?_, ?_⟩
    · cases d <;> simp [mk, toList, Dir.other]
    · simp [hB, hBnrr, hBk, hD, hDnrr, hDk, hC, hCnrr, hCk, hU, hUnrr, hUk]

end

/-! ## The loop -/

section
variable [DecidableEq P] {h : RbHeap P A} {ctx : List (RbStep P)} {n : P} {T : RbTree P}
omit [DecidableEq P] in
theorem IsTree.color_eq {p : Option P} {x : P} {t : RbTree P} (ht : IsTree h p (some x) t) :
    h.color x = t.color := by
  cases t with
  | nil => simp at ht
  | node c l y r =>
    obtain rfl : x = y := Option.some.inj ht.1
    exact ht.2.1

/-- One round below a red parent: a colour flip if the uncle is red, else the rotations. -/
theorem rbInsertLoop_red_parent (cb : RbAugmentCallbacks P A) {d e : Dir} {p g : P}
    {O U : RbTree P} (hl : Located h ctx (some g) (.mk d .black (.mk e .red T p O) g U)) :
    (∃ u, U.color = .red ∧ h.child d.other g = some u ∧
      ∀ fuel, rbInsertLoop cb (fuel + 1) h n (some p) =
        rbInsertLoop cb fuel (((h.setParentColor u (some g) .black).setParentColor p (some g)
          .black).setParentColor g (parentOf ctx) .red) g (parentOf ctx)) ∨ (U.color = .black ∧
      ∀ fuel, rbInsertLoop cb (fuel + 1) h n (some p) = some (rbInsertRotate cb d h n p g)) := by
  have hnodup := nodup_inner.mp hl.nodup
  obtain ⟨-, -, hgp, hnear, hU⟩ := isTree_mk.mp hl.tree
  obtain ⟨hgchild, hpred, hpg, -, -⟩ := isTree_mk.mp hnear
  obtain ⟨hp, hg⟩ := nodup_cons.mp hnodup
  have hpU : p ∉ U.toList := fun hmem => hp (by simp [hmem])
  have hgU : g ∉ U.toList := fun hmem => (nodup_cons.mp hg).1 (by simp [hmem])
  have hgne : g ≠ p := fun heq => hp (by simp [heq])
  have hside : (if h.child .right g = some p then Dir.right else Dir.left) = d := by
    cases d with
    | left => exact if_neg fun heq => hpU (hU.mem heq)
    | right => exact if_pos hgchild
  cases hu : h.child d.other g with
  | none =>
    refine .inr ⟨?_, fun fuel => ?_⟩
    · rw [hu] at hU
      cases U with
      | nil => rfl
      | node c l x r => simp [IsTree] at hU
    · simp [rbInsertLoop, hpred, rbRedParent, hpg, hside, hu]
  | some u =>
    have hcolor : h.color u = U.color := (hu ▸ hU).color_eq
    have hug : g ≠ u := fun heq => hgU (heq ▸ hU.mem hu)
    cases hUc : U.color with
    | red =>
      refine .inl ⟨u, rfl, rfl, fun fuel => ?_⟩
      simp [rbInsertLoop, hpred, rbRedParent, hpg, hside, hu, hcolor.trans hUc, hgne, hug, hgp]
    | black =>
      refine .inr ⟨rfl, fun fuel => ?_⟩
      simp [rbInsertLoop, hpred, rbRedParent, hpg, hside, hu, hcolor.trans hUc]

/-- From a red node whose parent may be red, the loop ends with a red-black tree of the
same nodes in the same order. -/
theorem rbInsertLoop_spec {cb : RbAugmentCallbacks P A}
    {Fits : A → List (RbStep P) → RbTree P → Prop} (hcb : cb.Keeps Fits) {fuel k : Nat}
    (hl : Located h ctx (some n) T) (hfits : Fits h.aug [] (plug ctx T)) (hT : T.color = .red)
    (hnrr : T.NoRedRed)
    (hk : T.BlackHeight k) (hctx : CtxRedBlack ctx .black k) (hfuel : ctx.length < fuel) :
    ∃ h' t', rbInsertLoop cb fuel h n (parentOf ctx) = some h' ∧ Rep h' t' ∧
      Fits h'.aug [] t' ∧ t'.RedBlack ∧ t'.toList = (plug ctx T).toList := by
  induction fuel generalizing h ctx n T k with
  | zero => omega
  | succ fuel ih =>
    cases ctx with
    | nil =>
      -- the node is the root: paint it black
      obtain ⟨a, b, hTeq⟩ := hl.tree.exists_mk .left
      rw [hT] at hTeq
      subst hTeq
      have hnd : (mk .left .red a n b).toList.Nodup := by simpa [ctxNodes] using hl.nodup
      refine ⟨_, .mk .left .black a n b, rfl, ⟨?_, hnd⟩, hcb.recolor (by simp [plug]) hfits,
        ⟨rfl, ?_, k + 1, ?_⟩, rfl⟩
      · have hroot : h.root = some n := hl.place
        change IsTree (h.setParentColorOpt (some n) none .black) none h.root _
        rw [hroot]
        exact hl.tree.setParentColorOpt hnd
      · simpa using hnrr.2
      · simpa using hk
    | cons s ctx =>
      obtain ⟨hchild, hcolor, hparent, hother, hup⟩ := hl.place
      obtain ⟨hred, honrr, hok, hctx⟩ := hctx
      cases hs : s.color with
      | black =>
        -- black parent: done
        have hblack : h.color s.node = .black := hcolor.trans hs
        refine ⟨h, _, ?_, hl.rep, hfits, redBlack_plug.mpr ⟨k, hnrr, hk, ?_⟩, rfl⟩
        · simp [rbInsertLoop, hblack]
        · exact ⟨by simp [hs], honrr, hok, hctx⟩
      | red =>
        simp only [hs, forall_const, Color.height, Nat.add_zero] at hred hctx
        cases ctx with
        | nil => simp [CtxRedBlack] at hctx
        | cons g ctx =>
          obtain ⟨hgred, hUnrr, hUk, hctx⟩ := hctx
          have hg : g.color = .black := by
            cases hgc : g.color with
            | red => simp [hgc] at hgred
            | black => rfl
          simp only [hg, Color.height] at hctx
          have hl₂ := located_up.mpr ⟨_, located_up.mpr ⟨_, hl⟩⟩
          rw [hs, hg] at hl₂
          have hup₂ : plug (s :: g :: ctx) T = plug ctx (.mk g.dir .black
              (.mk s.dir .red T s.node s.other) g.node g.other) := by
            rw [plug, plug, hs, hg]
          rw [hup₂] at hfits ⊢
          rcases rbInsertLoop_red_parent cb hl₂ with
            ⟨u, hUred, hu, hloop⟩ | ⟨hUblack, hloop⟩
          · have hflip := located_flip hl₂ hu
            have hnrr' : (mk g.dir .red (.mk s.dir .black T s.node s.other) g.node
                (g.other.paint .black)).NoRedRed := by
              simp [hnrr, honrr, hUnrr.paint_black]
            have hk' : (mk g.dir .red (.mk s.dir .black T s.node s.other) g.node
                (g.other.paint .black)).BlackHeight (k + 1) := by
              simp [hk, hok, hUk.paint_black hUred]
            simp only [length_cons] at hfuel
            have hfits' : Fits h.aug [] (plug ctx (.mk g.dir .red
                (.mk s.dir .black T s.node s.other) g.node (g.other.paint .black))) :=
              hcb.recolor_plug (by simp) hfits
            obtain ⟨h', t', hrun, hrep, hfit, hrb, ht'⟩ :=
              ih hflip hfits' (by simp) hnrr' hk' hctx (by omega)
            refine ⟨h', t', (hloop fuel).trans hrun, hrep, hfit, hrb, ?_⟩
            apply ht'.trans (toList_plug_congr _)
            cases g.dir <;> cases s.dir <;> simp [mk, toList]
          · obtain ⟨q, t, hloc, hfit, htlist, htc, htnrr, htk⟩ := rbInsertRotate_spec hcb hl₂
              hfits hchild hT hnrr hk hred.2 honrr hok hUblack hUnrr hUk
            refine ⟨_, plug ctx t, hloop fuel, hloc.rep, hfit, ?_, toList_plug_congr htlist⟩
            exact redBlack_plug.mpr ⟨k + 1, htnrr, htk, by rw [htc]; exact hctx⟩

end

/-! ## Linking a node, then rebalancing -/

/-- The link is a NULL slot of the tree: `&root->rb_node` of an empty tree, or a missing
child of one of its nodes. -/
def NullSlot (h : RbHeap P A) (t : RbTree P) : Option (P × Dir) → Prop
  | none => h.root = none
  | some (p, d) => p ∈ t.toList ∧ h.child d p = none

/-- `ys` is `xs` with `n` inserted at the link: right before the node whose left child it
becomes, or right after the one whose right child it becomes. -/
def InsertedAt (n : P) : Option (P × Dir) → List P → List P → Prop
  | none, xs, ys => xs = [] ∧ ys = [n]
  | some (p, .left), xs, ys => ∃ pre post, xs = pre ++ p :: post ∧ ys = pre ++ n :: p :: post
  | some (p, .right), xs, ys => ∃ pre post, xs = pre ++ p :: post ∧ ys = pre ++ p :: n :: post

def linkOf (ctx : List (RbStep P)) : Option (P × Dir) := ctx.head?.map fun s => (s.node, s.dir)

variable {link : Option (P × Dir)}

section
variable [DecidableEq P] {h : RbHeap P A} {ctx : List (RbStep P)} {n : P} {t : RbTree P}

theorem located_rbLinkNode (hl : Located h ctx none .nil) (hn : n ∉ ctxNodes ctx) :
    Located (rbLinkNode h n (linkOf ctx)) ctx (some n) (.mk .left .red .nil n .nil) := by
  let h₁ := ((h.setParentColor n (parentOf ctx) .red).setChild .left n none).setChild .right n none
  have hsame : ∀ x ∈ ctxNodes ctx, SameAt h h₁ x := by
    intro x hx
    have hxn : x ≠ n := ne_of_mem_of_not_mem hx hn
    exact ((sameAt_setParentColor hxn).trans (sameAt_setChild hxn)).trans (sameAt_setChild hxn)
  have hplace : IsCtx h₁ none ctx := hl.place.congr hsame rfl
  have hleaf : IsTree h₁ (parentOf ctx) (some n) (.mk .left .red .nil n .nil) := by
    simp [h₁, Dir.other]
  have hnodup : ((mk .left .red .nil n .nil).toList ++ ctxNodes ctx).Nodup := by
    simpa [mk, toList] using ⟨hn, Nodup.of_append_right hl.nodup⟩
  cases ctx with
  | nil => exact ⟨rfl, hleaf.congr fun _ _ => ⟨fun _ => rfl, rfl, rfl⟩, hnodup⟩
  | cons s ctx => exact located_setChild hplace hleaf hnodup

omit [DecidableEq P] in
theorem NullSlot.exists_ctx (hrep : Rep h t) (hslot : NullSlot h t link) :
    ∃ ctx, Located h ctx none .nil ∧ t = plug ctx .nil ∧ link = linkOf ctx := by
  match link, hslot with
  | none, hroot =>
    have hloc := located_iff_rep.mpr hrep
    rw [show h.root = none from hroot] at hloc
    cases t with
    | nil => exact ⟨[], hloc, rfl, rfl⟩
    | node c l x r => exact absurd hloc.tree.1 (by simp)
  | some (p, d), ⟨hp, hchild⟩ =>
    obtain ⟨ctx, c, near, far, rfl⟩ := exists_plug d hp
    let s : RbStep P := ⟨d, c, p, far⟩
    have hrep' : Rep h (plug (s :: ctx) near) := hrep
    obtain ⟨q, hloc⟩ := hrep'.located
    obtain rfl : h.child d p = q := hloc.place.1
    rw [hchild] at hloc
    cases near with
    | nil => exact ⟨s :: ctx, hloc, rfl, rfl⟩
    | node c l x r => exact absurd hloc.tree.1 (by simp)

omit [DecidableEq P] in
theorem insertedAt_plug (n : P) (ctx : List (RbStep P)) :
    InsertedAt n (linkOf ctx) (plug ctx .nil).toList
      (plug ctx (.mk .left .red .nil n .nil)).toList := by
  cases ctx with
  | nil => exact ⟨rfl, rfl⟩
  | cons s ctx =>
    obtain ⟨d, c, p, other⟩ := s
    simp only [plug, toList_plug, linkOf, head?_cons, Option.map_some]
    cases d with
    | left => exact ⟨ctxBefore ctx, other.toList ++ ctxAfter ctx, by simp [mk, toList]⟩
    | right => exact ⟨ctxBefore ctx ++ other.toList, ctxAfter ctx, by simp [mk, toList]⟩

theorem aug_rbLinkNode : (rbLinkNode h n link).aug = h.aug := by
  cases link <;> rfl

/-- Linking a new node, then rebalancing; the augmented data takes the new leaf into account. -/
theorem rbInsert_spec {cb : RbAugmentCallbacks P A}
    {Fits : A → List (RbStep P) → RbTree P → Prop} (hcb : cb.Keeps Fits) {fuel : Nat}
    (hl : Located h ctx none .nil) (hrb : (plug ctx .nil).RedBlack)
    (hn : n ∉ (plug ctx .nil).toList) (hfuel : (plug ctx .nil).toList.length < fuel)
    (hfits : Fits h.aug [] (plug ctx (.mk .left .red .nil n .nil))) :
    ∃ h' t', rbInsert cb fuel (rbLinkNode h n (linkOf ctx)) n = some h' ∧
      Rep h' t' ∧ Fits h'.aug [] t' ∧ t'.RedBlack ∧
      t'.toList = (plug ctx (.mk .left .red .nil n .nil)).toList := by
  obtain ⟨k, -, hk, hctx⟩ := redBlack_plug.mp hrb
  obtain rfl : k = 0 := hk
  have hn' : n ∉ ctxNodes ctx := fun hmem => hn (toList_plug_perm.mem_iff.mpr (by simp [hmem]))
  have hloc := located_rbLinkNode hl hn'
  obtain ⟨-, hred, hparent, -⟩ := isTree_mk.mp hloc.tree
  have hlen : ctx.length < fuel := Nat.lt_of_le_of_lt length_le_toList_plug hfuel
  have hnrr : (mk .left .red .nil n .nil).NoRedRed := by simp [NoRedRed, color]
  obtain ⟨h', t', hrun, hrep', hfit', hrb', hlist⟩ :=
    rbInsertLoop_spec hcb hloc (by rwa [aug_rbLinkNode]) rfl hnrr (by simp) hctx hlen
  refine ⟨h', t', ?_, hrep', hfit', hrb', hlist⟩
  simp [rbInsert, rbRedParent, hred, hparent, hrun]

theorem rbInsertColor_spec {fuel : Nat} (hrep : Rep h t)
    (hrb : t.RedBlack) (hslot : NullSlot h t link) (hn : n ∉ t.toList)
    (hfuel : t.toList.length < fuel) :
    ∃ h' t', rbInsertColor fuel (rbLinkNode h n link) n = some h' ∧ Rep h' t' ∧ t'.RedBlack ∧
      InsertedAt n link t.toList t'.toList := by
  obtain ⟨ctx, hl, rfl, rfl⟩ := hslot.exists_ctx hrep
  obtain ⟨h', t', hrun, hrep', -, hrb', hlist⟩ :=
    rbInsert_spec (keeps_true (dummyCallbacks P A)) hl hrb hn hfuel trivial
  exact ⟨h', t', hrun, hrep', hrb', hlist ▸ insertedAt_plug n ctx⟩

end

end LinuxKernel.Lib
