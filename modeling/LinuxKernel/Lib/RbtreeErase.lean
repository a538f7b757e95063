import LinuxKernel.Lib.RbtreeInsert

/-!
# Erasure from a red-black tree

Around the loop of `____rb_erase_color` the tree below the place is one black node short.
-/

namespace LinuxKernel.Lib

open List RbTree

variable {P A : Type}

/-! ## The rotations -/

section
variable [DecidableEq P] {h : RbHeap P A} {ctx : List (RbStep P)} {d : Dir}
  {q q₁ q₂ : Option P} {p s o u : P} {T X Y O : RbTree P}

theorem IsTree.setParent {p p' : Option P} {x : P} {t : RbTree P} (ht : IsTree h p (some x) t)
    (hnodup : t.toList.Nodup) : IsTree (h.setParent x p') p' (some x) t := by
  rw [← paint_eq_self ht.color_eq.symm]
  exact ht.setParentColorOpt hnodup

/-- Case 4: `s` moves up into the place of `p`, whose colour it takes, between two black
nodes. -/
theorem located_rbEraseCase4 (cb : RbAugmentCallbacks P A) (hctx : IsCtx h (some p) ctx)
    (hparent : h.parent p = parentOf ctx) (hT : IsTree h (some p) (h.child d p) T)
    (hX : IsTree h q₁ (h.child d s) X) (hO : IsTree h q₂ (h.child d.other s) O)
    (ho : h.child d.other s = some o)
    (hnodup : (s :: p :: (O.toList ++ (X.toList ++ (T.toList ++ ctxNodes ctx)))).Nodup) :
    Located (rbEraseCase4 cb d h p s o) ctx (some s)
      (.mk d (h.color p) (.mk d .black T p X) s (O.paint .black)) := by
  have hoO : o ∈ O.toList := hO.mem ho
  obtain ⟨hpo, hndO⟩ : p ≠ o ∧ O.toList.Nodup := by grind
  have hrest : ∀ x ∈ X.toList ++ (T.toList ++ ctxNodes ctx), x ≠ o := by grind
  let h₁ := h.setParentColorOpt (some o) (some s) .black
  have hsame : ∀ x ∈ X.toList ++ (T.toList ++ ctxNodes ctx), SameAt h h₁ x := fun x hx =>
    sameAt_setParentColor (hrest x hx)
  have hX₁ : IsTree h₁ q₁ (h₁.child d.other.other s) X := by
    rw [Dir.other_other]
    exact hX.congr fun x hx => hsame x (by simp [hx])
  have hO₁ : IsTree h₁ (some s) (h₁.child d.other s) (O.paint .black) := by
    rw [ho] at hO
    rw [show h₁.child d.other s = some o from ho]
    exact hO.setParentColorOpt hndO
  have hT₁ : IsTree h₁ (some p) (h₁.child d.other.other p) T := by
    rw [Dir.other_other]
    exact hT.congr fun x hx => hsame x (by simp [hx])
  obtain ⟨-, hpar, hcol⟩ : SameAt h h₁ p := sameAt_setParentColor hpo
  have hloc : Located (rbRotateSetParents (turn h₁ d.other s p X.color) p s .black)
      ctx (some s) _ :=
    located_turn (hctx.congr (fun x hx => hsame x (by simp [hx])) rfl) (hpar.trans hparent)
      hO₁ hX₁ hT₁
      (by simpa using hnodup)
  rw [paint_eq_self rfl, mk_other, mk_other, hcol] at hloc
  -- the inner child keeps its colour
  have hstores : ∀ o', h.child d s = o' →
      (((h.setChild d.other p o').setChild d s (some p)).setParentColor
        o (some s) .black).setParentOpt
        o' (some p) = turn h₁ d.other s p X.color := by
    rintro (- | x) hx
    · simp only [turn, Dir.other_other, show h₁.child d s = none from hx]
      rfl
    have hcolor : h₁.color x = X.color := by
      rw [Dir.other_other, show h₁.child d s = some x from hx] at hX₁
      exact hX₁.color_eq
    simp only [turn, Dir.other_other, show h₁.child d s = some x from hx, ← hcolor]
    rfl
  rw [rbEraseCase4]
  simp only [hstores _ rfl]
  exact hloc.setAug

variable {cb : RbAugmentCallbacks P A} {Fits : A → List (RbStep P) → RbTree P → Prop}

theorem fits_rbEraseCase4 (hcb : cb.Keeps Fits) {c₁ c₂ c₃ c₄ : Color}
    (hl : Located (rbEraseCase4 cb d h p s o) ctx q (.mk d c₃ (.mk d c₄ T p X) s O))
    (hfits : Fits h.aug [] (plug ctx (.mk d c₁ T p (.mk d c₂ X s O)))) :
    Fits (rbEraseCase4 cb d h p s o).aug [] (plug ctx (.mk d c₃ (.mk d c₄ T p X) s O)) := by
  rw [← mk_other, ← mk_other (d := d)] at hl hfits ⊢
  refine hcb.located_rotate hl ?_ hfits
  rw [RbHeap.aug_rbRotateSetParents, RbHeap.aug_setParentOpt]
  rfl

/-- Cases 3 and 4: the red inner child `u` of the sibling `s` moves up two levels. -/
theorem located_rbEraseCase34 (hcb : cb.Keeps Fits) {c : Color} {R : RbTree P}
    (hl : Located h ctx (some p) (.mk d c T p (.mk d .black (.mk d .red X u Y) s R)))
    (hfits : Fits h.aug [] (plug ctx (.mk d c T p (.mk d .black (.mk d .red X u Y) s R))))
    (hY : Y.color = .black) :
    Located (rbEraseCase4 cb d (rbEraseCase3 cb d h p s u) p u s) ctx (some u)
        (.mk d c (.mk d .black T p X) u (.mk d .black Y s R)) ∧
      Fits (rbEraseCase4 cb d (rbEraseCase3 cb d h p s u) p u s).aug []
        (plug ctx (.mk d c (.mk d .black T p X) u (.mk d .black Y s R))) := by
  obtain ⟨-, hpcol, hppar, htT, hS⟩ := isTree_mk.mp hl.tree
  obtain ⟨-, hscol, hspar, hU, htR⟩ := isTree_mk.mp hS
  obtain ⟨-, -, -, htX, htY⟩ := isTree_mk.mp hU
  have hnd : (p :: u :: s :: (Y.toList ++
      (R.toList ++ (X.toList ++ (T.toList ++ ctxNodes ctx))))).Nodup := by
    refine nodup_of_count hl.nodup fun x => ?_
    simp only [count_mk, count_append, count_cons]
    omega
  obtain ⟨hpu, hps, hus, hpY, hndO⟩ : p ≠ u ∧ p ≠ s ∧ u ≠ s ∧ p ∉ Y.toList ∧
      (u :: s :: (Y.toList ++ R.toList)).Nodup := by grind
  have hrest : ∀ x ∈ X.toList ++ (T.toList ++ ctxNodes ctx),
      x ≠ p ∧ x ≠ u ∧ x ≠ s ∧ x ∉ Y.toList := by grind
  have hnd₄ : (u :: p :: ((mk d .black Y s R).toList ++
      (X.toList ++ (T.toList ++ ctxNodes ctx)))).Nodup := by
    refine nodup_of_count hl.nodup fun x => ?_
    simp only [count_mk, count_append, count_cons]
    omega
  have hstores : rbEraseCase3 cb d h p s u =
      ((turn h d u s .black).setChild d.other p (some u)).setAug
      (rbEraseCase3 cb d h p s u).aug := by
    cases htmp : h.child d.other u <;> simp [rbEraseCase3, turn, htmp] <;> rfl
  have hsame : ∀ x ∈ X.toList ++ (T.toList ++ ctxNodes ctx),
      SameAt h (rbEraseCase3 cb d h p s u) x := by
    intro x hx
    rw [hstores]
    obtain ⟨hxp, hx⟩ := hrest x hx
    exact ((sameAt_turn htY hx).trans (sameAt_setChild hxp)).trans sameAt_setAug
  have hus' : (rbEraseCase3 cb d h p s u).child d.other u = some s := by
    simp [rbEraseCase3, hpu.symm]
  have hO : IsTree (rbEraseCase3 cb d h p s u) (some p)
      ((rbEraseCase3 cb d h p s u).child d.other u) (.mk d .black Y s R) := by
    have hturn : IsTree (turn h d u s .black) _ (some s) _ := isTree_turn htY htR hndO
    rw [paint_eq_self hY, hscol, hspar] at hturn
    rw [hus', hstores]
    refine isTree_setAug.mpr (hturn.congr fun x hx => sameAt_setChild ?_)
    rintro rfl
    exact (nodup_cons.mp (nodup_cons.mp hnd₄).2).1 (by simp [hx])
  have hpY : h.child d.other u ≠ some p := fun heq => hpY (htY.mem heq)
  have hpcol₃ : (rbEraseCase3 cb d h p s u).color p = h.color p :=
    RbHeap.color_setParentColorOpt hpY
  have hppar₃ : (rbEraseCase3 cb d h p s u).parent p = h.parent p :=
    RbHeap.parent_setParentColorOpt hpY
  have hloc := located_rbEraseCase4 cb
    (hl.place.congr (fun x hx => hsame x (by simp [hx])) (by simp [rbEraseCase3]))
    (hppar₃.trans hppar)
    (by rw [show (rbEraseCase3 cb d h p s u).child d p = h.child d p by simp [rbEraseCase3, hps]]
        exact htT.congr fun x hx => hsame x (by simp [hx]))
    (by rw [show (rbEraseCase3 cb d h p s u).child d u = h.child d u by simp [rbEraseCase3, hus]]
        exact htX.congr fun x hx => hsame x (by simp [hx]))
    hO hus' hnd₄
  rw [hpcol₃, hpcol, paint_eq_self color_mk] at hloc
  have hnd₃ : (u :: s :: (X.toList ++ (Y.toList ++ (R.toList ++
      ctxNodes (⟨d.other, c, p, T⟩ :: ctx))))).Nodup := by
    refine nodup_of_count hl.nodup fun x => ?_
    simp only [count_mk, ctxNodes, count_append, count_cons]
    omega
  have hfits₃ : Fits (rbEraseCase3 cb d h p s u).aug []
      (plug ctx (.mk d c T p (.mk d .red X u (.mk d .black Y s R)))) := by
    obtain ⟨-, -, -, hY₃, hR₃⟩ := isTree_mk.mp hO
    have hplug : ∀ t, plug (⟨d.other, c, p, T⟩ :: ctx) t = plug ctx (.mk d c T p t) := by
      intro t
      rw [plug, mk_other]
    rw [← hplug] at hfits ⊢
    exact hcb.rotate (isTree_setAug.mp hY₃) (isTree_setAug.mp hR₃) hnd₃
      RbHeap.aug_setParentColorOpt hfits
  exact ⟨hloc, fits_rbEraseCase4 hcb hloc hfits₃⟩

end

/-! ## The loop -/

section
variable [DecidableEq P] {h : RbHeap P A} {ctx : List (RbStep P)} {d : Dir} {c : Color}
  {p s : P} {q : Option P} {k : Nat} {t T L R S : RbTree P}
omit [DecidableEq P] in
theorem CtxRedBlack.black (hctx : CtxRedBlack ctx c k) : CtxRedBlack ctx .black k := by
  cases ctx with
  | nil => rfl
  | cons s ctx => exact ⟨fun hs => ⟨rfl, (hctx.1 hs).2⟩, hctx.2⟩

omit [DecidableEq P] in
theorem IsTree.nullOrBlack_iff {p : Option P} (ht : IsTree h p q t) :
    nullOrBlack h q = true ↔ t.color = .black := by
  cases t with
  | nil =>
    obtain rfl : q = none := ht
    simp [nullOrBlack, color]
  | node c l x r =>
    obtain rfl : q = some x := ht.1
    simp [nullOrBlack, color, ht.2.1]

omit [DecidableEq P] in
theorem IsTree.exists_red {p : Option P} (ht : IsTree h p q t) (hred : ¬t.color = .black) :
    ∃ x, q = some x ∧ nullOrBlack h (some x) ≠ true := by
  cases t with
  | nil => exact absurd rfl hred
  | node c l x r =>
    cases ht.1
    exact ⟨x, rfl, fun hb => hred (ht.nullOrBlack_iff.mp hb)⟩

theorem nodup_sibling {c' : Color}
    (hnd : ((mk d c T p (.mk d c' L s R)).toList ++ ctxNodes ctx).Nodup) :
    (s :: p :: (R.toList ++ (L.toList ++ (T.toList ++ ctxNodes ctx)))).Nodup := by
  refine nodup_of_count hnd fun x => ?_
  simp only [count_mk, count_append, count_cons]
  omega

omit [DecidableEq P] in
theorem IsTree.exists_root {p : Option P} (ht : IsTree h p q t) (hk : t.BlackHeight (k + 1)) :
    ∃ x, q = some x := by
  cases t with
  | nil => simp at hk
  | node c l x r => exact ⟨x, ht.1⟩

/-- What one round leaves: a red-black tree, or the deficit one step further up. -/
def EraseDone (Fits : A → List (RbStep P) → RbTree P → Prop) (ctx : List (RbStep P)) (xs : List P)
    (c : Color) (p : P) (k : Nat) (out : RbHeap P A × Option P) : Prop :=
  (out.2 = none ∧ ∃ q t, Located out.1 ctx q t ∧ Fits out.1.aug [] (plug ctx t) ∧ t.toList = xs ∧
    (plug ctx t).RedBlack) ∨
  ∃ t, c = .black ∧ out.2 = parentOf ctx ∧ Located out.1 ctx (some p) t ∧
    Fits out.1.aug [] (plug ctx t) ∧ t.toList = xs ∧
    t.color = .black ∧ t.NoRedRed ∧ t.BlackHeight (k + 1) ∧ CtxRedBlack ctx .black (k + 2)

variable {cb : RbAugmentCallbacks P A} {Fits : A → List (RbStep P) → RbTree P → Prop}

theorem rbEraseRest_spec (hcb : cb.Keeps Fits)
    (hl : Located h ctx (some p) (.mk d c T p (.mk d .black L s R)))
    (hfits : Fits h.aug [] (plug ctx (.mk d c T p (.mk d .black L s R)))) (hTnrr : T.NoRedRed)
    (hTk : T.BlackHeight k) (hLnrr : L.NoRedRed) (hLk : L.BlackHeight k) (hRnrr : R.NoRedRed)
    (hRk : R.BlackHeight k) (hctx : CtxRedBlack ctx c (k + 1 + c.height)) :
    ∃ out, rbEraseRest cb d h p s = some out ∧
      EraseDone Fits ctx (mk d c T p (.mk d .black L s R)).toList c p k out := by
  obtain ⟨-, hpcol, hppar, htT, hS⟩ := isTree_mk.mp hl.tree
  obtain ⟨hps, hscol, hspar, htL, htR⟩ := isTree_mk.mp hS
  have hp_s : p ≠ s := by
    have hnd := nodup_outer.mp hl.nodup
    exact fun heq => (nodup_cons.mp hnd).1 (by simp [heq])
  by_cases hR : R.color = .black
  · have hRb := htR.nullOrBlack_iff.mpr hR
    by_cases hL : L.color = .black
    · have hLb := htL.nullOrBlack_iff.mpr hL
      have hflip := hl.paint_sibling hps .red
      rw [paint_mk] at hflip
      -- Case 2
      have hcol : (h.setParentColor s (some p) .red).color p = c := by simp [hp_s, hpcol]
      have hpar : (h.setParentColor s (some p) .red).parent p = parentOf ctx := by
        simp [hp_s, hppar]
      cases c with
      | red =>
        refine ⟨((h.setParentColor s (some p) .red).setBlack p, none), ?_, .inl ⟨rfl, some p,
          .mk d .black T p (.mk d .red L s R), ?_, hcb.recolor_plug (by simp) hfits, ?_, ?_⟩⟩
        · simp only [rbEraseRest, hRb, hLb, hcol, if_true]
        · have hblack := hflip.paint .black
          rw [paint_mk, ← hpar] at hblack
          exact hblack
        · cases d <;> simp [mk, toList]
        · refine redBlack_plug.mpr ⟨k + 1, ?_, ?_, ?_⟩
          · simp [hTnrr, hLnrr, hRnrr, hL, hR]
          · simp [hTk, hLk, hRk]
          · rw [color_mk]
            exact hctx.black
      | black =>
        refine ⟨(h.setParentColor s (some p) .red, _), ?_, .inr ⟨_, rfl, hpar, hflip,
          hcb.recolor_plug (by simp) hfits, ?_, ?_⟩⟩
        · simp only [rbEraseRest, hRb, hLb, hcol, if_true, reduceCtorEq, if_false]
        · cases d <;> simp [mk, toList]
        · have hctx' : CtxRedBlack ctx .black (k + 2) := hctx
          simp [hTnrr, hLnrr, hRnrr, hL, hR, hTk, hLk, hRk, hctx']
    · -- Cases 3 and 4
      have hL' := color_eq_red_iff.mpr hL
      obtain ⟨u, hu, hLb⟩ := htL.exists_red hL
      obtain ⟨X, Y, hLeq⟩ := (hu ▸ htL).exists_mk d
      rw [hL'] at hLeq
      subst hLeq
      simp only [noRedRed_mk, forall_const] at hLnrr
      obtain ⟨hXk, hYk⟩ := blackHeight_mk_red.mp hLk
      obtain ⟨hloc, hfit⟩ := located_rbEraseCase34 hcb hl hfits hLnrr.1.2
      refine ⟨(rbEraseCase4 cb d (rbEraseCase3 cb d h p s u) p u s, none), ?_,
        .inl ⟨rfl, _, _, hloc, hfit, ?_, redBlack_plug.mpr ⟨k + 1 + c.height, ?_, ?_, ?_⟩⟩⟩
      · simp [rbEraseRest, hRb, hu, hLb]
      · cases d <;> simp [mk, toList]
      · simp [hTnrr, hLnrr, hRnrr]
      · exact (hTk.mk hXk).mk (hYk.mk hRk)
      · rwa [color_mk]
  · -- Case 4
    have hR' := color_eq_red_iff.mpr hR
    obtain ⟨o, ho, hRb⟩ := htR.exists_red hR
    have hloc := located_rbEraseCase4 cb hl.place hppar htT htL htR ho (nodup_sibling hl.nodup)
    rw [hpcol] at hloc
    have hfits' : Fits h.aug [] (plug ctx (.mk d c T p (.mk d .black L s (R.paint .black)))) :=
      hcb.recolor_plug (by simp) hfits
    have hfit := fits_rbEraseCase4 hcb hloc hfits'
    refine ⟨(rbEraseCase4 cb d h p s o, none), ?_,
      .inl ⟨rfl, _, _, hloc, hfit, ?_, redBlack_plug.mpr ⟨k + 1 + c.height, ?_, ?_, ?_⟩⟩⟩
    · simp [rbEraseRest, ho, hRb]
    · cases d <;> simp [mk, toList]
    · simp [hTnrr, hLnrr, hRnrr.paint_black]
    · exact (hTk.mk hLk).mk (hRk.paint_black hR')
    · rwa [color_mk]

/-- Case 1: the red sibling `s` moves up, and the place gets a black sibling and a red
parent. -/
theorem rbEraseCase1_spec (hcb : cb.Keeps Fits)
    (hl : Located h ctx (some p) (.mk d .black T p (.mk d .red L s R)))
    (hfits : Fits h.aug [] (plug ctx (.mk d .black T p (.mk d .red L s R))))
    (hL : L.color = .black) (hLk : L.BlackHeight (k + 1)) :
    ∃ h₁ l L₁ L₂, rbEraseCase1 cb d h p s = some (h₁, l) ∧ L = .mk d .black L₁ l L₂ ∧
      Located h₁ (⟨d, .black, s, R⟩ :: ctx) (some p) (.mk d .red T p (.mk d .black L₁ l L₂)) ∧
      Fits h₁.aug [] (plug (⟨d, .black, s, R⟩ :: ctx) (.mk d .red T p (.mk d .black L₁ l L₂))) := by
  obtain ⟨-, hpcol, hppar, htT, hS⟩ := isTree_mk.mp hl.tree
  obtain ⟨hps, hscol, hspar, htL, htR⟩ := isTree_mk.mp hS
  obtain ⟨l, hl'⟩ := htL.exists_root hLk
  obtain ⟨L₁, L₂, hLeq⟩ := (hl' ▸ htL).exists_mk d
  rw [hL] at hLeq
  have hloc := located_rbInsertCase3 cb hl.place hppar htR
    (by rwa [Dir.other_other]) (by rwa [Dir.other_other]) hL (nodup_sibling hl.nodup)
  have hfits' : Fits h.aug [] (plug ctx (.mk d.other .black (.mk d.other .red R s L) p T)) := by
    rwa [mk_other, mk_other]
  have hfit := fits_rbInsertCase3 hcb hloc hfits'
  rw [Dir.other_other, mk_other, mk_other, hpcol] at hloc hfit
  let step : RbStep P := ⟨d, .black, s, R⟩
  have hup : Located (rbInsertCase3 cb d.other h s p (h.child d s)) ctx (some step.node)
      (.mk step.dir step.color (.mk d .red T p L) step.node step.other) := hloc
  obtain ⟨q, hdown⟩ := located_up.mp hup
  obtain rfl : q = some p := (isTree_mk.mp hdown.tree).1
  rw [hLeq] at hdown hfit
  refine ⟨_, l, L₁, L₂, ?_, hLeq, hdown, hfit⟩
  simp [rbEraseCase1, rbInsertCase3, hl', RbHeap.setParentColorOpt]

omit [DecidableEq P] in
/-- The test `node != parent->rb_right` finds the side that `node` hangs on. -/
theorem erase_side_eq [DecidableEq P] (hnode : h.child d p = q) (hother : h.child d.other p ≠ q) :
    (if q = h.child .right p then Dir.right else Dir.left) = d := by
  cases d with
  | left => exact if_neg fun heq => hother heq.symm
  | right => exact if_pos hnode.symm

/-- From a tree one black node short, the loop ends with a red-black tree of the same
nodes in the same order. -/
theorem rbEraseColorLoop_spec (hcb : cb.Keeps Fits) {fuel : Nat}
    {step : RbStep P} (hl : Located h (step :: ctx) q T)
    (hfits : Fits h.aug [] (plug (step :: ctx) T)) (hnrr : T.NoRedRed) (hk : T.BlackHeight k)
    (hctx : CtxRedBlack (step :: ctx) .black (k + 1)) (hfuel : ctx.length < fuel) :
    ∃ h' t', rbEraseColorLoop cb fuel h step.node q = some h' ∧ Rep h' t' ∧
      Fits h'.aug [] t' ∧ t'.RedBlack ∧ t'.toList = (plug (step :: ctx) T).toList := by
  induction fuel generalizing h ctx step q T k with
  | zero => omega
  | succ fuel ih =>
    obtain ⟨d, c, p, S⟩ := step
    obtain ⟨hred, hSnrr, hSk, hctx⟩ := hctx
    have hl₂ : Located h ctx (some p) (.mk d c T p S) := located_up.mpr ⟨q, hl⟩
    obtain ⟨hchild, -, -, htS, -⟩ := hl.place
    obtain ⟨s, hs⟩ := htS.exists_root hSk
    have hside := erase_side_eq hchild fun heq => by
      have hnd := (nodup_append.mp hl.nodup).2.2
      rw [hs] at heq
      exact hnd s (hl.tree.mem heq.symm) s (by simp [ctxNodes, htS.mem hs]) rfl
    -- what is left to do after a round, in the surroundings it ended in
    have hfinish : ∀ ctx₁ c₁ t out, EraseDone Fits ctx₁ t.toList c₁ p k out →
        (c₁ = .black → ctx₁ = ctx) → ∃ h' t', out.2.elim (some out.1)
          (fun gparent => rbEraseColorLoop cb fuel out.1 gparent (some p)) = some h' ∧
          Rep h' t' ∧ Fits h'.aug [] t' ∧ t'.RedBlack ∧ t'.toList = (plug ctx₁ t).toList := by
      rintro ctx₁ c₁ t ⟨h₁, up⟩ hdone hsame
      rcases hdone with ⟨rfl, q', t', hloc, hfit, ht', hrb⟩ |
        ⟨t', rfl, hup, hloc, hfit, ht', hcol, hnrr', hk', hctx'⟩
      · exact ⟨h₁, _, rfl, hloc.rep, hfit, hrb, toList_plug_congr ht'⟩
      obtain rfl := hsame rfl
      subst hup
      cases ctx₁ with
      | nil =>
        exact ⟨h₁, _, rfl, hloc.rep, hfit, redBlack_plug.mpr ⟨_, hnrr', hk', hcol⟩,
          toList_plug_congr ht'⟩
      | cons step ctx₁ =>
        simp only [length_cons] at hfuel
        obtain ⟨h', t'', hrun, hrep, hfit', hrb, hlist⟩ :=
          ih hloc hfit hnrr' hk' hctx' (by omega)
        exact ⟨h', t'', hrun, hrep, hfit', hrb, hlist.trans (toList_plug_congr ht')⟩
    obtain ⟨L, R, hSeq⟩ := (hs ▸ htS).exists_mk d
    by_cases hSb : S.color = .black
    · rw [hSb] at hSeq
      subst hSeq
      obtain ⟨_, ⟨⟩, hLk, hRk⟩ := blackHeight_mk_black.mp hSk
      simp only [noRedRed_mk] at hSnrr
      obtain ⟨out, hrest, hdone⟩ := rbEraseRest_spec hcb hl₂ hfits hnrr hk hSnrr.2.1 hLk hSnrr.2.2
        hRk hctx
      obtain ⟨h', t', hrun, hres⟩ := hfinish ctx c _ out hdone fun _ => rfl
      refine ⟨h', t', ?_, hres⟩
      have hscol : h.color s = .black := (hs ▸ htS).color_eq.trans hSb
      simp [rbEraseColorLoop, hside, hs, hscol, hrest]
      rw [← hrun]
      cases out.2 <;> rfl
    · -- Case 1 first
      have hSr := color_eq_red_iff.mpr hSb
      obtain rfl : c = .black := by
        cases c with
        | black => rfl
        | red => exact absurd (hred rfl).2 hSb
      rw [hSr] at hSeq
      subst hSeq
      obtain ⟨hLk, hRk⟩ := blackHeight_mk_red.mp hSk
      simp only [noRedRed_mk, forall_const] at hSnrr
      obtain ⟨h₁, l, L₁, L₂, hcase, rfl, hl₃, hfits₃⟩ :=
        rbEraseCase1_spec hcb hl₂ hfits hSnrr.1.1 hLk
      obtain ⟨_, ⟨⟩, hL₁k, hL₂k⟩ := blackHeight_mk_black.mp hLk
      have hLnrr := noRedRed_mk.mp hSnrr.2.1
      have hctx₁ : CtxRedBlack (⟨d, .black, s, R⟩ :: ctx) .red (k + 1) :=
        ⟨by simp, hSnrr.2.2, hRk, hctx⟩
      obtain ⟨out, hrest, hdone⟩ := rbEraseRest_spec hcb hl₃ hfits₃ hnrr hk hLnrr.2.1 hL₁k
        hLnrr.2.2 hL₂k hctx₁
      obtain ⟨h', t', hrun, hrep, hfit, hrb, hlist⟩ := hfinish _ .red _ out hdone (by simp)
      refine ⟨h', t', ?_, hrep, hfit, hrb, ?_⟩
      · have hscol : h.color s = .red := (hs ▸ htS).color_eq.trans hSr
        simp [rbEraseColorLoop, hside, hs, hscol, hcase, hrest]
        rw [← hrun]
        cases out.2 <;> rfl
      · rw [hlist, plug, plug]
        apply toList_plug_congr
        cases d <;> simp [mk, toList]

end

end LinuxKernel.Lib
