import LinuxKernel.Lib.Rbtree

/-!
# Trees in the red-black heap

`IsTree` reads an abstract tree off the heap, parent pointers included; `IsCtx` reads the
path from a place in the tree up to the root, with the siblings passed on the way. The
stores of the code act on one or the other, and leave alone whatever they do not touch.
-/

namespace LinuxKernel.Lib

open List RbHeap

variable {P A : Type}

@[simp]
theorem Dir.other_other (d : Dir) : d.other.other = d := by cases d <;> rfl

@[simp]
theorem Dir.other_ne (d : Dir) : d.other ≠ d := by cases d <;> simp [Dir.other]

@[simp]
theorem Dir.ne_other (d : Dir) : d ≠ d.other := by cases d <;> simp [Dir.other]

/-! ## Abstract trees -/

def Color.height : Color → Nat
  | .red => 0
  | .black => 1

inductive RbTree (P : Type) where
  | nil
  | node (color : Color) (left : RbTree P) (x : P) (right : RbTree P)

namespace RbTree

def toList : RbTree P → List P
  | nil => []
  | node _ l x r => l.toList ++ x :: r.toList

/-- NULL counts as black. -/
def color : RbTree P → Color
  | nil => .black
  | node c _ _ _ => c

def paint (c : Color) : RbTree P → RbTree P
  | nil => nil
  | node _ l x r => node c l x r

def mk (d : Dir) (c : Color) (near : RbTree P) (x : P) (far : RbTree P) : RbTree P :=
  match d with
  | .left => node c near x far
  | .right => node c far x near

def NoRedRed : RbTree P → Prop
  | nil => True
  | node c l _ r => (c = .red → l.color = .black ∧ r.color = .black) ∧ l.NoRedRed ∧ r.NoRedRed

/-- Every path from the root to a leaf passes `k` black nodes. -/
def BlackHeight : RbTree P → Nat → Prop
  | nil, k => k = 0
  | node .red l _ r, k => l.BlackHeight k ∧ r.BlackHeight k
  | node .black l _ r, k => ∃ j, k = j + 1 ∧ l.BlackHeight j ∧ r.BlackHeight j

structure RedBlack (t : RbTree P) : Prop where
  root : t.color = .black
  noRedRed : t.NoRedRed
  height : ∃ k, t.BlackHeight k

variable {d : Dir} {c : Color} {x : P} {t near far : RbTree P} {k : Nat}

@[simp]
theorem toList_paint : (t.paint c).toList = t.toList := by cases t <;> rfl

theorem paint_eq_self (h : t.color = c) : t.paint c = t := by
  cases t <;> simp_all [paint, color]

theorem mk_other : mk d.other c near x far = mk d c far x near := by cases d <;> rfl

@[simp]
theorem color_paint_black : (t.paint .black).color = .black := by cases t <;> rfl

theorem NoRedRed.paint_black (h : t.NoRedRed) : (t.paint .black).NoRedRed := by
  cases t with
  | nil => exact h
  | node c l x r => exact ⟨by simp, h.2⟩

theorem BlackHeight.paint_black (h : t.BlackHeight k) (hred : t.color = .red) :
    (t.paint .black).BlackHeight (k + 1) := by
  cases t with
  | nil => simp [color] at hred
  | node c l x r =>
    obtain rfl : c = .red := hred
    exact ⟨k, rfl, h⟩

@[simp]
theorem color_mk : (mk d c near x far).color = c := by cases d <;> rfl

@[simp]
theorem paint_mk {c' : Color} : (mk d c near x far).paint c' = mk d c' near x far := by
  cases d <;> rfl

theorem color_eq_red_iff : t.color = .red ↔ ¬t.color = .black := by
  cases t.color <;> simp

@[simp]
theorem noRedRed_mk : (mk d c near x far).NoRedRed ↔
    (c = .red → near.color = .black ∧ far.color = .black) ∧ near.NoRedRed ∧ far.NoRedRed := by
  cases d <;> simp only [mk, NoRedRed]
  tauto

@[simp]
theorem blackHeight_nil : (nil : RbTree P).BlackHeight k ↔ k = 0 := Iff.rfl

@[simp]
theorem blackHeight_mk_red :
    (mk d .red near x far).BlackHeight k ↔ near.BlackHeight k ∧ far.BlackHeight k := by
  cases d <;> simp only [mk, BlackHeight]
  tauto

@[simp]
theorem blackHeight_mk_black : (mk d .black near x far).BlackHeight k ↔
    ∃ j, k = j + 1 ∧ near.BlackHeight j ∧ far.BlackHeight j := by
  cases d <;> simp only [mk, BlackHeight]
  tauto

theorem BlackHeight.mk (hnear : near.BlackHeight k) (hfar : far.BlackHeight k) :
    (mk d c near x far).BlackHeight (k + c.height) := by
  cases c with
  | red => exact blackHeight_mk_red.mpr ⟨hnear, hfar⟩
  | black => exact blackHeight_mk_black.mpr ⟨k, rfl, hnear, hfar⟩

theorem toList_mk_perm : (mk d c near x far).toList.Perm (near.toList ++ x :: far.toList) := by
  cases d with
  | left => rfl
  | right =>
    have hcomm : (x :: (far.toList ++ near.toList)).Perm (x :: (near.toList ++ far.toList)) :=
      perm_append_comm.cons x
    exact (perm_middle.trans hcomm).trans perm_middle.symm

theorem count_mk [DecidableEq P] {y : P} : (mk d c near x far).toList.count y =
    near.toList.count y + (x :: far.toList).count y := by
  rw [toList_mk_perm.count_eq, count_append]

end RbTree

theorem nodup_of_count [DecidableEq P] {l l' : List P} (h : l.Nodup)
    (hcount : ∀ x, l.count x = l'.count x) : l'.Nodup :=
  (perm_iff_count.mpr hcount).nodup_iff.mp h

/-! ## Places in a tree -/

/-- One step up: the place is the `dir` child of `node`. -/
structure RbStep (P : Type) where
  dir : Dir
  color : Color
  node : P
  other : RbTree P

def parentOf (ctx : List (RbStep P)) : Option P := ctx.head?.map RbStep.node

def plug : List (RbStep P) → RbTree P → RbTree P
  | [], t => t
  | s :: ctx, t => plug ctx (.mk s.dir s.color t s.node s.other)

def ctxNodes : List (RbStep P) → List P
  | [] => []
  | s :: ctx => s.node :: (s.other.toList ++ ctxNodes ctx)

def ctxBefore : List (RbStep P) → List P
  | [] => []
  | ⟨.left, _, _, _⟩ :: ctx => ctxBefore ctx
  | ⟨.right, _, x, other⟩ :: ctx => ctxBefore ctx ++ (other.toList ++ [x])

def ctxAfter : List (RbStep P) → List P
  | [] => []
  | ⟨.left, _, x, other⟩ :: ctx => x :: other.toList ++ ctxAfter ctx
  | ⟨.right, _, _, _⟩ :: ctx => ctxAfter ctx

/-- The subtree at the pointer `q`, below `p`, is `t`. -/
def IsTree (h : RbHeap P A) : Option P → Option P → RbTree P → Prop
  | _, q, .nil => q = none
  | p, q, .node c l x r => q = some x ∧ h.color x = c ∧ h.parent x = p ∧
      IsTree h (some x) (h.child .left x) l ∧ IsTree h (some x) (h.child .right x) r

/-- The surroundings of a place whose pointer is `q`. -/
def IsCtx (h : RbHeap P A) : Option P → List (RbStep P) → Prop
  | q, [] => h.root = q
  | q, s :: ctx => h.child s.dir s.node = q ∧ h.color s.node = s.color ∧
      h.parent s.node = parentOf ctx ∧
      IsTree h (some s.node) (h.child s.dir.other s.node) s.other ∧
      IsCtx h (some s.node) ctx

def parentOr (par : Option P) : List (RbStep P) → Option P
  | [] => par
  | s :: _ => some s.node

/-- The path `ctx`, from a place with pointer `q` up to the pointer `top` below `par`. -/
def IsSeg (h : RbHeap P A) (top par : Option P) : Option P → List (RbStep P) → Prop
  | q, [] => q = top
  | q, s :: ctx => h.child s.dir s.node = q ∧ h.color s.node = s.color ∧
      h.parent s.node = parentOr par ctx ∧
      IsTree h (some s.node) (h.child s.dir.other s.node) s.other ∧
      IsSeg h top par (some s.node) ctx

/-- The heap holds the tree `t`: child, parent and root pointers agree with it. -/
structure Rep (h : RbHeap P A) (t : RbTree P) : Prop where
  tree : IsTree h none h.root t
  nodup : t.toList.Nodup

/-- The heap holds `plug ctx t`, and `q` is the pointer to the place of `t`. -/
structure Located (h : RbHeap P A) (ctx : List (RbStep P)) (q : Option P) (t : RbTree P) :
    Prop where
  place : IsCtx h q ctx
  tree : IsTree h (parentOf ctx) q t
  nodup : (t.toList ++ ctxNodes ctx).Nodup

section
variable {h : RbHeap P A} {p q : Option P} {d : Dir} {c : Color} {x : P}
  {t near far : RbTree P} {s : RbStep P} {ctx : List (RbStep P)}

@[simp]
theorem isTree_nil : IsTree h p q .nil ↔ q = none := Iff.rfl

@[simp]
theorem isTree_mk : IsTree h p q (.mk d c near x far) ↔ q = some x ∧ h.color x = c ∧
    h.parent x = p ∧ IsTree h (some x) (h.child d x) near ∧
    IsTree h (some x) (h.child d.other x) far := by
  cases d <;> simp only [RbTree.mk, IsTree, Dir.other]
  tauto

theorem IsTree.mem (ht : IsTree h p q t) (hq : q = some x) : x ∈ t.toList := by
  cases t with
  | nil => simp_all
  | node c l y r =>
    obtain rfl : y = x := Option.some.inj (ht.1.symm.trans hq)
    simp [RbTree.toList]

@[simp]
theorem parentOf_nil : parentOf ([] : List (RbStep P)) = none := rfl

@[simp]
theorem parentOf_cons : parentOf (s :: ctx) = some s.node := rfl

theorem mem_ctxNodes_of_parentOf (hp : parentOf ctx = some x) : x ∈ ctxNodes ctx := by
  cases ctx with
  | nil => simp at hp
  | cons s ctx =>
    obtain rfl : s.node = x := by simpa using hp
    simp [ctxNodes]

theorem located_iff_rep : Located h [] h.root t ↔ Rep h t := by
  constructor
  · exact fun hl => ⟨hl.tree, by simpa [ctxNodes] using hl.nodup⟩
  · exact fun hr => ⟨rfl, hr.tree, by simpa [ctxNodes] using hr.nodup⟩

theorem nodup_mk_append : ((RbTree.mk s.dir s.color t s.node s.other).toList ++
    ctxNodes ctx).Nodup ↔ (t.toList ++ ctxNodes (s :: ctx)).Nodup := by
  have hperm : (RbTree.mk s.dir s.color t s.node s.other).toList.Perm
      (t.toList ++ s.node :: s.other.toList) := RbTree.toList_mk_perm
  rw [(hperm.append_right _).nodup_iff]
  simp [ctxNodes]

theorem located_up : Located h ctx (some s.node) (.mk s.dir s.color t s.node s.other) ↔
    ∃ q, Located h (s :: ctx) q t := by
  constructor
  · rintro ⟨hctx, htree, hnodup⟩
    obtain ⟨-, hcolor, hparent, hnear, hfar⟩ := isTree_mk.mp htree
    exact ⟨_, ⟨rfl, hcolor, hparent, hfar, hctx⟩, hnear, nodup_mk_append.mp hnodup⟩
  · rintro ⟨q, ⟨hq, hcolor, hparent, hfar, hctx⟩, htree, hnodup⟩
    refine ⟨hctx, isTree_mk.mpr ⟨rfl, hcolor, hparent, ?_, hfar⟩, nodup_mk_append.mpr hnodup⟩
    rw [hq]
    exact htree

theorem Located.rep {q : Option P} (hl : Located h ctx q t) : Rep h (plug ctx t) := by
  induction ctx generalizing q t with
  | nil =>
    obtain rfl : h.root = q := hl.place
    exact located_iff_rep.mp hl
  | cons s ctx ih => exact ih (located_up.mpr ⟨q, hl⟩)

theorem Rep.located (hr : Rep h (plug ctx t)) : ∃ q, Located h ctx q t := by
  induction ctx generalizing t with
  | nil => exact ⟨h.root, located_iff_rep.mpr hr⟩
  | cons s ctx ih =>
    obtain ⟨q, hl⟩ := ih hr
    obtain rfl : q = some s.node := (isTree_mk.mp hl.tree).1
    exact located_up.mp hl

theorem toList_plug : (plug ctx t).toList = ctxBefore ctx ++ t.toList ++ ctxAfter ctx := by
  induction ctx generalizing t with
  | nil => simp [plug, ctxBefore, ctxAfter]
  | cons s ctx ih =>
    obtain ⟨d, c, x, other⟩ := s
    cases d <;> simp [plug, ih, ctxBefore, ctxAfter, RbTree.mk, RbTree.toList]

theorem toList_plug_congr {t' : RbTree P} (h : t.toList = t'.toList) :
    (plug ctx t).toList = (plug ctx t').toList := by
  rw [toList_plug, h, toList_plug]

theorem toList_plug_perm : (plug ctx t).toList.Perm (t.toList ++ ctxNodes ctx) := by
  induction ctx generalizing t with
  | nil => simp [plug, ctxNodes]
  | cons s ctx ih =>
    refine ih.trans ((RbTree.toList_mk_perm.append_right _).trans ?_)
    simp [ctxNodes]

theorem exists_plug (d : Dir) (hx : x ∈ t.toList) :
    ∃ ctx c near far, t = plug ctx (.mk d c near x far) := by
  have hgeneral : ∀ (ctx₀ : List (RbStep P)) (t : RbTree P), x ∈ t.toList →
      ∃ ctx c near far, plug ctx₀ t = plug ctx (.mk d c near x far) := by
    intro ctx₀ t
    induction t generalizing ctx₀ with
    | nil => simp [RbTree.toList]
    | node c l y r ihl ihr =>
      intro hmem
      simp only [RbTree.toList, mem_append, mem_cons] at hmem
      rcases hmem with hl | rfl | hr
      · exact ihl (⟨.left, c, y, r⟩ :: ctx₀) hl
      · cases d with
        | left => exact ⟨ctx₀, c, l, r, rfl⟩
        | right => exact ⟨ctx₀, c, r, l, rfl⟩
      · exact ihr (⟨.right, c, y, l⟩ :: ctx₀) hr
  exact hgeneral [] t hx

theorem length_le_toList_plug : ctx.length ≤ (plug ctx t).toList.length := by
  induction ctx generalizing t with
  | nil => simp
  | cons s ctx ih =>
    have hle := ih (t := .nil)
    simp only [plug, toList_plug, RbTree.toList_mk_perm.length_eq, length_append,
      length_cons, RbTree.toList, length_nil] at hle ⊢
    omega

end

/-! ## What the stores change -/

namespace RbHeap

variable {h : RbHeap P A} {d d' : Dir} {x y : P} {o v p : Option P} {c : Color} {a : A}

@[simp]
theorem child_setAug : (h.setAug a).child = h.child := rfl

@[simp]
theorem parent_setAug : (h.setAug a).parent = h.parent := rfl

@[simp]
theorem color_setAug : (h.setAug a).color = h.color := rfl

@[simp]
theorem root_setAug : (h.setAug a).root = h.root := rfl

variable [DecidableEq P]

@[simp]
theorem child_setChild : (h.setChild d x v).child d' y =
    if d' = d ∧ y = x then v else h.child d' y := rfl

@[simp]
theorem parent_setChild : (h.setChild d x v).parent = h.parent := rfl

@[simp]
theorem color_setChild : (h.setChild d x v).color = h.color := rfl

@[simp]
theorem root_setChild : (h.setChild d x v).root = h.root := rfl

@[simp]
theorem child_setParentColor : (h.setParentColor x p c).child = h.child := rfl

@[simp]
theorem parent_setParentColor :
    (h.setParentColor x p c).parent y = if y = x then p else h.parent y := by
  simp [setParentColor, Function.update_apply]

@[simp]
theorem color_setParentColor :
    (h.setParentColor x p c).color y = if y = x then c else h.color y := by
  simp [setParentColor, Function.update_apply]

@[simp]
theorem root_setParentColor : (h.setParentColor x p c).root = h.root := rfl

@[simp]
theorem child_setParentColorOpt : (h.setParentColorOpt o p c).child = h.child := by
  cases o <;> rfl

theorem parent_setParentColorOpt (hy : o ≠ some y) :
    (h.setParentColorOpt o p c).parent y = h.parent y := by
  cases o with
  | none => rfl
  | some z => simp [setParentColorOpt, show ¬y = z from fun h => hy (by rw [h])]

theorem color_setParentColorOpt (hy : o ≠ some y) :
    (h.setParentColorOpt o p c).color y = h.color y := by
  cases o with
  | none => rfl
  | some z => simp [setParentColorOpt, show ¬y = z from fun h => hy (by rw [h])]

@[simp]
theorem root_setParentColorOpt : (h.setParentColorOpt o p c).root = h.root := by
  cases o <;> rfl

end RbHeap

/-- `h'` agrees with `h` on every field of `x`. -/
def SameAt (h h' : RbHeap P A) (x : P) : Prop :=
  (∀ d, h'.child d x = h.child d x) ∧ h'.parent x = h.parent x ∧ h'.color x = h.color x

section
variable {h h' : RbHeap P A} {p p' q : Option P} {x : P} {t : RbTree P}
  {ctx : List (RbStep P)} {c : Color}

theorem IsTree.congr (ht : IsTree h p q t) (hsame : ∀ x ∈ t.toList, SameAt h h' x) :
    IsTree h' p q t := by
  induction t generalizing p q with
  | nil => exact ht
  | node c l x r ihl ihr =>
    obtain ⟨hq, hcolor, hparent, hl, hr⟩ := ht
    simp only [RbTree.toList, mem_append, mem_cons] at hsame
    obtain ⟨hc, hp, hcol⟩ := hsame x (by simp)
    refine ⟨hq, hcol.trans hcolor, hp.trans hparent, ?_, ?_⟩
    · rw [hc]
      exact ihl hl fun y hy => hsame y (.inl hy)
    · rw [hc]
      exact ihr hr fun y hy => hsame y (.inr (.inr hy))

theorem isCtx_iff_isSeg : IsCtx h q ctx ↔ IsSeg h h.root none q ctx := by
  have hpar : ∀ ctx : List (RbStep P), parentOr none ctx = parentOf ctx := by
    intro ctx
    cases ctx <;> rfl
  induction ctx generalizing q with
  | nil => exact eq_comm
  | cons s ctx ih => simp only [IsCtx, IsSeg, ih, hpar]

theorem IsSeg.congr {top par : Option P} (hseg : IsSeg h top par q ctx)
    (hsame : ∀ x ∈ ctxNodes ctx, SameAt h h' x) : IsSeg h' top par q ctx := by
  induction ctx generalizing q with
  | nil => exact hseg
  | cons s ctx ih =>
    obtain ⟨hchild, hcolor, hparent, hother, hup⟩ := hseg
    simp only [ctxNodes, mem_cons, mem_append] at hsame
    obtain ⟨hc, hp, hcol⟩ := hsame s.node (.inl rfl)
    refine ⟨(hc _).trans hchild, hcol.trans hcolor, hp.trans hparent, ?_, ?_⟩
    · rw [hc]
      exact hother.congr fun y hy => hsame y (.inr (.inl hy))
    · exact ih hup fun y hy => hsame y (.inr (.inr hy))

theorem IsCtx.congr (hctx : IsCtx h q ctx) (hsame : ∀ x ∈ ctxNodes ctx, SameAt h h' x)
    (hroot : h'.root = h.root) : IsCtx h' q ctx :=
  isCtx_iff_isSeg.mpr (hroot ▸ (isCtx_iff_isSeg.mp hctx).congr hsame)

theorem SameAt.trans {h'' : RbHeap P A} (h₁ : SameAt h h' x) (h₂ : SameAt h' h'' x) :
    SameAt h h'' x :=
  ⟨fun d => (h₂.1 d).trans (h₁.1 d), h₂.2.1.trans h₁.2.1, h₂.2.2.trans h₁.2.2⟩

theorem sameAt_setAug {a : A} : SameAt h (h.setAug a) x := ⟨fun _ => rfl, rfl, rfl⟩

theorem isTree_setAug {a : A} : IsTree (h.setAug a) p q t ↔ IsTree h p q t :=
  ⟨fun ht => ht.congr fun _ _ => ⟨fun _ => rfl, rfl, rfl⟩,
    fun ht => ht.congr fun _ _ => sameAt_setAug⟩

theorem Located.setAug {a : A} (hl : Located h ctx q t) : Located (h.setAug a) ctx q t where
  place := hl.place.congr (fun _ _ => sameAt_setAug) rfl
  tree := isTree_setAug.mpr hl.tree
  nodup := hl.nodup

variable [DecidableEq P] {d : Dir} {y old : P} {o v new : Option P}

theorem sameAt_setChild (hx : x ≠ y) : SameAt h (h.setChild d y v) x :=
  ⟨fun _ => by simp [hx], rfl, rfl⟩

theorem sameAt_setParentColor (hx : x ≠ y) : SameAt h (h.setParentColor y p c) x :=
  ⟨fun _ => rfl, by simp [hx], by simp [hx]⟩

theorem sameAt_setParentColorOpt (hx : o ≠ some x) : SameAt h (h.setParentColorOpt o p c) x :=
  ⟨fun _ => by simp, parent_setParentColorOpt hx, color_setParentColorOpt hx⟩

variable {s : RbStep P}

/-- The child link of the place, or the root, is what `__rb_change_child` rewrites. -/
theorem rbChangeChild_eq (hctx : IsCtx h (some old) (s :: ctx)) (hold : old ∉ ctxNodes (s :: ctx)) :
    rbChangeChild h old new (some s.node) = h.setChild s.dir s.node new := by
  obtain ⟨hchild, -, -, hother, -⟩ := hctx
  cases hdir : s.dir with
  | left =>
    rw [hdir] at hchild
    simp [rbChangeChild, hchild]
  | right =>
    rw [hdir] at hother
    have hne : h.child .left s.node ≠ some old := by
      intro heq
      apply hold
      simp [ctxNodes, hother.mem heq]
    simp [rbChangeChild, hne]

theorem IsSeg.setChild {top par : Option P}
    (hseg : IsSeg h top par q (s :: ctx)) (hnodup : (ctxNodes (s :: ctx)).Nodup) :
    IsSeg (h.setChild s.dir s.node new) top par new (s :: ctx) := by
  obtain ⟨-, hcolor, hparent, hother, hup⟩ := hseg
  have hne : ∀ y ∈ s.other.toList ++ ctxNodes ctx, y ≠ s.node := by
    rintro y hy rfl
    exact (nodup_cons.mp hnodup).1 hy
  refine ⟨by simp, hcolor, hparent, ?_, ?_⟩
  · have hchild : (h.setChild s.dir s.node new).child s.dir.other s.node =
        h.child s.dir.other s.node := by simp
    rw [hchild]
    exact hother.congr fun y hy => sameAt_setChild (hne y (mem_append_left _ hy))
  · exact hup.congr fun y hy => sameAt_setChild (hne y (mem_append_right _ hy))

theorem located_setChild (hctx : IsCtx h q (s :: ctx))
    (htree : IsTree h (some s.node) new t) (hnodup : (t.toList ++ ctxNodes (s :: ctx)).Nodup) :
    Located (h.setChild s.dir s.node new) (s :: ctx) new t := by
  obtain ⟨-, hnd, hdis⟩ := nodup_append.mp hnodup
  refine ⟨isCtx_iff_isSeg.mpr ((isCtx_iff_isSeg.mp hctx).setChild hnd), htree.congr fun y hy =>
    ?_, hnodup⟩
  exact sameAt_setChild (hdis y hy s.node (by simp [ctxNodes]))

theorem located_rbChangeChild (hctx : IsCtx h (some old) ctx) (hold : old ∉ ctxNodes ctx)
    (htree : IsTree h (parentOf ctx) new t) (hnodup : (t.toList ++ ctxNodes ctx).Nodup) :
    Located (rbChangeChild h old new (parentOf ctx)) ctx new t := by
  cases ctx with
  | nil => exact ⟨rfl, htree.congr fun _ _ => ⟨fun _ => rfl, rfl, rfl⟩, hnodup⟩
  | cons s ctx =>
    rw [parentOf_cons, rbChangeChild_eq hctx hold]
    exact located_setChild hctx htree hnodup

theorem IsTree.setParentColorOpt (ht : IsTree h p q t) (hnodup : t.toList.Nodup) :
    IsTree (h.setParentColorOpt q p' c) p' q (t.paint c) := by
  cases t with
  | nil => exact ht
  | node _ l x r =>
    obtain ⟨rfl, -, -, hl, hr⟩ := ht
    simp only [RbTree.toList, nodup_append, nodup_cons, mem_cons] at hnodup
    refine ⟨rfl, by simp [setParentColorOpt], by simp [setParentColorOpt], ?_, ?_⟩
    · exact hl.congr fun y hy => sameAt_setParentColor (hnodup.2.2 y hy x (.inl rfl))
    · refine hr.congr fun y hy => sameAt_setParentColor ?_
      rintro rfl
      exact hnodup.2.1.1 hy

end

/-! ## Rotations -/

section
variable {h : RbHeap P A} {ctx : List (RbStep P)} {d e : Dir} {c c₁ c₂ color : Color} {g p : P}
  {N C U : RbTree P} {K : List P}

theorem nodup_outer : ((RbTree.mk e c₁ N p (.mk e c₂ C g U)).toList ++ K).Nodup ↔
    (p :: g :: (N.toList ++ (C.toList ++ (U.toList ++ K)))).Nodup := by
  classical
  refine (perm_iff_count.mpr fun x => ?_).nodup_iff
  simp only [RbTree.count_mk, count_append, count_cons]
  omega

theorem nodup_inner : ((RbTree.mk d c₁ (.mk e c₂ N p C) g U).toList ++ K).Nodup ↔
    (p :: g :: (N.toList ++ (C.toList ++ (U.toList ++ K)))).Nodup := by
  classical
  refine (perm_iff_count.mpr fun x => ?_).nodup_iff
  simp only [RbTree.count_mk, count_append, count_cons]
  omega

theorem toList_rotate : (RbTree.mk e c N p (.mk e color C g U)).toList =
    (RbTree.mk e c₁ (.mk e c₂ N p C) g U).toList := by
  cases e <;> simp [RbTree.mk, RbTree.toList]

variable [DecidableEq P] {q : Option P} {x : P}

/-- The first stores of a rotation: `g` takes over the inner child of `p`, and `p` links to `g`. -/
def turn (h : RbHeap P A) (e : Dir) (p g : P) (c : Color) : RbHeap P A :=
  ((h.setChild e g (h.child e.other p)).setChild e.other p (some g)).setParentColorOpt
    (h.child e.other p) (some g) c

theorem sameAt_turn (hC : IsTree h q (h.child e.other p) C)
    (hx : x ≠ p ∧ x ≠ g ∧ x ∉ C.toList) : SameAt h (turn h e p g c) x :=
  ((sameAt_setChild hx.2.1).trans (sameAt_setChild hx.1)).trans
    (sameAt_setParentColorOpt fun heq => hx.2.2 (hC.mem heq))

theorem isTree_turn (hC : IsTree h q (h.child e.other p) C)
    (hU : IsTree h (some g) (h.child e.other g) U)
    (hnodup : (p :: g :: (C.toList ++ U.toList)).Nodup) :
    IsTree (turn h e p g c) (h.parent g) (some g) (.mk e (h.color g) (C.paint c) g U) := by
  obtain ⟨hpg, hgC, hndC⟩ : p ≠ g ∧ g ∉ C.toList ∧ C.toList.Nodup := by grind
  have hrestC : ∀ x ∈ C.toList, x ≠ p ∧ x ≠ g := by grind
  have hrestU : ∀ x ∈ U.toList, x ≠ p ∧ x ≠ g ∧ x ∉ C.toList := by grind
  have hg : h.child e.other p ≠ some g := fun heq => hgC (hC.mem heq)
  refine isTree_mk.mpr ⟨rfl, color_setParentColorOpt hg, parent_setParentColorOpt hg, ?_, ?_⟩
  · have hchild : (turn h e p g c).child e g = h.child e.other p := by simp [turn]
    rw [hchild]
    refine IsTree.setParentColorOpt (hC.congr fun x hx => ?_) hndC
    exact (sameAt_setChild (hrestC x hx).2).trans (sameAt_setChild (hrestC x hx).1)
  · have hchild : (turn h e p g c).child e.other g = h.child e.other g := by simp [turn, hpg.symm]
    rw [hchild]
    exact hU.congr fun x hx => sameAt_turn hC (hrestU x hx)

/-- A whole rotation: `p` takes the place and the colour of `g`, and `g` becomes its child. What
`p`'s own parent word and `g`'s link to `p` were does not matter. -/
theorem located_turn (hctx : IsCtx h (some g) ctx)
    (hparent : h.parent g = parentOf ctx) (hN : IsTree h (some p) (h.child e p) N)
    (hC : IsTree h q (h.child e.other p) C) (hU : IsTree h (some g) (h.child e.other g) U)
    (hnodup : (p :: g :: (N.toList ++ (C.toList ++ (U.toList ++ ctxNodes ctx)))).Nodup) :
    Located (rbRotateSetParents (turn h e p g c) g p color) ctx (some p)
      (.mk e (h.color g) N p (.mk e color (C.paint c) g U)) := by
  obtain ⟨hpg, hg, hnd⟩ : p ≠ g ∧ g ∉ ctxNodes ctx ∧ (p :: g :: (C.toList ++ U.toList)).Nodup := by
    grind
  have hrest : ∀ x ∈ N.toList ++ ctxNodes ctx, x ≠ p ∧ x ≠ g ∧ x ∉ C.toList := by grind
  have hpaths : ∀ x ∈ C.toList ++ U.toList, x ≠ p ∧ x ≠ g := by grind
  obtain ⟨-, hcolor, hpar, hC', hU'⟩ := isTree_mk.mp (isTree_turn (c := c) hC hU hnd)
  rw [hparent] at hpar
  have hup : (turn h e p g c).child e.other p = some g := by simp [turn]
  have hchild : (turn h e p g c).child e p = h.child e p := by simp [turn, hpg]
  have hwords : ∀ x, x ≠ p → x ≠ g → SameAt (turn h e p g c) (((turn h e p g c).setParentColor p
      (parentOf ctx) (h.color g)).setParentColor g (some p) color) x := fun x hxp hxg =>
    (sameAt_setParentColor hxp).trans (sameAt_setParentColor hxg)
  have hsame : ∀ x ∈ N.toList ++ ctxNodes ctx, SameAt h (((turn h e p g c).setParentColor p
      (parentOf ctx) (h.color g)).setParentColor g (some p) color) x := fun x hx =>
    (sameAt_turn hC (hrest x hx)).trans (hwords x (hrest x hx).1 (hrest x hx).2.1)
  unfold rbRotateSetParents
  rw [hpar, hcolor]
  refine located_rbChangeChild ?_ hg ?_ (nodup_outer.mpr (by simpa using hnodup))
  · exact hctx.congr (fun x hx => hsame x (by simp [hx])) (by simp [turn])
  simp only [isTree_mk, child_setParentColor, color_setParentColor,
    parent_setParentColor, hup, hchild, hpg, hpg.symm, if_true, if_false, true_and]
  refine ⟨hN.congr fun x hx => hsame x (by simp [hx]), hC'.congr fun x hx => ?_,
    hU'.congr fun x hx => ?_⟩
  · rw [RbTree.toList_paint] at hx
    exact hwords x (hpaths x (by simp [hx])).1 (hpaths x (by simp [hx])).2
  · exact hwords x (hpaths x (by simp [hx])).1 (hpaths x (by simp [hx])).2

end

end LinuxKernel.Lib
