import Mathlib

/-!
# Red-black trees

The pointer surgery of `tools/lib/rbtree.c` and `rbtree_augmented.h` over a heap of
`struct rb_node`. `__rb_parent_color` is a pointer and a colour; reading it as a plain
pointer (`rb_red_parent`) is only meaningful for a red node. The two mirror-image
branches of each loop are one definition over the side `d` that the node hangs on.
Following a NULL pointer, or running out of fuel, yields `none`.
-/

namespace LinuxKernel.Lib

inductive Color where
  | red
  | black
  deriving DecidableEq, Repr

inductive Dir where
  | left
  | right
  deriving DecidableEq, Repr

def Dir.other : Dir → Dir
  | .left => .right
  | .right => .left

/-- The nodes of a tree, its `struct rb_root`, and the augmented data the callbacks keep. -/
structure RbHeap (P A : Type) where
  parent : P → Option P
  color : P → Color
  child : Dir → P → Option P
  root : Option P
  aug : A

/-- Each computes the augmented data after the call. -/
structure RbAugmentCallbacks (P A : Type) where
  propagate : RbHeap P A → Option P → Option P → A
  copy : RbHeap P A → P → P → A
  rotate : RbHeap P A → P → P → A

def dummyCallbacks (P A : Type) : RbAugmentCallbacks P A where
  propagate h _ _ := h.aug
  copy h _ _ := h.aug
  rotate h _ _ := h.aug

variable {P A : Type} [DecidableEq P]

namespace RbHeap

def setChild (h : RbHeap P A) (d : Dir) (x : P) (v : Option P) : RbHeap P A :=
  { h with child := fun d' y => if d' = d ∧ y = x then v else h.child d' y }

def setParentColor (h : RbHeap P A) (x : P) (p : Option P) (c : Color) : RbHeap P A :=
  { h with
    parent := Function.update h.parent x p
    color := Function.update h.color x c }

def setParent (h : RbHeap P A) (x : P) (p : Option P) : RbHeap P A :=
  h.setParentColor x p (h.color x)

def setBlack (h : RbHeap P A) (x : P) : RbHeap P A :=
  h.setParentColor x (h.parent x) .black

def setParentColorOpt (h : RbHeap P A) (x : Option P) (p : Option P) (c : Color) : RbHeap P A :=
  match x with
  | some x => h.setParentColor x p c
  | none => h

def setParentOpt (h : RbHeap P A) (x : Option P) (p : Option P) : RbHeap P A :=
  match x with
  | some x => h.setParent x p
  | none => h

def setRoot (h : RbHeap P A) (v : Option P) : RbHeap P A :=
  { h with root := v }

def setAug (h : RbHeap P A) (a : A) : RbHeap P A :=
  { h with aug := a }

end RbHeap

/-- The whole word is the pointer only when the colour bit is clear. -/
def rbRedParent (h : RbHeap P A) (x : P) : Option (Option P) :=
  if h.color x = .red then some (h.parent x) else none

def nullOrBlack (h : RbHeap P A) : Option P → Bool
  | none => true
  | some x => h.color x = .black

def rbChangeChild (h : RbHeap P A) (old : P) (new parent : Option P) : RbHeap P A :=
  match parent with
  | some p =>
    if h.child .left p = some old then h.setChild .left p new else h.setChild .right p new
  | none => h.setRoot new

def rbRotateSetParents (h : RbHeap P A) (old new : P) (color : Color) : RbHeap P A :=
  let parent := h.parent old
  let h := h.setParentColor new (h.parent old) (h.color old)
  let h := h.setParentColor old (some new) color
  rbChangeChild h old (some new) parent

/-! ## Insertion -/

/-- `rb_link_node`, the slot being `&root->rb_node` or a child of `parent`. -/
def rbLinkNode (h : RbHeap P A) (node : P) (link : Option (P × Dir)) : RbHeap P A :=
  let h := h.setParentColor node (link.map Prod.fst) .red
  let h := (h.setChild .left node none).setChild .right node none
  match link with
  | none => h.setRoot (some node)
  | some (p, d) => h.setChild d p (some node)

/-- Case 3 of `__rb_insert`: rotate at `gparent`, `tmp` being `parent`'s inner child. -/
def rbInsertCase3 (cb : RbAugmentCallbacks P A) (d : Dir) (h : RbHeap P A) (parent gparent : P)
    (tmp : Option P) : RbHeap P A :=
  let h := h.setChild d gparent tmp
  let h := h.setChild d.other parent (some gparent)
  let h := h.setParentColorOpt tmp (some gparent) .black
  let h := rbRotateSetParents h gparent parent .red
  h.setAug (cb.rotate h gparent parent)

/-- Case 2 of `__rb_insert`: rotate at `parent`. -/
def rbInsertCase2 (cb : RbAugmentCallbacks P A) (d : Dir) (h : RbHeap P A) (node parent : P) :
    RbHeap P A :=
  let tmp := h.child d node
  let h := h.setChild d.other parent tmp
  let h := h.setChild d node (some parent)
  let h := h.setParentColorOpt tmp (some parent) .black
  let h := h.setParentColor parent (some node) .red
  h.setAug (cb.rotate h parent node)

/-- Cases 2 and 3 of `__rb_insert`, `parent` being the `d` child of `gparent`. -/
def rbInsertRotate (cb : RbAugmentCallbacks P A) (d : Dir) (h : RbHeap P A)
    (node parent gparent : P) : RbHeap P A :=
  let tmp := h.child d.other parent
  if tmp = some node then
    let h := rbInsertCase2 cb d h node parent
    rbInsertCase3 cb d h node gparent (h.child d.other node)
  else
    rbInsertCase3 cb d h parent gparent tmp

def rbInsertLoop (cb : RbAugmentCallbacks P A) : Nat → RbHeap P A → P → Option P →
    Option (RbHeap P A)
  | 0, _, _, _ => none
  | _ + 1, h, node, none => some (h.setParentColor node none .black)
  | fuel + 1, h, node, some parent =>
    if h.color parent = .black then some h
    else do
      let gparent ← rbRedParent h parent
      let gparent ← gparent
      let d := if h.child .right gparent ≠ some parent then Dir.left else Dir.right
      let uncle := h.child d.other gparent
      match uncle with
      | some u =>
        if h.color u = .red then
          -- Case 1: colour flips, then go on at `gparent`
          let h := h.setParentColor u (some gparent) .black
          let h := h.setParentColor parent (some gparent) .black
          let up := h.parent gparent
          let h := h.setParentColor gparent up .red
          rbInsertLoop cb fuel h gparent up
        else some (rbInsertRotate cb d h node parent gparent)
      | none => some (rbInsertRotate cb d h node parent gparent)

def rbInsert (cb : RbAugmentCallbacks P A) (fuel : Nat) (h : RbHeap P A) (node : P) :
    Option (RbHeap P A) := do
  let parent ← rbRedParent h node
  rbInsertLoop cb fuel h node parent

def rbInsertColor (fuel : Nat) (h : RbHeap P A) (node : P) : Option (RbHeap P A) :=
  rbInsert (dummyCallbacks P A) fuel h node

/-! ## Erasure -/

/-- Case 1 of `____rb_erase_color`: rotate at `parent`; returns the new sibling. -/
def rbEraseCase1 (cb : RbAugmentCallbacks P A) (d : Dir) (h : RbHeap P A) (parent sibling : P) :
    Option (RbHeap P A × P) := do
  let tmp1 := h.child d sibling
  let h := h.setChild d.other parent tmp1
  let h := h.setChild d sibling (some parent)
  let tmp1 ← tmp1
  let h := h.setParentColor tmp1 (some parent) .black
  let h := rbRotateSetParents h parent sibling .red
  return (h.setAug (cb.rotate h parent sibling), tmp1)

/-- Case 3 of `____rb_erase_color`: rotate at `sibling`. -/
def rbEraseCase3 (cb : RbAugmentCallbacks P A) (d : Dir) (h : RbHeap P A)
    (parent sibling tmp2 : P) : RbHeap P A :=
  let tmp1 := h.child d.other tmp2
  let h := h.setChild d sibling tmp1
  let h := h.setChild d.other tmp2 (some sibling)
  let h := h.setChild d.other parent (some tmp2)
  let h := h.setParentColorOpt tmp1 (some sibling) .black
  h.setAug (cb.rotate h sibling tmp2)

/-- Case 4 of `____rb_erase_color`: rotate at `parent` and flip colours. -/
def rbEraseCase4 (cb : RbAugmentCallbacks P A) (d : Dir) (h : RbHeap P A)
    (parent sibling tmp1 : P) : RbHeap P A :=
  let tmp2 := h.child d sibling
  let h := h.setChild d.other parent tmp2
  let h := h.setChild d sibling (some parent)
  let h := h.setParentColor tmp1 (some sibling) .black
  let h := h.setParentOpt tmp2 (some parent)
  let h := rbRotateSetParents h parent sibling .black
  h.setAug (cb.rotate h parent sibling)

/-- Cases 2 to 4 of `____rb_erase_color`, below a black `sibling`. Returns the parent to
go on at, if any. -/
def rbEraseRest (cb : RbAugmentCallbacks P A) (d : Dir) (h : RbHeap P A) (parent sibling : P) :
    Option (RbHeap P A × Option P) :=
  let tmp1 := h.child d.other sibling
  if nullOrBlack h tmp1 then
    let tmp2 := h.child d sibling
    if nullOrBlack h tmp2 then
      -- Case 2: sibling colour flip
      let h := h.setParentColor sibling (some parent) .red
      if h.color parent = .red then some (h.setBlack parent, none)
      else some (h, h.parent parent)
    else do
      let tmp2 ← tmp2
      let h := rbEraseCase3 cb d h parent sibling tmp2
      return (rbEraseCase4 cb d h parent tmp2 sibling, none)
  else do
    let tmp1 ← tmp1
    return (rbEraseCase4 cb d h parent sibling tmp1, none)

/-- `____rb_erase_color`, entered with `node = NULL`. -/
def rbEraseColorLoop (cb : RbAugmentCallbacks P A) : Nat → RbHeap P A → P → Option P →
    Option (RbHeap P A)
  | 0, _, _, _ => none
  | fuel + 1, h, parent, node => do
      let d := if node ≠ h.child .right parent then Dir.left else Dir.right
      let sibling ← h.child d.other parent
      let (h, sibling) ←
        if h.color sibling = .red then rbEraseCase1 cb d h parent sibling
        else some (h, sibling)
      let (h, up) ← rbEraseRest cb d h parent sibling
      match up with
      | some gparent => rbEraseColorLoop cb fuel h gparent (some parent)
      | none => return h

/-- `do { parent = successor; successor = tmp; tmp = tmp->rb_left; } while (tmp);` -/
def rbLeftmost (h : RbHeap P A) : Nat → P → P → Option (P × P)
  | 0, _, _ => none
  | fuel + 1, successor, tmp =>
    match h.child .left tmp with
    | none => some (successor, tmp)
    | some tmp' => rbLeftmost h fuel tmp tmp'

/-- The end of cases 2 and 3 of `__rb_erase_augmented`: `successor` takes `node`'s place,
`child2` having taken the place of `successor` under `parent`. -/
def rbEraseSuccessor (cb : RbAugmentCallbacks P A) (h : RbHeap P A) (node successor parent : P)
    (child2 : Option P) : Option (RbHeap P A × Option P) := do
  let tmp ← h.child .left node
  let h := h.setChild .left successor (some tmp)
  let h := h.setParent tmp (some successor)
  let pcParent := h.parent node
  let pcColor := h.color node
  let h := rbChangeChild h node (some successor) pcParent
  let (h, rebalance) :=
    match child2 with
    | some c =>
      let h := h.setParentColor successor pcParent pcColor
      (h.setParentColor c (some parent) .black, none)
    | none =>
      let pc2 := h.color successor
      (h.setParentColor successor pcParent pcColor, if pc2 = Color.black then some parent else none)
  return (h.setAug (cb.propagate h (some successor) none), rebalance)

def rbEraseAugmented (cb : RbAugmentCallbacks P A) (fuel : Nat) (h : RbHeap P A) (node : P) :
    Option (RbHeap P A × Option P) :=
  match h.child .left node, h.child .right node with
  | none, child =>
    -- Case 1: no more than one child
    let pcParent := h.parent node
    let pcColor := h.color node
    let h := rbChangeChild h node child pcParent
    let (h, rebalance) :=
      match child with
      | some c => (h.setParentColor c pcParent pcColor, none)
      | none => (h, if pcColor = Color.black then pcParent else none)
    some (h.setAug (cb.propagate h pcParent none), rebalance)
  | some tmp, none =>
    let pcParent := h.parent node
    let h := h.setParentColor tmp pcParent (h.color node)
    let h := rbChangeChild h node (some tmp) pcParent
    some (h.setAug (cb.propagate h pcParent none), none)
  | some _, some child =>
    match h.child .left child with
    | none =>
      -- Case 2: the successor is the right child
      let child2 := h.child .right child
      let h := h.setAug (cb.copy h node child)
      rbEraseSuccessor cb h node child child child2
    | some tmp => do
        -- Case 3: the successor is leftmost under the right child
        let (parent, successor) ← rbLeftmost h fuel child tmp
        let child2 := h.child .right successor
        let h := h.setChild .left parent child2
        let h := h.setChild .right successor (some child)
        let h := h.setParent child (some successor)
        let h := h.setAug (cb.copy h node successor)
        let h := h.setAug (cb.propagate h (some parent) (some successor))
        rbEraseSuccessor cb h node successor parent child2

/-- `rb_erase_augmented`, the caller of `__rb_erase_augmented`. -/
def rbEraseAugmentedNode (cb : RbAugmentCallbacks P A) (fuel : Nat) (h : RbHeap P A) (node : P) :
    Option (RbHeap P A) := do
  let (h, rebalance) ← rbEraseAugmented cb fuel h node
  match rebalance with
  | some parent => rbEraseColorLoop cb fuel h parent none
  | none => return h

def rbErase (fuel : Nat) (h : RbHeap P A) (node : P) : Option (RbHeap P A) := do
  let (h, rebalance) ← rbEraseAugmented (dummyCallbacks P A) fuel h node
  match rebalance with
  | some parent => rbEraseColorLoop (dummyCallbacks P A) fuel h parent none
  | none => return h

end LinuxKernel.Lib
