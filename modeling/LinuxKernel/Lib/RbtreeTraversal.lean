import LinuxKernel.Lib.RbtreeCached

/-!
# Walking through a tree

The iterators of `tools/lib/rbtree.c` go from node to node along the links, without a stack. A place
in the tree determines which nodes come behind it in either order, and one step leads to the first
of them.
-/

namespace LinuxKernel.Lib

open List

variable {P A : Type}

/-! ## The iterators -/

def rbFirst (fuel : Nat) (h : RbHeap P A) : Option (Option P) :=
  match h.root with
  | none => some none
  | some n => (rbDownLeft h fuel n).map some

def RbHeap.mirror (h : RbHeap P A) : RbHeap P A := { h with child := fun d => h.child d.other }

/-- `rb_prev`, which is `rb_next` with left and right exchanged. -/
def rbPrev [DecidableEq P] (fuel : Nat) (h : RbHeap P A) (node : P) : Option (Option P) :=
  rbNext fuel h.mirror node

def rbLeftDeepestNode (h : RbHeap P A) : Nat → P → Option P
  | 0, _ => none
  | fuel + 1, node =>
    match h.child .left node, h.child .right node with
    | some left, _ => rbLeftDeepestNode h fuel left
    | none, some right => rbLeftDeepestNode h fuel right
    | none, none => some node

def rbNextPostorder [DecidableEq P] (fuel : Nat) (h : RbHeap P A) (node : P) : Option (Option P) :=
  match h.parent node with
  | none => some none
  | some parent =>
    match h.child .right parent with
    | some right =>
      if h.child .left parent = some node then (rbLeftDeepestNode h fuel right).map some
      else some (some parent)
    | none => some (some parent)

def rbFirstPostorder (fuel : Nat) (h : RbHeap P A) : Option (Option P) :=
  match h.root with
  | none => some none
  | some n => (rbLeftDeepestNode h fuel n).map some

def visited (next : P → Option (Option P)) : Nat → Option P → Option (List P)
  | _, none => some []
  | 0, some _ => none
  | fuel + 1, some n => do
    let rest ← visited next fuel (← next n)
    some (n :: rest)

theorem visited_eq {next : P → Option (Option P)} {l : List P} {fuel : Nat}
    (hnext : ∀ pre x post, l = pre ++ x :: post → next x = some post.head?)
    (hfuel : l.length ≤ fuel) : visited next fuel l.head? = some l := by
  have hfrom : ∀ pre post fuel, l = pre ++ post → post.length ≤ fuel →
      visited next fuel post.head? = some post := by
    intro pre post fuel hl hlen
    induction post generalizing pre fuel with
    | nil => cases fuel <;> rfl
    | cons x post ih =>
      obtain ⟨fuel, rfl⟩ : ∃ k, fuel = k + 1 := ⟨fuel - 1, by simp at hlen; omega⟩
      rw [head?_cons, visited, hnext pre x post hl]
      simp [ih (pre ++ [x]) fuel (by simp [hl]) (by simpa using hlen)]
  exact hfrom [] l fuel rfl hfuel

/-! ## Backwards -/

def RbTree.mirror : RbTree P → RbTree P
  | nil => nil
  | node c l x r => node c r.mirror x l.mirror

theorem RbTree.toList_mirror (t : RbTree P) : t.mirror.toList = t.toList.reverse := by
  induction t with
  | nil => rfl
  | node c l x r ihl ihr => simp [mirror, toList, ihl, ihr]

section
variable {h : RbHeap P A} {p q : Option P} {t : RbTree P} {fuel : Nat} {x : P}

theorem IsTree.mirror (ht : IsTree h p q t) : IsTree h.mirror p q t.mirror := by
  induction t generalizing p q with
  | nil => exact ht
  | node c l x r ihl ihr =>
    obtain ⟨hq, hcolor, hparent, hl, hr⟩ := ht
    exact ⟨hq, hcolor, hparent, ihr hr, ihl hl⟩

theorem Rep.mirror (hrep : Rep h t) : Rep h.mirror t.mirror :=
  ⟨hrep.tree.mirror, by simpa [RbTree.toList_mirror] using hrep.nodup⟩

theorem firstNode_spec {down : P → Option P} {order : List P} (hrep : Rep h t)
    (hperm : order.Perm t.toList) (hdown : ∀ n, IsTree h none (some n) t → down n = order.head?) :
    (match h.root with | none => some none | some n => (down n).map some) = some order.head? := by
  have ht := hrep.tree
  cases hroot : h.root with
  | none =>
    rw [hroot] at ht
    rw [ht.eq_none_iff.mp rfl] at hperm
    rw [hperm.eq_nil]
    rfl
  | some n =>
    rw [hroot] at ht
    have hne := ne_nil_of_mem (hperm.mem_iff.mpr (ht.mem rfl))
    dsimp only
    rw [hdown n ht, map_some_head? hne]

theorem rbFirst_spec (hrep : Rep h t) (hfuel : t.toList.length < fuel) :
    rbFirst fuel h = some t.toList.head? :=
  firstNode_spec hrep (.refl _) fun _ ht => rbDownLeft_spec ht hfuel

variable [DecidableEq P]

theorem rbPrev_spec {pre post : List P} (hrep : Rep h t) (hlist : t.toList = pre ++ x :: post)
    (hfuel : t.toList.length < fuel) : rbPrev fuel h x = some pre.getLast? := by
  have hmirror : t.mirror.toList = post.reverse ++ x :: pre.reverse := by
    simp [RbTree.toList_mirror, hlist]
  have hnext := rbNext_spec hrep.mirror hmirror (by simpa [RbTree.toList_mirror] using hfuel)
  rwa [head?_reverse] at hnext

end

/-! ## Children first -/

namespace RbTree

def postorder : RbTree P → List P
  | nil => []
  | node _ l x r => l.postorder ++ (r.postorder ++ [x])

theorem postorder_perm (t : RbTree P) : t.postorder.Perm t.toList := by
  induction t with
  | nil => rfl
  | node c l x r ihl ihr =>
    apply ihl.append
    exact (perm_append_singleton x _).trans (ihr.cons x)

end RbTree

/-- The nodes behind a place in postorder. -/
def ctxUp : List (RbStep P) → List P
  | [] => []
  | ⟨.left, _, x, other⟩ :: ctx => other.postorder ++ x :: ctxUp ctx
  | ⟨.right, _, x, _⟩ :: ctx => x :: ctxUp ctx

theorem postorder_plug (ctx : List (RbStep P)) :
    ∃ pre, ∀ t, (plug ctx t).postorder = pre ++ t.postorder ++ ctxUp ctx := by
  induction ctx with
  | nil => exact ⟨[], fun t => by simp [plug, ctxUp]⟩
  | cons s ctx ih =>
    obtain ⟨pre, hplug⟩ := ih
    obtain ⟨d, c, x, other⟩ := s
    cases d with
    | left => exact ⟨pre, fun t => by simp [plug, hplug, ctxUp, RbTree.mk, RbTree.postorder]⟩
    | right =>
      refine ⟨pre ++ other.postorder, fun t => ?_⟩
      simp [plug, hplug, ctxUp, RbTree.mk, RbTree.postorder]

section
variable {h : RbHeap P A} {p : Option P} {t : RbTree P} {fuel : Nat} {x : P}

theorem rbLeftDeepestNode_spec (ht : IsTree h p (some x) t) (hfuel : t.toList.length < fuel) :
    rbLeftDeepestNode h fuel x = t.postorder.head? := by
  induction fuel generalizing p t x with
  | zero => omega
  | succ fuel ih =>
    match t, ht with
    | .node c l y r, ht =>
      obtain ⟨⟨⟩, -, -, hl, hr⟩ := ht
      simp only [RbTree.toList, length_append, length_cons] at hfuel
      rw [rbLeftDeepestNode, RbTree.postorder]
      cases hleft : h.child .left x with
      | some z =>
        rw [hleft] at hl
        have hne := ne_nil_of_mem (l.postorder_perm.mem_iff.mpr (hl.mem rfl))
        rw [head?_append_of_ne_nil _ hne]
        exact ih hl (by omega)
      | none =>
        obtain rfl := hl.eq_none_iff.mp hleft
        cases hright : h.child .right x with
        | some z =>
          rw [hright] at hr
          have hne := ne_nil_of_mem (r.postorder_perm.mem_iff.mpr (hr.mem rfl))
          rw [RbTree.postorder, nil_append, head?_append_of_ne_nil _ hne]
          exact ih hr (by omega)
        | none =>
          obtain rfl := hr.eq_none_iff.mp hright
          rfl

theorem rbFirstPostorder_spec (hrep : Rep h t) (hfuel : t.toList.length < fuel) :
    rbFirstPostorder fuel h = some t.postorder.head? :=
  firstNode_spec hrep t.postorder_perm fun _ ht => rbLeftDeepestNode_spec ht hfuel

variable [DecidableEq P]

theorem rbNextPostorder_spec {pre post : List P} (hrep : Rep h t)
    (hlist : t.postorder = pre ++ x :: post) (hfuel : t.toList.length < fuel) :
    rbNextPostorder fuel h x = some post.head? := by
  have hmem : x ∈ t.toList := t.postorder_perm.mem_iff.mp (by simp [hlist])
  have hnodup : t.postorder.Nodup := t.postorder_perm.nodup_iff.mpr hrep.nodup
  obtain ⟨ctx, c, l, r, rfl⟩ := exists_plug .left hmem
  obtain ⟨q, hl⟩ := hrep.located
  obtain ⟨rfl, -, hparent, -, -⟩ := isTree_mk.mp hl.tree
  have hpost : post = ctxUp ctx := by
    obtain ⟨pre', hplug⟩ := postorder_plug ctx
    rw [hlist] at hnodup
    have hsplit : pre ++ x :: post = (pre' ++ (l.postorder ++ r.postorder)) ++ x :: ctxUp ctx := by
      rw [← hlist, hplug]
      simp [RbTree.mk, RbTree.postorder]
    exact eq_of_append_cons_eq hnodup hsplit
  rw [hpost, rbNextPostorder, hparent]
  cases ctx with
  | nil => rfl
  | cons s ctx =>
    obtain ⟨d, c', y, other⟩ := s
    obtain ⟨hchild, -, -, hother, -⟩ := hl.place
    simp only [parentOf_cons] at hchild hother ⊢
    cases d with
    | left =>
      rw [ctxUp]
      cases hright : h.child .right y with
      | none =>
        obtain rfl := hother.eq_none_iff.mp hright
        rfl
      | some z =>
        rw [show h.child Dir.left.other y = some z from hright] at hother
        have hne := ne_nil_of_mem (other.postorder_perm.mem_iff.mpr (hother.mem rfl))
        have hlen : other.toList.length < fuel := by
          rw [length_toList_plug] at hfuel
          simp [ctxNodes] at hfuel
          omega
        dsimp only
        rw [if_pos hchild, rbLeftDeepestNode_spec hother hlen, head?_append_of_ne_nil _ hne,
          map_some_head? hne]
    | right =>
      have hnot : h.child .left y ≠ some x := by
        intro heq
        have hdis := (nodup_append.mp hl.nodup).2.2
        exact hdis x (hl.tree.mem rfl) x (by simp [ctxNodes, hother.mem heq]) rfl
      simp [hchild, hnot, ctxUp]

/-- The walks visit the nodes in order and in postorder, where each node comes after those of its
subtrees, and `rb_prev` undoes `rb_next`. -/
theorem rbtree_traversal (hrep : Rep h t) (hfuel : t.toList.length < fuel) :
    (∃ n, rbFirst fuel h = some n ∧ visited (rbNext fuel h) fuel n = some t.toList) ∧
    (∀ n ∈ t.toList, ∀ m, rbNext fuel h n = some (some m) → rbPrev fuel h m = some (some n)) ∧
    (∀ m ∈ t.toList, ∀ n, rbPrev fuel h m = some (some n) → rbNext fuel h n = some (some m)) ∧
    (∃ n, rbFirstPostorder fuel h = some n ∧
      visited (rbNextPostorder fuel h) fuel n = some t.postorder) ∧
    t.postorder.Perm t.toList ∧ t.postorder.Nodup ∧
    ∀ ctx c l x r, t = plug ctx (.node c l x r) → ∃ pre post, t.postorder = pre ++ x :: post ∧
      ∀ y ∈ l.toList ++ r.toList, y ∈ pre := by
  have hperm := t.postorder_perm
  refine ⟨⟨_, rbFirst_spec hrep hfuel, ?_⟩, ?_, ?_, ⟨_, rbFirstPostorder_spec hrep hfuel,
    ?_⟩, hperm,
    hperm.nodup_iff.mpr hrep.nodup, ?_⟩
  · exact visited_eq (fun pre x post hlist => rbNext_spec hrep hlist hfuel) hfuel.le
  · intro n hn m hm
    obtain ⟨pre, post, hlist⟩ := append_of_mem hn
    rw [rbNext_spec hrep hlist hfuel] at hm
    obtain ⟨post, rfl⟩ : ∃ rest, post = m :: rest := by
      cases post with
      | nil => simp at hm
      | cons y rest => exact ⟨rest, by simpa using hm⟩
    have hlist' : t.toList = (pre ++ [n]) ++ m :: post := by simpa using hlist
    rw [rbPrev_spec hrep hlist' hfuel]
    simp
  · intro m hm n hn
    obtain ⟨pre, post, hlist⟩ := append_of_mem hm
    rw [rbPrev_spec hrep hlist hfuel] at hn
    obtain ⟨pre, rfl⟩ := getLast?_eq_some_iff.mp (Option.some.inj hn)
    rw [rbNext_spec hrep (by simpa using hlist) hfuel]
    rfl
  · exact visited_eq (fun pre x post hlist => rbNextPostorder_spec hrep hlist hfuel)
      (hperm.length_eq.trans_le hfuel.le)
  · rintro ctx c l x r rfl
    obtain ⟨pre, hplug⟩ := postorder_plug ctx
    refine ⟨pre ++ (l.postorder ++ r.postorder), ctxUp ctx, by simp [hplug, RbTree.postorder], ?_⟩
    intro y hy
    rw [mem_append, ← l.postorder_perm.mem_iff, ← r.postorder_perm.mem_iff] at hy
    simp [hy]

end

theorem rbtree_traversal_threeNodes :
    ∃ n, rbFirst 4 threeNodeHeap = some n ∧
      visited (rbNext 4 threeNodeHeap) 4 n = some threeNodeTree.toList :=
  (rbtree_traversal (h := threeNodeHeap) (t := threeNodeTree)
    ⟨by simp [threeNodeTree, IsTree, threeNodeHeap], by decide⟩ (by decide)).1

end LinuxKernel.Lib
