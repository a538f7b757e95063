import Mathlib

/-!
# Removing commands in place

`exclude_cmds` of `tools/lib/subcmd/help.c`. A name stands for its entry on the heap, and its order
is that of `strcmp`.
-/

namespace LinuxKernel.Lib

open List

/-- The array `names`, cut at `cj` and `ci`, and the entries given to `free`. -/
structure CmdNames (α : Type*) where
  (kept stale rest freed : List α)

variable {α : Type*}

def moveRest (kept stale freed : List α) : List α → CmdNames α
  | [] => ⟨kept, stale, [], freed⟩
  | x :: rest =>
    match stale with
    | [] => ⟨kept, [], x :: rest, freed⟩
    | g :: stale => moveRest (kept ++ [x]) (stale ++ [x]) (freed ++ [g]) rest

/-- The last two loops: the names that stay, and all entries freed. -/
def dropRest (c : CmdNames α) : List α × List α :=
  let c := moveRest c.kept c.stale c.freed c.rest
  (c.kept, c.freed ++ c.stale ++ c.rest)

theorem dropRest_stale {kept stale freed rest : List α} (hstale : stale ≠ []) :
    dropRest ⟨kept, stale, rest, freed⟩ = (kept ++ rest, freed ++ stale ++ rest) := by
  unfold dropRest
  induction rest generalizing kept stale freed with
  | nil => simp [moveRest]
  | cons x rest ih =>
    obtain ⟨g, stale, rfl⟩ := exists_cons_of_ne_nil hstale
    simpa [moveRest] using @ih (kept ++ [x]) (stale ++ [x]) (freed ++ [g]) (by simp)

variable [LinearOrder α]

def excludeLoop (kept stale freed : List α) : List α → List α → CmdNames α
  | x :: rest, e :: excludes =>
    if x < e then
      match stale with
      | [] => excludeLoop (kept ++ [x]) [] freed rest (e :: excludes)
      -- slot `cj` is freed and overwritten, slot `ci` keeps its pointer
      | g :: stale => excludeLoop (kept ++ [x]) (stale ++ [x]) (freed ++ [g]) rest (e :: excludes)
    else if x = e then excludeLoop kept (stale ++ [x]) freed rest excludes
    else excludeLoop kept stale freed (x :: rest) excludes
  | rest, [] => ⟨kept, stale, rest, freed⟩
  | [], _ => ⟨kept, stale, [], freed⟩

def excludeCmds (cmds excludes : List α) : List α × List α :=
  dropRest (excludeLoop [] [] [] cmds excludes)

/-- Just the names that are not excluded stay, unfreed, and the others are freed once. -/
def Excludes (cmds excludes : List α) (out : List α × List α) : Prop :=
  out.1 = cmds.filter (· ∉ excludes) ∧ (∀ x ∈ cmds, x ∉ excludes → x ∉ out.2) ∧
    ∀ x ∈ cmds, x ∈ excludes → out.2.count x = 1

section
variable {kept stale freed rest excludes : List α}

theorem filter_notMem_cons {e : α} (he : e ∉ rest) :
    rest.filter (· ∉ e :: excludes) = rest.filter (· ∉ excludes) := by
  apply filter_congr
  grind

variable (hrest : rest.Pairwise (· < ·)) (hex : excludes.Pairwise (· < ·))
include hrest hex

/-- After a name was removed, every slot from its own on is freed. -/
theorem excludeLoop_stale (hstale : stale ≠ []) :
    dropRest (excludeLoop kept stale freed rest excludes) =
      (kept ++ rest.filter (· ∉ excludes), freed ++ stale ++ rest) := by
  fun_induction excludeLoop kept stale freed rest excludes with
  | case1 => contradiction
  | case2 kept freed x rest e excludes hlt g stale ih =>
    rw [ih hrest.of_cons hex (by simp), filter_cons_of_pos (by grind [pairwise_cons])]
    simp
  | case3 kept stale freed rest e excludes _ ih =>
    rw [ih hrest.of_cons hex.of_cons (by simp), filter_cons_of_neg (by simp),
      filter_notMem_cons (by grind [pairwise_cons])]
    simp
  | case4 kept stale freed x rest e excludes hlt hne ih =>
    rw [ih hrest hex.of_cons hstale, filter_notMem_cons (by grind [pairwise_cons])]
  | case5 => simp [dropRest_stale hstale]
  | case6 => simp [dropRest_stale hstale]

/-- Up to some name all stay, and from it on all are freed. -/
theorem excludeLoop_nil (hstale : stale = []) (hfreed : freed = []) : ∃ low high names,
    dropRest (excludeLoop kept stale freed rest excludes) = (names, high) ∧ rest = low ++ high ∧
      (∀ x ∈ low, x ∉ excludes ∧ ∃ e ∈ excludes, x < e) ∧
      ((∀ y ∈ high, y ∈ excludes) → names = kept ++ low) ∧
      ∀ y ∈ high, y ∉ excludes → (∃ x ∈ high, x ∈ excludes ∧ x < y) ∨ ∀ e ∈ excludes, e < y := by
  fun_induction excludeLoop kept stale freed rest excludes with
  | case1 kept freed x rest e excludes hlt ih =>
    obtain ⟨low, high, names, hrun, rfl, hlow, hnames, hhigh⟩ := ih hrest.of_cons hex rfl hfreed
    refine ⟨x :: low, high, names, hrun, rfl, ?_, by simpa using hnames, hhigh⟩
    rw [forall_mem_cons]
    grind [pairwise_cons]
  | case2 => contradiction
  | case3 kept stale freed rest e excludes _ ih =>
    have hmin := (pairwise_cons.mp hrest).1
    subst hstale hfreed
    refine ⟨[], e :: rest, _, excludeLoop_stale hrest.of_cons hex.of_cons (by simp), rfl, by simp,
      fun hall => ?_, by grind⟩
    rw [filter_eq_nil_iff.mpr (by grind)]
  | case4 kept stale freed x rest e excludes hlt hne ih =>
    obtain ⟨low, high, names, hrun, heq, hlow, hnames, hhigh⟩ := ih hrest hex.of_cons hstale hfreed
    have hbelow : ∀ y ∈ low ++ high, e < y := by
      rw [← heq]
      grind [pairwise_cons]
    refine ⟨low, high, names, hrun, heq, ?_, ?_, ?_⟩ <;> grind
  | case5 kept stale freed rest =>
    subst hstale hfreed
    exact ⟨[], rest, kept, by cases rest <;> simp [dropRest, moveRest], rfl, by simp⟩
  | case6 kept =>
    subst hstale hfreed
    exact ⟨[], [], kept, by simp [dropRest, moveRest], rfl, by simp⟩

end

/-- The call is right if just the last names are removed, and the others are below some exclude. -/
theorem excludeCmds_iff {cmds excludes : List α} (hcmds : cmds.Pairwise (· < ·))
    (hex : excludes.Pairwise (· < ·)) :
    Excludes cmds excludes (excludeCmds cmds excludes) ↔ ∀ x ∈ cmds, x ∉ excludes →
      (∃ e ∈ excludes, x < e) ∧ ∀ y ∈ cmds, y ∈ excludes → x < y := by
  obtain ⟨low, high, names, hrun, rfl, hlow, hnames, hhigh⟩ :=
    @excludeLoop_nil _ _ [] _ _ _ _ hcmds hex rfl rfl
  rw [excludeCmds, hrun]
  constructor
  · rintro ⟨-, hkept, -⟩ x hx hnot
    have hxlow : x ∈ low := (mem_append.mp hx).resolve_right (hkept x hx hnot)
    refine ⟨(hlow x hxlow).2, fun y hy hye => ?_⟩
    have hyhigh : y ∈ high := (mem_append.mp hy).resolve_left fun h => (hlow y h).1 hye
    exact (pairwise_append.mp hcmds).2.2 x hxlow y hyhigh
  · intro hcond
    -- a name that stays is not behind a removed one, nor above all excludes
    have hall : ∀ y ∈ high, y ∈ excludes := by grind
    refine ⟨?_, fun x _ hnot hx => hnot (hall x hx), fun x hx hxe => ?_⟩
    · rw [hnames hall, filter_append, filter_eq_self.mpr (by grind),
        filter_eq_nil_iff.mpr (by simpa using hall), append_nil, nil_append]
    · have hmem : x ∈ high := (mem_append.mp hx).resolve_left fun h => (hlow x h).1 hxe
      exact count_eq_one_of_mem ((pairwise_append.mp hcmds).2.1.imp ne_of_lt) hmem

theorem excludeCmds_last : Excludes [1, 2] [2] (excludeCmds [1, 2] [2]) :=
  (excludeCmds_iff (by simp) (by simp)).mpr (by simp)

/-- The two names that stay are freed. -/
theorem excludeCmds_first : ¬ Excludes [1, 2, 3] [1] (excludeCmds [1, 2, 3] [1]) := by
  have hrun : excludeCmds [1, 2, 3] [1] = ([2, 3], [1, 2, 3]) := by
    simp [excludeCmds, excludeLoop, dropRest, moveRest]
  rw [hrun]
  exact fun h => h.2.1 2 (by simp) (by simp) (by simp)

end LinuxKernel.Lib
