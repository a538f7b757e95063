import Mathlib

/-!
# Stable sorts built by merging

`StableSorted r xs ys` says that `ys` is `xs` sorted by `r`, with the elements that `r`
does not tell apart in the order `xs` had them. Merging the stable sorts of two
adjacent pieces, the earlier piece winning every tie, is a stable sort of both.
-/

namespace LinuxKernel.Foundation.StableSort

open List

variable {α : Type*} {r : α → α → Prop} {xs ys us vs : List α}

/-- `ys` is a stable sort of `xs`: of two elements, the first one in `ys` is `r`-below
the other, and came first in `xs` too when they are `r`-equivalent. -/
structure StableSorted (r : α → α → Prop) (xs ys : List α) : Prop where
  perm : ys.Perm xs
  sorted : ys.Pairwise fun a b => r a b ∧ (r b a → [a, b].Sublist xs)

theorem stableSorted_nil : StableSorted r ([] : List α) [] :=
  ⟨.refl _, .nil⟩

theorem stableSorted_singleton (x : α) : StableSorted r [x] [x] :=
  ⟨.refl _, pairwise_singleton _ _⟩

theorem pair_sublist_append {a b : α} (ha : a ∈ xs) (hb : b ∈ ys) : [a, b].Sublist (xs ++ ys) := by
  have ha' : [a].Sublist xs := singleton_sublist.mpr ha
  have hb' : [b].Sublist ys := singleton_sublist.mpr hb
  exact ha'.append hb'

section
variable [DecidableRel r] [IsTrans α r]

/-- What a merge needs of a relation `R` that refines `r`: it holds inside both inputs,
from the left input to the right one wherever `r` does, and back wherever `r` fails. -/
theorem pairwise_merge {R : α → α → Prop} (hr : ∀ a b, R a b → r a b) (hus : us.Pairwise R)
    (hvs : vs.Pairwise R) (hfwd : ∀ u ∈ us, ∀ v ∈ vs, r u v → R u v)
    (hback : ∀ u ∈ us, ∀ v ∈ vs, ¬r u v → R v u) :
    (us.merge vs fun a b => decide (r a b)).Pairwise R := by
  induction us generalizing vs with
  | nil => simpa using hvs
  | cons u us ihu =>
    induction vs with
    | nil => simpa using hus
    | cons v vs ihv =>
      have hu := pairwise_cons.mp hus
      have hv := pairwise_cons.mp hvs
      rw [cons_merge_cons]
      by_cases huv : r u v
      · rw [if_pos (by simpa using huv)]
        refine pairwise_cons.mpr ⟨fun z hz => ?_, ?_⟩
        · rcases mem_merge.mp hz with hz | hz
          · exact hu.1 z hz
          · apply hfwd u (by simp) z hz
            rcases mem_cons.mp hz with rfl | hz
            · exact huv
            · exact IsTrans.trans u v z huv (hr v z (hv.1 z hz))
        · exact ihu hu.2 hvs (fun a ha => hfwd a (by simp [ha]))
            (fun a ha => hback a (by simp [ha]))
      · rw [if_neg (by simpa using huv)]
        refine pairwise_cons.mpr ⟨fun z hz => ?_, ?_⟩
        · rcases mem_merge.mp hz with hz | hz
          · apply hback z hz v (by simp)
            rcases mem_cons.mp hz with rfl | hz
            · exact huv
            · exact fun hzv => huv (IsTrans.trans u z v (hr u z (hu.1 z hz)) hzv)
          · exact hv.1 z hz
        · exact ihv hv.2 (fun a ha b hb => hfwd a ha b (by simp [hb]))
            (fun a ha b hb => hback a ha b (by simp [hb]))

theorem StableSorted.merge [Std.Total r] (hus : StableSorted r xs us) (hvs : StableSorted r ys vs) :
    StableSorted r (xs ++ ys) (us.merge vs fun a b => decide (r a b)) where
  perm := (merge_perm_append _).trans (hus.perm.append hvs.perm)
  sorted := by
    apply pairwise_merge
    · exact fun a b h => h.1
    · refine hus.sorted.imp fun h => ⟨h.1, fun hba => ?_⟩
      exact (h.2 hba).trans (sublist_append_left _ _)
    · refine hvs.sorted.imp fun h => ⟨h.1, fun hba => ?_⟩
      exact (h.2 hba).trans (sublist_append_right _ _)
    · intro u hu v hv huv
      have hux : u ∈ xs := hus.perm.mem_iff.mp hu
      have hvy : v ∈ ys := hvs.perm.mem_iff.mp hv
      exact ⟨huv, fun _ => pair_sublist_append hux hvy⟩
    · intro u _ v _ huv
      exact ⟨(total_of r u v).resolve_left huv, fun h => absurd h huv⟩

end

end LinuxKernel.Foundation.StableSort
