import LinuxKernel.Foundation.Segments

/-!
# Segments that contradict each other

Two entries clash if they overlap and have different values. Putting an entry in the place of some
that lie within it and have its value neither brings a clash into a list nor hides one, as long as
the new entry does not clash with the rest.
-/

namespace LinuxKernel.Foundation.Segments

variable {E K V : Type} [LinearOrder K] {L : Layout E K V} {x y z : E} {m m' : List E} {a : K}

namespace Layout

def Overlaps (L : Layout E K V) (x y : E) : Prop :=
  L.start x < L.stop y ∧ L.start y < L.stop x

def Clash (L : Layout E K V) (x y : E) : Prop :=
  L.value x ≠ L.value y ∧ L.Overlaps x y

def Clashes (L : Layout E K V) (m : List E) : Prop :=
  ∃ x ∈ m, ∃ y ∈ m, L.Clash x y

structure Within (L : Layout E K V) (x y : E) : Prop where
  start : L.start y ≤ L.start x
  stop : L.stop x ≤ L.stop y
  value : L.value x = L.value y

theorem Clash.symm (h : L.Clash x y) : L.Clash y x :=
  ⟨h.1.symm, h.2.2, h.2.1⟩

theorem Within.refl (x : E) : L.Within x x := ⟨le_refl _, le_refl _, rfl⟩

theorem Within.trans (h : L.Within x y) (h' : L.Within y z) : L.Within x z :=
  ⟨h'.start.trans h.start, h.stop.trans h'.stop, h.value.trans h'.value⟩

theorem Within.covers (h : L.Within x y) (hx : L.Covers a x) : L.Covers a y :=
  ⟨h.start.trans hx.1, hx.2.trans_le h.stop⟩

theorem Within.clash (h : L.Within x y) (hclash : L.Clash x z) : L.Clash y z :=
  ⟨h.value ▸ hclash.1, h.start.trans_lt hclash.2.1, hclash.2.2.trans_le h.stop⟩

theorem overlaps_of_covers (hx : L.Covers a x) (hy : L.Covers a y) : L.Overlaps x y :=
  ⟨hx.1.trans_lt hy.2, hy.1.trans_lt hx.2⟩

/-- Entries of `m` that are not in `m'` lie within `z`, which clashes with none of `m`. -/
theorem clashes_iff_of_absorb (hz : ∀ y ∈ m, ¬ L.Clash z y) (hnew : ∀ x ∈ m', x = z ∨ x ∈ m)
    (hold : ∀ x ∈ m, L.Within x z ∨ x ∈ m') : L.Clashes m' ↔ L.Clashes m := by
  constructor
  · rintro ⟨x, hx, y, hy, hclash⟩
    rcases hnew x hx with rfl | hxm
    · rcases hnew y hy with rfl | hym
      · exact absurd rfl hclash.1
      · exact absurd hclash (hz y hym)
    · rcases hnew y hy with rfl | hym
      · exact absurd (Clash.symm hclash) (hz x hxm)
      · exact ⟨x, hxm, y, hym, hclash⟩
  · rintro ⟨x, hx, y, hy, hclash⟩
    rcases hold x hx with hwithin | hxm
    · exact absurd (hwithin.clash hclash) (hz y hy)
    · rcases hold y hy with hwithin | hym
      · exact absurd (hwithin.clash (Clash.symm hclash)) (hz x hx)
      · exact ⟨x, hxm, y, hym, hclash⟩

end Layout

end LinuxKernel.Foundation.Segments
