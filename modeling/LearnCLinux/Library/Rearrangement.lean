import Mathlib.Data.Int.Range
import Mathlib.Logic.Equiv.Basic

/-! Arrays in which the cells of a segment have changed places. -/

universe u

namespace LearnCLinux

variable {α : Type u}

def MovesOnly (l r : Int) (σ : Equiv.Perm Int) : Prop :=
  ∀ k, σ k ≠ k → l ≤ k ∧ k ≤ r

/-- `b` is `a` with the cells from `l` to `r` in another order. -/
def Rearranges (l r : Int) (a b : Int → α) : Prop :=
  ∃ σ, MovesOnly l r σ ∧ b = a ∘ σ

def SortedOn [LE α] (l r : Int) (a : Int → α) : Prop :=
  ∀ x, l ≤ x → x ≤ r → ∀ y, x < y → y ≤ r → a x ≤ a y

/-- What is left of `k` is not above what is at `k` or right of it. -/
def SplitAt [LE α] (l k r : Int) (a : Int → α) : Prop :=
  ∀ x, l ≤ x → x < k → ∀ y, k ≤ y → y ≤ r → a x ≤ a y

instance [LE α] [DecidableLE α] {l r : Int} {a : Int → α} : Decidable (SortedOn l r a) :=
  inferInstanceAs (Decidable (∀ x, l ≤ x → x ≤ r → ∀ y, x < y → y ≤ r → a x ≤ a y))

namespace MovesOnly

variable {l r l' r' i j k : Int} {σ τ : Equiv.Perm Int}

theorem refl (l r : Int) : MovesOnly l r (Equiv.refl Int) := fun _ h => absurd rfl h

theorem fixed (h : MovesOnly l r σ) (hk : ¬(l ≤ k ∧ k ≤ r)) : σ k = k := by
  by_contra hne
  exact hk (h k hne)

theorem stays (h : MovesOnly l r σ) (hk : l ≤ k ∧ k ≤ r) : l ≤ σ k ∧ σ k ≤ r := by
  by_cases hfixed : σ k = k
  · rwa [hfixed]
  · exact h (σ k) fun heq => hfixed (σ.injective heq)

theorem symm (h : MovesOnly l r σ) : MovesOnly l r σ.symm := by
  intro k hk
  apply h
  intro heq
  rw [Ne, Equiv.symm_apply_eq, heq] at hk
  exact hk rfl

theorem trans (h : MovesOnly l r σ) (h' : MovesOnly l r τ) : MovesOnly l r (τ.trans σ) := by
  intro k hk
  by_cases hτ : τ k = k
  · apply h
    rwa [Equiv.trans_apply, hτ] at hk
  · exact h' k hτ

theorem mono (h : MovesOnly l r σ) (hl : l' ≤ l) (hr : r ≤ r') : MovesOnly l' r' σ :=
  fun k hk => ⟨Int.le_trans hl (h k hk).1, Int.le_trans (h k hk).2 hr⟩

theorem swap (hi : l ≤ i ∧ i ≤ r) (hj : l ≤ j ∧ j ≤ r) : MovesOnly l r (Equiv.swap i j) := by
  intro k hk
  by_cases hki : k = i
  · exact hki ▸ hi
  · by_cases hkj : k = j
    · exact hkj ▸ hj
    · exact absurd (Equiv.swap_apply_of_ne_of_ne hki hkj) hk

end MovesOnly

namespace Rearranges

variable {l r l' r' i j k : Int} {a b c : Int → α}

theorem refl (l r : Int) (a : Int → α) : Rearranges l r a a :=
  ⟨_, MovesOnly.refl l r, rfl⟩

theorem symm (h : Rearranges l r a b) : Rearranges l r b a := by
  obtain ⟨σ, hσ, rfl⟩ := h
  refine ⟨σ.symm, hσ.symm, ?_⟩
  funext k
  simp

theorem trans (h : Rearranges l r a b) (h' : Rearranges l r b c) : Rearranges l r a c := by
  obtain ⟨σ, hσ, rfl⟩ := h
  obtain ⟨τ, hτ, rfl⟩ := h'
  exact ⟨τ.trans σ, hσ.trans hτ, rfl⟩

theorem mono (h : Rearranges l r a b) (hl : l' ≤ l) (hr : r ≤ r') : Rearranges l' r' a b := by
  obtain ⟨σ, hσ, rfl⟩ := h
  exact ⟨σ, hσ.mono hl hr, rfl⟩

theorem swap (a : Int → α) (hi : l ≤ i ∧ i ≤ r) (hj : l ≤ j ∧ j ≤ r) :
    Rearranges l r a (a ∘ Equiv.swap i j) :=
  ⟨_, MovesOnly.swap hi hj, rfl⟩

theorem outside (h : Rearranges l r a b) (hk : ¬(l ≤ k ∧ k ≤ r)) : b k = a k := by
  obtain ⟨σ, hσ, rfl⟩ := h
  exact congrArg a (hσ.fixed hk)

theorem inside (h : Rearranges l r a b) (hk : l ≤ k ∧ k ≤ r) :
    ∃ m, (l ≤ m ∧ m ≤ r) ∧ b k = a m := by
  obtain ⟨σ, hσ, rfl⟩ := h
  exact ⟨σ k, hσ.stays hk, rfl⟩

end Rearranges

section Joins

variable [LE α] {l r i j k : Int} {a b c : Int → α}

theorem SplitAt.rearrange (h : SplitAt l k r a) (hb : Rearranges l (k - 1) a b)
    (hc : Rearranges k r b c) : SplitAt l k r c := by
  intro x hlx hxk y hky hyr
  obtain ⟨x', hx', hx⟩ := hb.inside (k := x) ⟨hlx, by omega⟩
  obtain ⟨y', hy', hy⟩ := hc.inside ⟨hky, hyr⟩
  rw [hc.outside (k := x) (by omega), hx, hy, hb.outside (k := y') (by omega)]
  exact h x' hx'.1 (by omega) y' hy'.1 hy'.2

theorem splitAt_rearrange_iff (hb : Rearranges l (k - 1) a b) (hc : Rearranges k r b c) :
    SplitAt l k r a ↔ SplitAt l k r c := by
  refine ⟨fun h => h.rearrange hb hc, fun h => ?_⟩
  intro x hlx hxk y hky hyr
  obtain ⟨x', hx', hx⟩ := hb.symm.inside (k := x) ⟨hlx, by omega⟩
  obtain ⟨y', hy', hy⟩ := hc.symm.inside ⟨hky, hyr⟩
  rw [hx, ← hc.outside (k := x') (by omega), ← hb.outside (k := y) (by omega), hy]
  exact h x' hx'.1 (by omega) y' hy'.1 hy'.2

theorem sortedOn_congr (h : ∀ k, l ≤ k → k ≤ r → a k = b k) :
    SortedOn l r a ↔ SortedOn l r b := by
  constructor
  · intro ha x hlx hxr y hxy hyr
    rw [← h x hlx hxr, ← h y (by omega) hyr]
    exact ha x hlx hxr y hxy hyr
  · intro hb x hlx hxr y hxy hyr
    rw [h x hlx hxr, h y (by omega) hyr]
    exact hb x hlx hxr y hxy hyr

theorem sortedOn_iff_split (hli : l ≤ i) (hjr : j ≤ r) (hji : j < i) (hij : i ≤ j + 2) :
    SortedOn l r a ↔ SortedOn l j a ∧ SortedOn i r a ∧ SplitAt l (j + 1) r a ∧
      SplitAt l i r a := by
  constructor
  · intro h
    refine ⟨fun x hlx hxj y hxy hyj => ?_, fun x hix hxr y hxy hyr => ?_,
      fun x hlx hxj y hjy hyr => ?_, fun x hlx hxi y hiy hyr => ?_⟩
    all_goals exact h x (by omega) (by omega) y (by omega) (by omega)
  · rintro ⟨hleft, hright, hafter, hbefore⟩ x hlx hxr y hxy hyr
    by_cases hyj : y ≤ j
    · exact hleft x hlx (by omega) y hxy hyj
    · by_cases hxj : x ≤ j
      · exact hafter x hlx (by omega) y (by omega) hyr
      · by_cases hix : i ≤ x
        · exact hright x hix hxr y hxy hyr
        · exact hbefore x hlx (by omega) y (by omega) hyr

/-- Two parts that are sorted one after the other, with at most one cell between them, are sorted
together if and only if they were apart before. -/
theorem sortedOn_join_iff (hli : l ≤ i) (hjr : j ≤ r) (hji : j < i) (hij : i ≤ j + 2)
    (hb : Rearranges l j a b) (hc : Rearranges i r b c) :
    SortedOn l r c ↔ SortedOn l j b ∧ SortedOn i r c ∧ SplitAt l (j + 1) r a ∧
      SplitAt l i r a := by
  have hafter : SplitAt l (j + 1) r a ↔ SplitAt l (j + 1) r c :=
    splitAt_rearrange_iff (hb.mono (by omega) (by omega)) (hc.mono (by omega) (by omega))
  have hbefore : SplitAt l i r a ↔ SplitAt l i r c :=
    splitAt_rearrange_iff (hb.mono (by omega) (by omega)) hc
  have hleft : SortedOn l j b ↔ SortedOn l j c :=
    sortedOn_congr fun k _ hkj => (hc.outside (by omega)).symm
  rw [hafter, hbefore, hleft]
  exact sortedOn_iff_split hli hjr hji hij

end Joins

end LearnCLinux
