import LearnCLinux.Library.ErrorDetection
import Mathlib.Algebra.Polynomial.Inductions
import Mathlib.Data.FinEnum
import Mathlib.RingTheory.Coprime.Lemmas
import Mathlib.SetTheory.Cardinal.Finite
import Mathlib.Tactic.LinearCombination

/-! When a cyclic redundancy check confuses two messages, and how many it confuses. -/

namespace LearnCLinux.Crc

variable {w k : Nat}

section Division

open Polynomial

variable {g r s : BitVec w} {p q : (ZMod 2)[X]}

theorem poly_injective : Function.Injective (poly (w := w)) := by
  intro r s h
  apply BitVec.eq_of_getLsbD_eq
  intro i hi
  have hcoeff := congrArg (fun p => coeff p i) h
  simp only [coeff_poly] at hcoeff
  cases hr : r.getLsbD i <;> cases hs : s.getLsbD i <;> simp_all

theorem Remainder.eq_iff (hr : Remainder g r p) (hs : Remainder g s q) :
    r = s ↔ generator g ∣ p - q := by
  rw [← modByMonic_eq_zero_iff_dvd (generator_monic g), sub_modByMonic, ← hr, ← hs, sub_eq_zero]
  exact poly_injective.eq_iff.symm

theorem generator_isCoprime (hg : g.getLsbD 0 = true) (n : Nat) :
    IsCoprime (generator g) (X ^ n) := by
  have hw : 0 ≠ w := by
    rintro rfl
    rw [BitVec.getLsbD_of_ge g 0 (Nat.zero_le _)] at hg
    cases hg
  have hcoeff : (generator g).coeff 0 = 1 := by
    rw [generator, coeff_add, coeff_poly, hg, coeff_X_pow, if_neg hw, zero_add, if_pos rfl]
  have hsplit := divX_mul_X_add (generator g)
  rw [hcoeff, map_one] at hsplit
  apply IsCoprime.pow_right
  exact ⟨1, -(generator g).divX, by linear_combination -hsplit⟩

end Division

section Reaching

variable {g : BitVec w} {l : Nat}

theorem absorbLsb_injective (hg : g.msb = true) (c : BitVec k) :
    Function.Injective fun r => absorbLsb g r c := by
  intro r s h
  have hsame : r ^^^ c.setWidth w = s ^^^ c.setWidth w := (shiftLsb_injective hg).iterate k h
  exact (BitVec.xor_left_inj _).mp hsame

theorem foldl_absorbLsb_injective (hg : g.msb = true) (cs : List (BitVec k)) :
    Function.Injective fun r => cs.foldl (absorbLsb g) r := by
  induction cs with
  | nil => exact Function.injective_id
  | cons c cs ih => exact ih.comp (absorbLsb_injective hg c)

theorem append_injective {c c' : BitVec k} {d d' : BitVec l} (h : d ++ c = d' ++ c') :
    c = c' ∧ d = d' := by
  have hbit := fun i => congrArg (fun x => x.getLsbD i) h
  simp only [BitVec.getLsbD_append] at hbit
  constructor
  · apply BitVec.eq_of_getLsbD_eq
    intro i hi
    simpa [hi] using hbit i
  · apply BitVec.eq_of_getLsbD_eq
    intro i hi
    simpa using hbit (k + i)

theorem card_bitVec (w : Nat) : Nat.card (BitVec w) = 2 ^ w := by
  rw [Nat.card_congr ⟨BitVec.toFin, BitVec.ofFin, fun _ => rfl, fun _ => rfl⟩, Nat.card_fin]

theorem absorbLsb_pair_bijective (hg : g.msb = true) (h : l + k = w) (r : BitVec w) :
    Function.Bijective fun cd : BitVec k × BitVec l => absorbLsb g (absorbLsb g r cd.1) cd.2 := by
  apply Function.Injective.bijective_of_nat_card_le
  · rintro ⟨c, d⟩ ⟨c', d'⟩ hcd
    simp only [absorbLsb_append g r _ _ (show k + l ≤ w by omega)] at hcd
    have hword : r ^^^ (d ++ c).setWidth w = r ^^^ (d' ++ c').setWidth w :=
      (shiftLsb_injective hg).iterate _ hcd
    subst h
    rw [BitVec.xor_right_inj, BitVec.setWidth_eq, BitVec.setWidth_eq] at hword
    obtain ⟨rfl, rfl⟩ := append_injective hword
    rfl
  · rw [Nat.card_prod, card_bitVec, card_bitVec, card_bitVec, ← Nat.pow_add, Nat.add_comm, h]

/-- Whatever stands behind two such chunks, one pair of them and no other brings the register to a
given word. -/
theorem existsUnique_pair {j : Nat} (hg : g.msb = true) (h : l + k = w) (r s : BitVec w)
    (cs : List (BitVec j)) : ∃! cd : BitVec k × BitVec l,
      cs.foldl (absorbLsb g) (absorbLsb g (absorbLsb g r cd.1) cd.2) = s := by
  have hrest := (foldl_absorbLsb_injective hg cs).bijective_of_nat_card_le (Nat.le_refl _)
  exact (hrest.comp (absorbLsb_pair_bijective hg h r)).existsUnique s

end Reaching

section Quiet

variable {g r : BitVec w}

theorem foldl_replicate_zero (g r : BitVec w) (k n : Nat) :
    (List.replicate n 0#k).foldl (absorbLsb g) r = (shiftLsb g)^[k * n] r := by
  induction n generalizing r with
  | zero => rfl
  | succ n ih =>
    rw [List.replicate_succ, List.foldl_cons, ih, absorbLsb, BitVec.setWidth_zero,
      BitVec.xor_zero, ← Function.iterate_add_apply]
    congr 1

/-- Zeros in front of a message go unnoticed when they bring the start value back. -/
theorem foldl_leading_zeros (hg : g.msb = true) (n : Nat) (cs : List (BitVec k)) :
    (List.replicate n 0#k ++ cs).foldl (absorbLsb g) r = cs.foldl (absorbLsb g) r ↔
      Function.minimalPeriod (shiftLsb g) r ∣ k * n := by
  rw [List.foldl_append, foldl_replicate_zero, (foldl_absorbLsb_injective hg cs).eq_iff]
  exact Function.isPeriodicPt_iff_minimalPeriod_dvd

end Quiet

end LearnCLinux.Crc
