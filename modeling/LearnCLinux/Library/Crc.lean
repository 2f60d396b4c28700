import Mathlib.Algebra.Polynomial.Div
import Mathlib.Algebra.Polynomial.Monic
import Mathlib.Algebra.Field.ZMod

/-! Cyclic redundancy checks.  A register of width `w` that is shifted with a feedback word `g`
holds remainders modulo `X ^ w + g` over GF(2); reversing its bits turns it into a register that
is shifted the other way. -/

namespace LearnCLinux.Crc

open Polynomial

variable {w k : Nat}

def shift (g r : BitVec w) : BitVec w := if r.msb then (r <<< 1) ^^^ g else r <<< 1

def shiftLsb (g r : BitVec w) : BitVec w := if r.getLsbD 0 then (r >>> 1) ^^^ g else r >>> 1

/-- A chunk of `k` bits is added at the top of the register and shifted out. -/
def absorb (g r : BitVec w) (c : BitVec k) : BitVec w :=
  (shift g)^[k] (r ^^^ c.setWidth w <<< (w - k))

/-- A chunk of `k` bits is added at the bottom of the register and shifted out. -/
def absorbLsb (g r : BitVec w) (c : BitVec k) : BitVec w :=
  (shiftLsb g)^[k] (r ^^^ c.setWidth w)

section Polynomials

/-- Bit `i` of the word is the coefficient of `X ^ i`. -/
noncomputable def poly (r : BitVec w) : (ZMod 2)[X] :=
  ∑ i ∈ Finset.range w, if r.getLsbD i then X ^ i else 0

/-- The first bit is the leading coefficient. -/
noncomputable def streamPoly : List Bool → (ZMod 2)[X]
  | [] => 0
  | b :: bs => (if b then X ^ bs.length else 0) + streamPoly bs

noncomputable def chunksPoly : List (BitVec k) → (ZMod 2)[X]
  | [] => 0
  | c :: cs => poly c * X ^ (k * cs.length) + chunksPoly cs

noncomputable def generator (g : BitVec w) : (ZMod 2)[X] := X ^ w + poly g

@[simp] theorem coeff_poly (r : BitVec w) (n : Nat) :
    (poly r).coeff n = if r.getLsbD n then 1 else 0 := by
  have hterm : ∀ i, (if r.getLsbD i then (X : (ZMod 2)[X]) ^ i else 0).coeff n =
      if n = i then (if r.getLsbD i then 1 else 0) else 0 := by
    intro i
    cases r.getLsbD i <;> simp [coeff_X_pow]
  rw [poly, finsetSum_coeff, Finset.sum_congr rfl fun i _ => hterm i, Finset.sum_ite_eq]
  by_cases hn : n < w
  · simp [hn]
  · simp [hn, BitVec.getLsbD_of_ge r n (Nat.le_of_not_lt hn)]

theorem poly_xor (r s : BitVec w) : poly (r ^^^ s) = poly r + poly s := by
  ext n
  simp only [coeff_poly, coeff_add, BitVec.getLsbD_xor]
  cases r.getLsbD n <;> cases s.getLsbD n <;> decide

theorem degree_poly_lt (r : BitVec w) : (poly r).degree < w := by
  apply (degree_lt_iff_coeff_zero _ _).mpr
  intro n hn
  simp [BitVec.getLsbD_of_ge r n hn]

theorem generator_monic (g : BitVec w) : (generator g).Monic :=
  monic_X_pow_add (degree_poly_lt g)

theorem degree_generator (g : BitVec w) : (generator g).degree = w :=
  (degree_add_eq_left_of_degree_lt (by simpa using degree_poly_lt g)).trans (degree_X_pow w)

theorem poly_chunk (c : BitVec k) (hk : k ≤ w) :
    poly (c.setWidth w <<< (w - k)) = poly c * X ^ (w - k) := by
  ext n
  rw [coeff_mul_X_pow', coeff_poly, coeff_poly, BitVec.getLsbD_shiftLeft, BitVec.getLsbD_setWidth]
  by_cases hn : n < w - k
  · simp [hn, show ¬ w - k ≤ n by omega]
  · have hle : w - k ≤ n := Nat.le_of_not_lt hn
    by_cases hnw : n < w
    · simp [hn, hle, hnw, show n - (w - k) < w by omega]
    · simp [hle, hnw, BitVec.getLsbD_of_ge c (n - (w - k)) (by omega)]

/-- Shifting multiplies by `X`, up to the bit that falls out. -/
theorem poly_shift (g r : BitVec w) :
    X * poly r = poly (shift g r) + generator g * (if r.msb then 1 else 0) := by
  have hsum : ∀ p : (ZMod 2)[X], p + p = 0 := CharTwo.add_self_eq_zero
  have hleft : X * poly r = poly (r <<< 1) + if r.msb then X ^ w else 0 := by
    ext n
    cases n with
    | zero =>
      cases hmsb : r.msb with
      | false => simp
      | true =>
        have hw : 0 ≠ w := by
          rintro rfl
          simp [BitVec.msb, BitVec.getMsbD] at hmsb
        simp [coeff_X_pow, hw]
    | succ n =>
      rw [coeff_X_mul, coeff_add, coeff_poly, coeff_poly, BitVec.getLsbD_shiftLeft]
      rw [BitVec.msb_eq_getLsbD_last]
      by_cases hlast : n + 1 = w
      · have hn : w - 1 = n := by omega
        cases hr : r.getLsbD n <;> simp [hlast, hn, hr]
      · by_cases hlt : n + 1 < w
        · cases hr : r.getLsbD (w - 1) <;> simp [hlt, coeff_X_pow, hlast]
        · rw [BitVec.getLsbD_of_ge r n (by omega)]
          cases hr : r.getLsbD (w - 1) <;> simp [hlt, coeff_X_pow, hlast]
  rw [hleft, shift, generator]
  cases r.msb with
  | false => simp
  | true =>
    simp only [if_true, mul_one, poly_xor]
    rw [add_assoc, add_comm (X ^ w) (poly g), ← add_assoc (poly g), hsum, zero_add]

end Polynomials

def Remainder (g r : BitVec w) (p : (ZMod 2)[X]) : Prop := poly r = p %ₘ generator g

namespace Remainder

variable {g r : BitVec w} {p : (ZMod 2)[X]}

theorem of_poly (g r : BitVec w) : Remainder g r (poly r) := by
  apply Eq.symm
  apply (modByMonic_eq_self_iff (generator_monic g)).mpr
  rw [degree_generator]
  exact degree_poly_lt r

theorem xor (h : Remainder g r p) (s : BitVec w) : Remainder g (r ^^^ s) (p + poly s) := by
  rw [Remainder, add_modByMonic, poly_xor, ← h, ← of_poly g s]

theorem shift (h : Remainder g r p) : Remainder g (shift g r) (X * p) := by
  have hp : p = poly r + generator g * (p /ₘ generator g) := by
    rw [h, modByMonic_add_div]
  have hX : X * p = poly (Crc.shift g r) +
      generator g * ((if r.msb then 1 else 0) + X * (p /ₘ generator g)) := by
    conv_lhs => rw [hp, mul_add, poly_shift g r]
    ring
  apply Eq.symm
  apply (div_modByMonic_unique ((if r.msb then 1 else 0) + X * (p /ₘ generator g)) _
    (generator_monic g) ⟨hX.symm, _⟩).2
  rw [degree_generator]
  exact degree_poly_lt _

theorem iterate (h : Remainder g r p) (n : Nat) :
    Remainder g ((Crc.shift g)^[n] r) (X ^ n * p) := by
  induction n generalizing r p with
  | zero => simpa using h
  | succ n ih =>
    have hnext := ih h.shift
    rwa [← mul_assoc, ← pow_succ] at hnext

theorem absorb (h : Remainder g r p) (c : BitVec k) (hk : k ≤ w) :
    Remainder g (absorb g r c) (X ^ k * p + poly c * X ^ w) := by
  have hnext := (h.xor (c.setWidth w <<< (w - k))).iterate k
  rw [poly_chunk c hk, mul_add, mul_left_comm, ← pow_add, Nat.add_sub_cancel' hk] at hnext
  exact hnext

/-- The register after a message `M` holds the remainder of `M * X ^ w` and its start value,
moved up by the length of the message. -/
theorem foldl_absorb (h : Remainder g r p) (cs : List (BitVec k)) (hk : k ≤ w) :
    Remainder g (cs.foldl (Crc.absorb g) r) (p * X ^ (k * cs.length) + chunksPoly cs * X ^ w) := by
  induction cs generalizing r p with
  | nil => simpa [chunksPoly] using h
  | cons c cs ih =>
    have hnext := ih (h.absorb c hk)
    rw [List.foldl_cons]
    convert hnext using 1
    simp only [chunksPoly, List.length_cons]
    ring

end Remainder

section Streams

theorem streamPoly_append (bs cs : List Bool) :
    streamPoly (bs ++ cs) = streamPoly bs * X ^ cs.length + streamPoly cs := by
  induction bs with
  | nil => simp [streamPoly]
  | cons b bs ih =>
    rw [List.cons_append, streamPoly, streamPoly, ih, List.length_append]
    cases b with
    | false => simp
    | true =>
      simp only [if_true]
      ring

theorem streamPoly_coeff_of_le {bs : List Bool} {n : Nat} (h : bs.length ≤ n) :
    (streamPoly bs).coeff n = 0 := by
  induction bs with
  | nil => simp [streamPoly]
  | cons b bs ih =>
    have hlt : bs.length < n := h
    rw [streamPoly, coeff_add, ih hlt.le, add_zero]
    cases b with
    | false => simp
    | true => simp [coeff_X_pow, hlt.ne']

theorem coeff_streamPoly {bs : List Bool} {n : Nat} (h : n < bs.length) :
    (streamPoly bs).coeff n = if bs[bs.length - 1 - n] then 1 else 0 := by
  induction bs with
  | nil => cases h
  | cons b bs ih =>
    rw [streamPoly, coeff_add]
    rcases Nat.lt_succ_iff_lt_or_eq.mp h with hlt | rfl
    · have hpos : bs.length - n = (bs.length - 1 - n) + 1 := by omega
      rw [ih hlt]
      cases b <;> simp [coeff_X_pow, hlt.ne, hpos]
    · rw [streamPoly_coeff_of_le (Nat.le_refl _)]
      cases b <;> simp

def msbBits (c : BitVec k) : List Bool := (List.range k).map c.getMsbD

theorem streamPoly_msbBits (c : BitVec k) : streamPoly (msbBits c) = poly c := by
  ext n
  have hlen : (msbBits c).length = k := by simp [msbBits]
  by_cases hn : n < k
  · rw [coeff_streamPoly (hlen.symm ▸ hn), coeff_poly]
    simp only [msbBits, List.length_map, List.length_range, List.getElem_map, List.getElem_range,
      BitVec.getMsbD]
    simp [show k - 1 - n < k by omega, show k - 1 - (k - 1 - n) = n by omega]
  · rw [streamPoly_coeff_of_le (hlen.symm ▸ Nat.le_of_not_lt hn), coeff_poly,
      BitVec.getLsbD_of_ge c n (Nat.le_of_not_lt hn)]
    rfl

theorem streamPoly_flatMap (cs : List (BitVec k)) :
    streamPoly (cs.flatMap msbBits) = chunksPoly cs := by
  induction cs with
  | nil => rfl
  | cons c cs ih =>
    have hlen : (cs.flatMap msbBits).length = k * cs.length := by
      simp [List.length_flatMap, msbBits, Nat.mul_comm]
    rw [List.flatMap_cons, streamPoly_append, streamPoly_msbBits, ih, hlen, chunksPoly]

end Streams

section Reflection

theorem reverse_shiftLeft (r : BitVec w) : (r <<< 1).reverse = r.reverse >>> 1 := by
  apply BitVec.eq_of_getLsbD_eq
  intro i hi
  simp only [BitVec.getLsbD_reverse, BitVec.getMsbD_shiftLeft, BitVec.getLsbD_ushiftRight]
  rw [Nat.add_comm]

theorem reverse_xor (r s : BitVec w) : (r ^^^ s).reverse = r.reverse ^^^ s.reverse := by
  apply BitVec.eq_of_getLsbD_eq
  intro i hi
  simp only [BitVec.getLsbD_reverse, BitVec.getMsbD_xor, BitVec.getLsbD_xor]

theorem reverse_shift (g r : BitVec w) : (shift g r).reverse = shiftLsb g.reverse r.reverse := by
  have hbit : r.reverse.getLsbD 0 = r.msb := by
    rw [BitVec.getLsbD_reverse]
    rfl
  rw [shift, shiftLsb, hbit]
  cases r.msb with
  | false => simp [reverse_shiftLeft]
  | true => simp [reverse_shiftLeft, reverse_xor]

theorem reverse_iterate (g r : BitVec w) (n : Nat) :
    ((shift g)^[n] r).reverse = (shiftLsb g.reverse)^[n] r.reverse := by
  induction n generalizing r with
  | zero => rfl
  | succ n ih =>
    simp only [Function.iterate_succ, Function.comp_apply, ih, reverse_shift]

theorem reverse_chunk (c : BitVec k) (hk : k ≤ w) :
    (c.setWidth w <<< (w - k)).reverse = c.reverse.setWidth w := by
  apply BitVec.eq_of_getLsbD_eq
  intro i hi
  simp only [BitVec.getLsbD_reverse, BitVec.getLsbD_setWidth, BitVec.getMsbD, hi, decide_true,
    Bool.true_and, BitVec.getLsbD_shiftLeft]
  by_cases hik : i < k
  · have hpos : w - 1 - i - (w - k) = k - 1 - i := by omega
    simp [hik, hpos, show ¬ w - 1 - i < w - k by omega, show w - 1 - i < w by omega,
      show k - 1 - i < w by omega]
  · simp [hik, show w - 1 - i < w - k by omega]

theorem reverse_absorb (g r : BitVec w) (c : BitVec k) (hk : k ≤ w) :
    (absorb g r c).reverse = absorbLsb g.reverse r.reverse c.reverse := by
  rw [absorb, absorbLsb, reverse_iterate, reverse_xor, reverse_chunk c hk]

theorem reverse_foldl_absorb (g r : BitVec w) (cs : List (BitVec k)) (hk : k ≤ w) :
    (cs.foldl (absorb g) r).reverse =
      (cs.map BitVec.reverse).foldl (absorbLsb g.reverse) r.reverse := by
  induction cs generalizing r with
  | nil => rfl
  | cons c cs ih => simp [ih, reverse_absorb g r c hk]

end Reflection

section Linearity

variable (g r s : BitVec w)

theorem shiftLsb_xor : shiftLsb g (r ^^^ s) = shiftLsb g r ^^^ shiftLsb g s := by
  apply BitVec.eq_of_getLsbD_eq
  intro i hi
  rw [shiftLsb, shiftLsb, shiftLsb, BitVec.getLsbD_xor]
  cases r.getLsbD 0 <;> cases s.getLsbD 0 <;>
    simp only [BitVec.getLsbD_xor, BitVec.getLsbD_ushiftRight, Bool.xor_false, Bool.xor_true,
      Bool.not_false, Bool.not_true, if_true, Bool.false_eq_true, if_false] <;>
    cases g.getLsbD i <;> cases r.getLsbD (1 + i) <;> cases s.getLsbD (1 + i) <;> rfl

theorem iterate_shiftLsb_xor (n : Nat) :
    (shiftLsb g)^[n] (r ^^^ s) = (shiftLsb g)^[n] r ^^^ (shiftLsb g)^[n] s := by
  induction n generalizing r s with
  | zero => rfl
  | succ n ih => rw [Function.iterate_succ_apply, shiftLsb_xor, ih]; rfl

theorem iterate_shiftLsb_shiftLeft (c : BitVec k) {n : Nat} (h : n + k ≤ w) :
    (shiftLsb g)^[n] (c.setWidth w <<< n) = c.setWidth w := by
  induction n with
  | zero => simp
  | succ n ih =>
    have hdown : shiftLsb g (c.setWidth w <<< (n + 1)) = c.setWidth w <<< n := by
      have hbit : (c.setWidth w <<< (n + 1)).getLsbD 0 = false := by simp
      rw [shiftLsb, hbit]
      apply BitVec.eq_of_getLsbD_eq
      intro i hi
      rw [if_neg Bool.false_ne_true, BitVec.getLsbD_ushiftRight]
      simp only [BitVec.getLsbD_shiftLeft, BitVec.getLsbD_setWidth, hi,
        show 1 + i - (n + 1) = i - n by omega, show (1 + i < n + 1) = (i < n) by simp; omega]
      by_cases htop : 1 + i < w
      · simp [htop]
      · simp [htop, BitVec.getLsbD_of_ge c (i - n) (by omega)]
    rw [Function.iterate_succ_apply, hdown, ih (by omega)]

theorem absorbLsb_append {l : Nat} (c : BitVec k) (d : BitVec l) (h : k + l ≤ w) :
    absorbLsb g (absorbLsb g r c) d = absorbLsb g r (d ++ c) := by
  have hjoin : (d ++ c).setWidth w = c.setWidth w ^^^ d.setWidth w <<< k := by
    apply BitVec.eq_of_getLsbD_eq
    intro i hi
    rw [BitVec.getLsbD_xor, BitVec.getLsbD_setWidth, BitVec.getLsbD_append,
      BitVec.getLsbD_shiftLeft, BitVec.getLsbD_setWidth, BitVec.getLsbD_setWidth]
    by_cases hik : i < k
    · simp [hi, hik]
    · simp [hi, hik, BitVec.getLsbD_of_ge c i (Nat.le_of_not_lt hik), show i - k < w by omega]
  rw [absorbLsb, absorbLsb, absorbLsb, hjoin, ← BitVec.xor_assoc, Function.iterate_add_apply,
    iterate_shiftLsb_xor g (r ^^^ c.setWidth w), iterate_shiftLsb_shiftLeft g d h]

/-- A change of the register is shifted along with the message. -/
theorem foldl_absorbLsb_xor (cs : List (BitVec k)) :
    cs.foldl (absorbLsb g) (r ^^^ s) =
      cs.foldl (absorbLsb g) r ^^^ (shiftLsb g)^[k * cs.length] s := by
  induction cs generalizing r s with
  | nil => rfl
  | cons c cs ih =>
    have hfirst : absorbLsb g (r ^^^ s) c = absorbLsb g r c ^^^ (shiftLsb g)^[k] s := by
      rw [absorbLsb, absorbLsb, ← iterate_shiftLsb_xor, BitVec.xor_assoc, BitVec.xor_comm s,
        BitVec.xor_assoc]
    rw [List.foldl_cons, hfirst, ih, List.foldl_cons, List.length_cons, Nat.mul_succ,
      Function.iterate_add_apply]

theorem foldl_absorbLsb_cons (c : BitVec w) (cs : List (BitVec w)) :
    (c :: cs).foldl (absorbLsb g) r =
      (0#w :: cs).foldl (absorbLsb g) r ^^^ (shiftLsb g)^[w * (cs.length + 1)] c := by
  have hfirst : absorbLsb g r c = absorbLsb g r 0#w ^^^ (shiftLsb g)^[w] c := by
    rw [absorbLsb, absorbLsb, ← iterate_shiftLsb_xor]
    simp
  rw [List.foldl_cons, hfirst, foldl_absorbLsb_xor, List.foldl_cons, Nat.mul_succ,
    Function.iterate_add_apply]

end Linearity

end LearnCLinux.Crc
