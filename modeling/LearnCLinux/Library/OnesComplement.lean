import Mathlib.Data.Nat.ModEq
import Mathlib.Tactic.Ring

/-! One's complement arithmetic.  The carry of an addition is brought round to the lowest bit, so
that words are added modulo `2 ^ w - 1`, with two words for 0. -/

namespace LearnCLinux.OnesComplement

variable {w k : Nat}

def add (a b : BitVec w) : BitVec w :=
  if a.toNat + b.toNat < 2 ^ w then a + b else a + b + 1#w

def sum (ws : List (BitVec w)) : BitVec w := ws.foldl add 0#w

theorem toNat_add (hw : 0 < w) (a b : BitVec w) : (add a b).toNat =
    if a.toNat + b.toNat < 2 ^ w then a.toNat + b.toNat
    else a.toNat + b.toNat - (2 ^ w - 1) := by
  have ha := a.isLt
  have hb := b.isLt
  rw [add]
  split
  next hlt => rw [BitVec.toNat_add, Nat.mod_eq_of_lt hlt]
  next hge =>
    have hone : (1#w).toNat = 1 := BitVec.toNat_one hw
    have hsum : (a.toNat + b.toNat) % 2 ^ w = a.toNat + b.toNat - 2 ^ w := by
      rw [Nat.mod_eq_sub_mod (by omega), Nat.mod_eq_of_lt (by omega)]
    rw [BitVec.toNat_add, BitVec.toNat_add, hone, hsum, Nat.mod_eq_of_lt (by omega)]
    omega

theorem add_modEq (hw : 0 < w) (a b : BitVec w) :
    (add a b).toNat ≡ a.toNat + b.toNat [MOD 2 ^ w - 1] := by
  rw [toNat_add hw]
  split
  · rfl
  next hge => exact (Nat.sub_modulus_modEq_iff (by omega)).mpr rfl

theorem add_pos (hw : 0 < w) (a b : BitVec w) :
    0 < (add a b).toNat ↔ 0 < a.toNat + b.toNat := by
  rw [toNat_add hw]
  split <;> omega

/-- A sum is kept modulo `2 ^ w - 1`, and is 0 only if all words are. -/
theorem foldl_add (hw : 0 < w) (ws : List (BitVec w)) (a : BitVec w) :
    (ws.foldl add a).toNat ≡ a.toNat + (ws.map BitVec.toNat).sum [MOD 2 ^ w - 1] ∧
      (0 < (ws.foldl add a).toNat ↔ 0 < a.toNat + (ws.map BitVec.toNat).sum) := by
  induction ws generalizing a with
  | nil => exact ⟨rfl, Iff.rfl⟩
  | cons b ws ih =>
    obtain ⟨hmod, hpos⟩ := ih (add a b)
    rw [List.foldl_cons, List.map_cons, List.sum_cons, ← Nat.add_assoc]
    refine ⟨hmod.trans ((add_modEq hw a b).add_right _), hpos.trans ?_⟩
    have hsum := add_pos hw a b
    omega

theorem sum_eq_allOnes_iff (hw : 0 < w) {ws : List (BitVec w)}
    (hpos : 0 < (ws.map BitVec.toNat).sum) :
    sum ws = BitVec.allOnes w ↔ 2 ^ w - 1 ∣ (ws.map BitVec.toNat).sum := by
  have hfold := foldl_add hw ws 0#w
  rw [BitVec.toNat_zero, Nat.zero_add] at hfold
  obtain ⟨hmod, hiff⟩ := hfold
  rw [← BitVec.toNat_inj, BitVec.toNat_allOnes, ← hmod.dvd_iff (Nat.dvd_refl _)]
  have hlt := (sum ws).isLt
  have hsum : 0 < (sum ws).toNat := hiff.mpr hpos
  constructor
  · intro heq
    exact ⟨1, by rw [Nat.mul_one]; exact heq⟩
  · intro hdvd
    have hle := Nat.le_of_dvd hsum hdvd
    change 2 ^ w - 1 ≤ (sum ws).toNat at hle
    omega

theorem toNat_append (a b : BitVec k) : (a ++ b).toNat = a.toNat * 2 ^ k + b.toNat := by
  rw [BitVec.toNat_append, ← Nat.shiftLeft_add_eq_or_of_lt b.isLt, Nat.shiftLeft_eq]

theorem append_modEq (a b : BitVec k) :
    (a ++ b).toNat ≡ 2 ^ k * (b ++ a).toNat [MOD 2 ^ (k + k) - 1] := by
  have hone : 1 ≤ 2 ^ (k + k) := Nat.one_le_two_pow
  have hsplit : 2 ^ k * (b ++ a).toNat = (a ++ b).toNat + b.toNat * (2 ^ (k + k) - 1) := by
    rw [toNat_append, toNat_append, Nat.mul_sub_one, pow_add]
    have hle : b.toNat ≤ b.toNat * (2 ^ k * 2 ^ k) := 
      Nat.le_mul_of_pos_right _ (Nat.mul_pos (Nat.two_pow_pos k) (Nat.two_pow_pos k))
    have hleft : 2 ^ k * (b.toNat * 2 ^ k + a.toNat) =
        a.toNat * 2 ^ k + b.toNat * (2 ^ k * 2 ^ k) := by ring
    omega
  rw [hsplit]
  exact Nat.modEq_add_mul_modulus_iff.mpr rfl

theorem dvd_sum_swap (ws : List (BitVec k × BitVec k)) :
    2 ^ (k + k) - 1 ∣ (ws.map fun w => (w.1 ++ w.2).toNat).sum ↔
      2 ^ (k + k) - 1 ∣ (ws.map fun w => (w.2 ++ w.1).toNat).sum := by
  have hmod : (ws.map fun w => (w.1 ++ w.2).toNat).sum ≡
      2 ^ k * (ws.map fun w => (w.2 ++ w.1).toNat).sum [MOD 2 ^ (k + k) - 1] := by
    induction ws with
    | nil => rfl
    | cons w ws ih =>
      rw [List.map_cons, List.map_cons, List.sum_cons, List.sum_cons, Nat.mul_add]
      exact (append_modEq w.1 w.2).add ih
  have hcoprime : Nat.Coprime (2 ^ (k + k) - 1) (2 ^ k) := by
    have hone : 1 ≤ 2 ^ (k + k) := Nat.one_le_two_pow
    have hright : Nat.gcd (2 ^ (k + k) - 1) (2 ^ k) ∣ 2 ^ (k + k) := by
      rw [pow_add]
      exact Dvd.dvd.mul_right (Nat.gcd_dvd_right _ _) _
    have hdvd := Nat.dvd_sub hright (Nat.gcd_dvd_left (2 ^ (k + k) - 1) (2 ^ k))
    rw [Nat.sub_sub_self hone] at hdvd
    exact Nat.dvd_one.mp hdvd
  rw [hmod.dvd_iff (Nat.dvd_refl _), hcoprime.dvd_mul_left]

end LearnCLinux.OnesComplement
