import LearnCLinux.Library.Crc
import Mathlib.Data.Nat.Prime.Basic
import Mathlib.Dynamics.PeriodicPts.Defs

/-! What a cyclic redundancy check detects.  The register takes in a stream bit by bit, two streams
differ in their registers by what their difference leaves in an empty one, and a register whose
feedback has its highest bit set loses nothing when it is shifted. -/

namespace LearnCLinux.Crc

variable {w k : Nat}

section Bits

variable (g r s : BitVec w)

def lsbBits (c : BitVec k) : List Bool := (List.range k).map c.getLsbD

def absorbBit (b : Bool) : BitVec w := absorbLsb g r (BitVec.ofBool b)

@[simp] theorem length_lsbBits (c : BitVec k) : (lsbBits c).length = k := by
  simp [lsbBits]

theorem getElem_lsbBits (c : BitVec k) {i : Nat} (hi : i < (lsbBits c).length) :
    (lsbBits c)[i] = c.getLsbD i := by
  simp [lsbBits]

theorem lsbBits_injective : Function.Injective (lsbBits (k := k)) := by
  intro c d h
  apply BitVec.eq_of_getLsbD_eq
  intro i hi
  rw [← getElem_lsbBits c (by simpa using hi), ← getElem_lsbBits d (by simpa using hi)]
  simp only [h]

theorem getLsbD_ofBoolListLE {bs : List Bool} {i : Nat} (hi : i < bs.length) :
    (BitVec.ofBoolListLE bs).getLsbD i = bs[i] := by
  rw [BitVec.getLsbD_ofBoolListLE, List.getD_eq_getElem?_getD, List.getElem?_eq_getElem hi,
    Option.getD_some]

theorem absorbBit_false : absorbBit g r false = shiftLsb g r := by
  simp [absorbBit, absorbLsb]

theorem absorbBit_true : absorbBit g r true = shiftLsb g (r ^^^ 1#w) := by
  have hone : (BitVec.ofBool true).setWidth w = 1#w := by
    apply BitVec.eq_of_toNat_eq
    simp
  rw [absorbBit, hone.symm]
  rfl

theorem absorbBit_xor (b c : Bool) :
    absorbBit g (r ^^^ s) (b ^^ c) = absorbBit g r b ^^^ absorbBit g s c := by
  cases b <;> cases c <;>
    simp only [absorbBit_false, absorbBit_true, Bool.xor_false, Bool.xor_true, Bool.not_false,
      Bool.not_true, shiftLsb_xor]
  · rw [BitVec.xor_assoc]
  · rw [BitVec.xor_assoc, BitVec.xor_comm (shiftLsb g s), ← BitVec.xor_assoc]
  · rw [BitVec.xor_assoc, BitVec.xor_comm _ (shiftLsb g s ^^^ _), BitVec.xor_assoc, BitVec.xor_self,
      BitVec.xor_zero]

theorem absorbLsb_succ (c : BitVec (k + 1)) (hk : k + 1 ≤ w) :
    absorbLsb g r c = absorbBit g (absorbLsb g r (c.setWidth k)) c.msb := by
  rw [absorbBit, absorbLsb_append g r _ _ hk, absorbLsb, absorbLsb,
    show (shiftLsb g)^[1 + k] = (shiftLsb g)^[k + 1] by rw [Nat.add_comm]]
  congr 2
  apply BitVec.eq_of_getLsbD_eq
  intro i hi
  rw [BitVec.getLsbD_setWidth, BitVec.getLsbD_setWidth, BitVec.getLsbD_append,
    BitVec.msb_eq_getLsbD_last]
  by_cases hik : i < k
  · simp [hi, hik]
  · rcases Nat.lt_or_eq_of_le (Nat.le_of_not_lt hik) with hlt | rfl
    · simp [hi, hik, BitVec.getLsbD_of_ge c i hlt, show i - k ≠ 0 by omega]
    · simp [hi]

theorem absorbLsb_eq_foldl (c : BitVec k) (hk : k ≤ w) :
    absorbLsb g r c = (lsbBits c).foldl (absorbBit g) r := by
  induction k with
  | zero =>
    rw [BitVec.eq_nil c]
    simp [absorbLsb, lsbBits]
  | succ k ih =>
    have hlow : (List.range k).map (c.setWidth k).getLsbD = (List.range k).map c.getLsbD := by
      apply List.map_congr_left
      intro i hi
      simp [List.mem_range.mp hi]
    rw [absorbLsb_succ g r c hk, ih _ (by omega), lsbBits, hlow, lsbBits, List.range_succ,
      List.map_append, List.foldl_append, BitVec.msb_eq_getLsbD_last]
    rfl

theorem foldl_absorbLsb_eq (cs : List (BitVec k)) (hk : k ≤ w) :
    cs.foldl (absorbLsb g) r = (cs.flatMap lsbBits).foldl (absorbBit g) r := by
  induction cs generalizing r with
  | nil => rfl
  | cons c cs ih =>
    rw [List.foldl_cons, ih, absorbLsb_eq_foldl g r c hk, List.flatMap_cons, List.foldl_append]

end Bits

section Differences

variable (g r s : BitVec w) {xs ys : List Bool}

def difference (xs ys : List Bool) : List Bool := List.zipWith xor xs ys

theorem getElem?_difference (h : xs.length = ys.length) (i : Nat) :
    (difference xs ys)[i]? = some true ↔ xs[i]? ≠ ys[i]? := by
  rw [difference, List.getElem?_zipWith]
  by_cases hi : i < xs.length
  · rw [List.getElem?_eq_getElem hi, List.getElem?_eq_getElem (h ▸ hi)]
    simp
  · rw [List.getElem?_eq_none (by omega), List.getElem?_eq_none (by omega)]
    simp

theorem foldl_difference (h : xs.length = ys.length) :
    (difference xs ys).foldl (absorbBit g) (r ^^^ s) =
      xs.foldl (absorbBit g) r ^^^ ys.foldl (absorbBit g) s := by
  induction xs generalizing ys r s with
  | nil =>
    cases ys with
    | nil => rfl
    | cons y ys => cases h
  | cons x xs ih =>
    cases ys with
    | nil => cases h
    | cons y ys =>
      have hrest := ih (absorbBit g r x) (absorbBit g s y) (Nat.succ.inj h)
      rw [← absorbBit_xor] at hrest
      exact hrest

/-- Two streams leave the same register if and only if their difference leaves an empty one. -/
theorem foldl_eq_iff_difference (h : xs.length = ys.length) :
    xs.foldl (absorbBit g) r = ys.foldl (absorbBit g) r ↔
      (difference xs ys).foldl (absorbBit g) 0#w = 0#w := by
  have hdiff := foldl_difference g r r h
  rw [BitVec.xor_self] at hdiff
  rw [hdiff, BitVec.xor_eq_zero_iff]

end Differences

section Injectivity

variable {g r : BitVec w}

theorem shiftLsb_eq_zero (hg : g.msb = true) (h : shiftLsb g r = 0#w) : r = 0#w := by
  rw [shiftLsb] at h
  cases hbit : r.getLsbD 0 with
  | false =>
    rw [hbit, if_neg Bool.false_ne_true] at h
    apply BitVec.eq_of_getLsbD_eq
    intro i hi
    cases i with
    | zero => rw [hbit, BitVec.getLsbD_zero]
    | succ i =>
      have hnext := congrArg (fun x => x.getLsbD i) h
      simpa [Nat.add_comm 1 i] using hnext
  | true =>
    rw [hbit, if_pos rfl] at h
    have htop := congrArg BitVec.msb h
    simp [BitVec.msb_xor, hg, BitVec.msb_ushiftRight] at htop

theorem shiftLsb_injective (hg : g.msb = true) : Function.Injective (shiftLsb g) := by
  intro r s h
  apply BitVec.xor_eq_zero_iff.mp
  apply shiftLsb_eq_zero hg
  rw [shiftLsb_xor, h, BitVec.xor_self]

theorem iterate_shiftLsb_zero (g : BitVec w) (n : Nat) : (shiftLsb g)^[n] 0#w = 0#w := by
  have h := iterate_shiftLsb_xor g 0#w 0#w n
  rwa [BitVec.xor_self, BitVec.xor_self] at h

theorem iterate_shiftLsb_eq_zero (hg : g.msb = true) (n : Nat) :
    (shiftLsb g)^[n] r = 0#w ↔ r = 0#w := by
  have hinj := ((shiftLsb_injective hg).iterate n).eq_iff (a := r) (b := 0#w)
  rwa [iterate_shiftLsb_zero] at hinj

/-- Only the chunks that spell the register empty it. -/
theorem absorbLsb_absorbLsb_eq_zero {l : Nat} (hg : g.msb = true) (c : BitVec k) (d : BitVec l)
    (h : k + l ≤ w) :
    absorbLsb g (absorbLsb g r c) d = 0#w ↔ r = (d ++ c).setWidth w := by
  rw [absorbLsb_append g r c d h, absorbLsb, iterate_shiftLsb_eq_zero hg, BitVec.xor_eq_zero_iff]

end Injectivity

section Errors

variable {g : BitVec w} {bs : List Bool} {u v : Nat}

theorem foldl_absorbBit_quiet (g r : BitVec w) (h : true ∉ bs) :
    bs.foldl (absorbBit g) r = (shiftLsb g)^[bs.length] r := by
  induction bs generalizing r with
  | nil => rfl
  | cons b bs ih =>
    rw [List.mem_cons, not_or] at h
    have hfalse : b = false := by
      cases b with
      | false => rfl
      | true => exact absurd rfl h.1
    rw [List.foldl_cons, ih _ h.2, hfalse, absorbBit_false]
    rfl

/-- A run of at most `w` bits with a one among them empties no register. -/
theorem foldl_absorbBit_ne_zero (hg : g.msb = true) (hlen : bs.length ≤ w) (h : true ∈ bs) :
    bs.foldl (absorbBit g) 0#w ≠ 0#w := by
  have hbits : lsbBits (BitVec.ofBoolListLE bs) = bs := by
    apply List.ext_getElem
    · simp
    · intro i hi hi'
      rw [getElem_lsbBits, getLsbD_ofBoolListLE hi']
  intro hzero
  rw [← hbits, ← absorbLsb_eq_foldl g _ _ hlen, absorbLsb, iterate_shiftLsb_eq_zero hg,
    BitVec.zero_xor] at hzero
  obtain ⟨i, hi, htrue⟩ := List.mem_iff_getElem.mp h
  have hbit := congrArg (fun x => x.getLsbD i) hzero
  simp only [BitVec.getLsbD_setWidth, getLsbD_ofBoolListLE hi, htrue, BitVec.getLsbD_zero,
    Bool.and_true, decide_eq_false_iff_not] at hbit
  omega

/-- A difference whose ones lie within `w` positions of one another leaves a trace. -/
theorem burst_ne_zero (hg : g.msb = true) (h : true ∈ bs)
    (hwindow : ∀ i, bs[i]? = some true → u ≤ i ∧ i < u + w) :
    bs.foldl (absorbBit g) 0#w ≠ 0#w := by
  have hbefore : true ∉ bs.take u := by
    intro hmem
    obtain ⟨i, hi, htrue⟩ := List.mem_take_iff_getElem.mp hmem
    have := hwindow i (by rw [List.getElem?_eq_getElem (by omega), htrue])
    omega
  have hafter : true ∉ (bs.drop u).drop w := by
    intro hmem
    rw [List.drop_drop] at hmem
    obtain ⟨i, hi, htrue⟩ := List.mem_drop_iff_getElem.mp hmem
    have := hwindow (u + w + i) (by rw [List.getElem?_eq_getElem (by omega), htrue])
    omega
  have hinside : true ∈ (bs.drop u).take w := by
    have hsplit : true ∈ bs.take u ++ ((bs.drop u).take w ++ (bs.drop u).drop w) := by
      rwa [List.take_append_drop, List.take_append_drop]
    rcases List.mem_append.mp hsplit with hmem | hmem
    · exact absurd hmem hbefore
    · exact (List.mem_append.mp hmem).resolve_right hafter
  rw [← List.take_append_drop u bs, ← List.take_append_drop w (bs.drop u), List.foldl_append,
    List.foldl_append, foldl_absorbBit_quiet g _ hbefore, iterate_shiftLsb_zero,
    foldl_absorbBit_quiet g _ hafter, Ne, iterate_shiftLsb_eq_zero hg]
  exact foldl_absorbBit_ne_zero hg (by simp) hinside

theorem foldl_single (g : BitVec w) {n : Nat} (hu : u < n) :
    ((List.replicate n false).set u true).foldl (absorbBit g) 0#w =
      (shiftLsb g)^[n - u] 1#w := by
  have hquiet : ∀ m, true ∉ List.replicate m false := by
    intro m hmem
    cases List.eq_of_mem_replicate hmem
  rw [List.set_eq_take_append_cons_drop, if_pos (by simpa using hu), List.foldl_append,
    List.foldl_cons, List.take_replicate, List.drop_replicate, foldl_absorbBit_quiet g _ (hquiet _),
    foldl_absorbBit_quiet g _ (hquiet _), iterate_shiftLsb_zero, absorbBit_true, BitVec.zero_xor,
    List.length_replicate, ← Function.iterate_succ_apply]
  congr 1
  omega

/-- Two ones cancel when the register that the first leaves has come back to one. -/
theorem double_eq_zero_iff (hg : g.msb = true) (huv : u < v)
    (hones : ∀ i, bs[i]? = some true ↔ i = u ∨ i = v) :
    bs.foldl (absorbBit g) 0#w = 0#w ↔ (shiftLsb g)^[v - u] 1#w = 1#w := by
  have hv : v < bs.length := by
    by_contra hge
    have htrue := (hones v).mpr (Or.inr rfl)
    rw [List.getElem?_eq_none (Nat.le_of_not_lt hge)] at htrue
    cases htrue
  have hsplit : bs = difference ((List.replicate bs.length false).set u true)
      ((List.replicate bs.length false).set v true) := by
    apply List.ext_getElem
    · simp [difference]
    · intro i hi hi'
      have hiff := hones i
      rw [List.getElem?_eq_getElem hi, Option.some_inj] at hiff
      simp only [difference, List.getElem_zipWith, List.getElem_set, List.getElem_replicate]
      rw [Bool.eq_iff_iff, hiff]
      by_cases hiu : u = i
      · simp [hiu, show v ≠ i by omega]
      · by_cases hiv : v = i
        · simp [hiu, hiv]
        · simp [hiu, hiv, Ne.symm hiu, Ne.symm hiv]
  have hback : bs.length - u = bs.length - v + (v - u) := by omega
  have hsame : ((List.replicate bs.length false).set u true).length =
      ((List.replicate bs.length false).set v true).length := by simp
  have hxor := foldl_difference g 0#w 0#w hsame
  rw [BitVec.xor_self, ← hsplit, foldl_single g (huv.trans hv), foldl_single g hv, hback,
    Function.iterate_add_apply] at hxor
  rw [hxor, BitVec.xor_eq_zero_iff, ((shiftLsb_injective hg).iterate _).eq_iff]

end Errors

section Parity

open Polynomial

variable {g r : BitVec w} {p : (ZMod 2)[X]} {xs ys : List Bool}

theorem eval_one_streamPoly (bs : List Bool) : (streamPoly bs).eval 1 = (bs.count true : ZMod 2) := by
  induction bs with
  | nil => simp [streamPoly]
  | cons b bs ih =>
    rw [streamPoly, eval_add, ih]
    cases b with
    | false => simp
    | true => simp [add_comm]

/-- A generator with the root one keeps the parity of what is divided. -/
theorem Remainder.eval_one (h : Remainder g r p) (hg : (generator g).eval 1 = 0) :
    (poly r).eval 1 = p.eval 1 := by
  rw [h]
  exact eval₂_modByMonic_eq_self_of_root hg

theorem lsbBits_reverse (c : BitVec k) : lsbBits c.reverse = msbBits c := by
  apply List.map_congr_left
  intro i hi
  rw [BitVec.getLsbD_reverse]

theorem count_difference (h : xs.length = ys.length) :
    (difference xs ys).count true % 2 = (xs.count true + ys.count true) % 2 := by
  induction xs generalizing ys with
  | nil =>
    cases ys with
    | nil => rfl
    | cons y ys => cases h
  | cons x xs ih =>
    cases ys with
    | nil => cases h
    | cons y ys =>
      have hrest := ih (Nat.succ.inj h)
      rw [difference] at hrest ⊢
      cases x <;> cases y <;> simp <;> omega

end Parity

section Period

variable {α : Type*} {f : α → α} {x : α} {n : Nat}

theorem minimalPeriod_eq_of_prime (h : Function.IsPeriodicPt f n x)
    (hprime : ∀ p, p.Prime → p ∣ n → ¬ Function.IsPeriodicPt f (n / p) x) :
    Function.minimalPeriod f x = n := by
  obtain ⟨m, hm⟩ := h.minimalPeriod_dvd
  by_contra hne
  have hm1 : m ≠ 1 := by
    rintro rfl
    exact hne (by omega)
  obtain ⟨p, hp, q, rfl⟩ := Nat.exists_prime_and_dvd hm1
  apply hprime p hp ⟨Function.minimalPeriod f x * q, by rw [hm]; ring⟩
  have hdiv : n / p = Function.minimalPeriod f x * q := by
    rw [hm, Nat.mul_left_comm, Nat.mul_div_cancel_left _ hp.pos]
  rw [hdiv]
  exact (Function.isPeriodicPt_minimalPeriod f x).mul_const q

def shiftNat (g r : Nat) : Nat := if r % 2 = 1 then (r / 2) ^^^ g else r / 2

/-- The match computes the register before the next round begins. -/
def iterateNat (g : Nat) : Nat → Nat → Nat
  | 0, r => r
  | _ + 1, 0 => 0
  | n + 1, r + 1 => iterateNat g n (shiftNat g (r + 1))

theorem toNat_shiftLsb (g r : BitVec w) : (shiftLsb g r).toNat = shiftNat g.toNat r.toNat := by
  have hbit : r.getLsbD 0 = decide (r.toNat % 2 = 1) := by
    simp [BitVec.getLsbD, Nat.testBit_zero]
  rw [shiftLsb, shiftNat, hbit]
  by_cases h : r.toNat % 2 = 1
  · simp [h, Nat.shiftRight_one]
  · simp [h, Nat.shiftRight_one]

theorem toNat_iterate_shiftLsb (g r : BitVec w) (n : Nat) :
    ((shiftLsb g)^[n] r).toNat = iterateNat g.toNat n r.toNat := by
  induction n generalizing r with
  | zero => rfl
  | succ n ih =>
    cases hr : r.toNat with
    | zero =>
      have hzero : r = 0#w := BitVec.eq_of_toNat_eq hr
      rw [hzero, iterate_shiftLsb_zero]
      rfl
    | succ m => rw [Function.iterate_succ_apply, ih, toNat_shiftLsb, hr, iterateNat]

end Period

end LearnCLinux.Crc
