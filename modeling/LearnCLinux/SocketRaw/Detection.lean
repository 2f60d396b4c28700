import LearnCLinux.Library.ErrorDetection
import LearnCLinux.SocketRaw.Crc
import Mathlib.Tactic.IntervalCases
import Mathlib.Tactic.NormNum.Prime

/-! The errors that the checksum of `CRC.c` finds.  The bits of a message are numbered least
significant first within each byte, and the bytes in their order. -/

namespace LearnCLinux.SocketRaw

open Polynomial

def messageBits (msg : List (BitVec 8)) : List Bool := msg.flatMap Crc.lsbBits

section Messages

variable {msg msg' : List (BitVec 8)}

theorem length_messageBits (msg : List (BitVec 8)) : (messageBits msg).length = 8 * msg.length := by
  simp [messageBits, List.length_flatMap, Nat.mul_comm]

theorem length_messageBits_congr (hlen : msg.length = msg'.length) :
    (messageBits msg).length = (messageBits msg').length := by
  rw [length_messageBits, length_messageBits, hlen]

theorem messageBits_end (msg : List (BitVec 8)) {i : Nat} (hi : ¬ i < 8 * msg.length) :
    (messageBits msg)[i]? = none := by
  rw [List.getElem?_eq_none]
  rw [length_messageBits]
  exact Nat.le_of_not_lt hi

theorem crc16LsbFirst_eq_foldl (msg : List (BitVec 8)) :
    crc16LsbFirst msg = (messageBits msg).foldl (Crc.absorbBit 0xA001) 0xFFFF :=
  Crc.foldl_absorbLsb_eq 0xA001 0xFFFF msg (by decide)

theorem crc16Modbus_eq_lsbFirst (msg rest : List (BitVec 8)) {usDataLen : BitVec 32}
    (hlen : msg.length = usDataLen.toNat) :
    crc16Modbus (msg ++ rest) usDataLen = some (crc16LsbFirst msg) := by
  rw [crc16Modbus_eq msg rest hlen, register_reverse]

theorem messageBits_injective : Function.Injective messageBits := by
  intro msg msg' h
  induction msg generalizing msg' with
  | nil =>
    have hlen := congrArg List.length h
    rw [length_messageBits, length_messageBits, List.length_nil] at hlen
    exact (List.eq_nil_of_length_eq_zero (by omega)).symm
  | cons c msg ih =>
    cases msg' with
    | nil =>
      have hlen := congrArg List.length h
      rw [length_messageBits, length_messageBits] at hlen
      cases hlen
    | cons d msg' =>
      obtain ⟨hbyte, hrest⟩ := List.append_inj h (by simp)
      rw [ih hrest, Crc.lsbBits_injective hbyte]

/-- Two messages have one checksum if and only if their difference leaves an empty register. -/
theorem crc16LsbFirst_eq_iff (hlen : msg.length = msg'.length) :
    crc16LsbFirst msg = crc16LsbFirst msg' ↔
      (Crc.difference (messageBits msg) (messageBits msg')).foldl (Crc.absorbBit 0xA001) 0#16 =
        0#16 := by
  have hbits := length_messageBits_congr hlen
  rw [crc16LsbFirst_eq_foldl, crc16LsbFirst_eq_foldl, Crc.foldl_eq_iff_difference _ _ hbits]

theorem difference_iff (hlen : msg.length = msg'.length) (i : Nat) :
    (Crc.difference (messageBits msg) (messageBits msg'))[i]? = some true ↔
      (messageBits msg)[i]? ≠ (messageBits msg')[i]? :=
  Crc.getElem?_difference (length_messageBits_congr hlen) i

end Messages

section Appended

theorem eq_append_iff (r : BitVec 16) (a b : BitVec 8) :
    r = b ++ a ↔ a = r.setWidth 8 ∧ b = (r >>> 8).setWidth 8 := by
  constructor
  · rintro rfl
    constructor
    · apply BitVec.eq_of_getLsbD_eq
      intro i hi
      rw [BitVec.getLsbD_setWidth, BitVec.getLsbD_append]
      simp [hi]
    · apply BitVec.eq_of_getLsbD_eq
      intro i hi
      rw [BitVec.getLsbD_setWidth, BitVec.getLsbD_ushiftRight, BitVec.getLsbD_append]
      simp [hi]
  · rintro ⟨rfl, rfl⟩
    apply BitVec.eq_of_getLsbD_eq
    intro i hi
    rw [BitVec.getLsbD_append]
    by_cases hlow : i < 8
    · simp [hlow]
    · simp [hlow, show i - 8 < 8 by omega, show 8 + (i - 8) = i by omega]

/-- Of all pairs of bytes only the checksum itself, low byte first, brings the register to zero. -/
theorem crc16Modbus_appended (msg rest : List (BitVec 8)) (a b : BitVec 8) (n n' : BitVec 32)
    (hlen : msg.length = n.toNat) (hlen' : msg.length + 2 = n'.toNat) :
    ∃ crc, crc16Modbus (msg ++ a :: b :: rest) n = some crc ∧
      (crc16Modbus (msg ++ a :: b :: rest) n' = some 0 ↔
        a = crc.setWidth 8 ∧ b = (crc >>> 8).setWidth 8) := by
  refine ⟨crc16LsbFirst msg, crc16Modbus_eq_lsbFirst msg (a :: b :: rest) hlen, ?_⟩
  have hboth : msg ++ a :: b :: rest = (msg ++ [a, b]) ++ rest := by simp
  rw [hboth, crc16Modbus_eq_lsbFirst (msg ++ [a, b]) rest (by simpa using hlen'), Option.some_inj]
  have hfold : crc16LsbFirst (msg ++ [a, b]) =
      Crc.absorbLsb 0xA001 (Crc.absorbLsb 0xA001 (crc16LsbFirst msg) a) b := by
    simp [crc16LsbFirst, List.foldl_append]
  rw [hfold]
  refine (Crc.absorbLsb_absorbLsb_eq_zero (by decide) a b (by decide)).trans ?_
  rw [BitVec.setWidth_eq]
  exact eq_append_iff _ a b

theorem crc16Modbus_appended_request :
    ∃ crc, crc16Modbus ([0x01, 0x03] ++ 0x40 :: 0x21 :: [0xFF]) 2 = some crc ∧
      (crc16Modbus ([0x01, 0x03] ++ 0x40 :: 0x21 :: [0xFF]) 4 = some 0 ↔
        0x40#8 = crc.setWidth 8 ∧ 0x21#8 = (crc >>> 8).setWidth 8) :=
  crc16Modbus_appended [0x01, 0x03] [0xFF] 0x40 0x21 2 4 rfl rfl

end Appended

section Bursts

/-- No two messages that differ within sixteen consecutive positions have one checksum. -/
theorem crc16Modbus_burst (msg msg' rest rest' : List (BitVec 8)) (n : BitVec 32) (u : Nat)
    (hlen : msg.length = n.toNat) (hlen' : msg'.length = n.toNat) (hne : msg ≠ msg')
    (hwindow : ∀ i, (messageBits msg)[i]? ≠ (messageBits msg')[i]? → u ≤ i ∧ i < u + 16) :
    ∃ crc crc', crc16Modbus (msg ++ rest) n = some crc ∧
      crc16Modbus (msg' ++ rest') n = some crc' ∧ crc ≠ crc' := by
  refine ⟨crc16LsbFirst msg, crc16LsbFirst msg', crc16Modbus_eq_lsbFirst msg rest hlen,
    crc16Modbus_eq_lsbFirst msg' rest' hlen', ?_⟩
  have hsame : msg.length = msg'.length := hlen.trans hlen'.symm
  have hone : true ∈ Crc.difference (messageBits msg) (messageBits msg') := by
    by_contra hnone
    apply hne
    apply messageBits_injective
    apply List.ext_getElem?
    intro i
    by_contra hi
    exact hnone (List.mem_of_getElem? ((difference_iff hsame i).mpr hi))
  rw [Ne, crc16LsbFirst_eq_iff hsame]
  apply Crc.burst_ne_zero (by decide) hone
  intro i hi
  exact hwindow i ((difference_iff hsame i).mp hi)

/-- The window lies across the border of two bytes. -/
theorem crc16Modbus_burst_across :
    ∃ crc crc', crc16Modbus ([0x80, 0x7F] ++ []) 2 = some crc ∧
      crc16Modbus ([0x00, 0x00] ++ [0x01]) 2 = some crc' ∧ crc ≠ crc' := by
  apply crc16Modbus_burst [0x80, 0x7F] [0x00, 0x00] [] [0x01] 2 7 rfl rfl (by decide)
  intro i hi
  by_cases hlt : i < 16
  · interval_cases i <;> first | decide | exact absurd rfl hi
  · rw [messageBits_end [0x80, 0x7F] hlt, messageBits_end [0x00, 0x00] hlt] at hi
    exact absurd rfl hi

end Bursts

section Parity

theorem eval_one_crcPoly : (Crc.generator wCPoly).eval 1 = 0 := by
  rw [generator_wCPoly, crcPoly]
  simp
  decide

/-- The generator has the root one, and the start value an even number of ones. -/
theorem count_crc16LsbFirst (msg : List (BitVec 8)) :
    (Crc.lsbBits (crc16LsbFirst msg)).count true % 2 = (messageBits msg).count true % 2 := by
  have hinit : (∑ i ∈ Finset.range 16, (X : (ZMod 2)[X]) ^ i).eval 1 = 0 := by
    rw [eval_geom_sum]
    decide
  have heval := (register_dividend msg).eval_one eval_one_crcPoly
  rw [eval_add, eval_mul, eval_mul, hinit, eval_pow, eval_X, one_pow, mul_one, zero_mul, add_zero,
    ← Crc.streamPoly_msbBits, ← Crc.lsbBits_reverse, register_reverse, messagePoly,
    Crc.eval_one_streamPoly, Crc.eval_one_streamPoly] at heval
  exact (ZMod.natCast_eq_natCast_iff' _ _ 2).mp heval

theorem crc16Modbus_odd_errors (msg msg' rest rest' : List (BitVec 8)) (n : BitVec 32)
    (hlen : msg.length = n.toNat) (hlen' : msg'.length = n.toNat) :
    ∃ crc crc', crc16Modbus (msg ++ rest) n = some crc ∧
      crc16Modbus (msg' ++ rest') n = some crc' ∧
      (Crc.lsbBits crc).count true % 2 = (messageBits msg).count true % 2 ∧
      ((Crc.difference (messageBits msg) (messageBits msg')).count true % 2 = 1 → crc ≠ crc') := by
  refine ⟨crc16LsbFirst msg, crc16LsbFirst msg', crc16Modbus_eq_lsbFirst msg rest hlen,
    crc16Modbus_eq_lsbFirst msg' rest' hlen', count_crc16LsbFirst msg, ?_⟩
  intro hodd heq
  have hbits := length_messageBits_congr (hlen.trans hlen'.symm)
  have hcount := count_crc16LsbFirst msg
  rw [heq, count_crc16LsbFirst msg'] at hcount
  rw [Crc.count_difference hbits] at hodd
  omega

theorem crc16Modbus_odd_errors_request :
    ∃ crc crc', crc16Modbus ([0x01, 0x03] ++ []) 2 = some crc ∧
      crc16Modbus ([0x81, 0x00] ++ [0xFF]) 2 = some crc' ∧
      (Crc.lsbBits crc).count true % 2 = (messageBits [0x01, 0x03]).count true % 2 ∧
      ((Crc.difference (messageBits [0x01, 0x03]) (messageBits [0x81, 0x00])).count true % 2 = 1 →
        crc ≠ crc') :=
  crc16Modbus_odd_errors [0x01, 0x03] [0x81, 0x00] [] [0xFF] 2 rfl rfl

end Parity

section Doubles

theorem prime_dvd_period {p : Nat} (hp : p.Prime) (h : p ∣ 32767) : p = 7 ∨ p = 31 ∨ p = 151 := by
  have hfactors : 32767 = 7 * (31 * 151) := rfl
  rw [hfactors] at h
  rcases hp.dvd_mul.mp h with h | h
  · exact Or.inl ((Nat.prime_dvd_prime_iff_eq hp (by norm_num)).mp h)
  · rcases hp.dvd_mul.mp h with h | h
    · exact Or.inr (Or.inl ((Nat.prime_dvd_prime_iff_eq hp (by norm_num)).mp h))
    · exact Or.inr (Or.inr ((Nat.prime_dvd_prime_iff_eq hp (by norm_num)).mp h))

theorem minimalPeriod_eq (r : BitVec 16)
    (hperiod : Crc.iterateNat 0xA001 32767 r.toNat = r.toNat)
    (hproper : ∀ p ∈ [7, 31, 151], Crc.iterateNat 0xA001 (32767 / p) r.toNat ≠ r.toNat) :
    Function.minimalPeriod (Crc.shiftLsb 0xA001#16) r = 32767 := by
  have hiff : ∀ n, Function.IsPeriodicPt (Crc.shiftLsb 0xA001#16) n r ↔
      Crc.iterateNat 0xA001 n r.toNat = r.toNat := by
    intro n
    have hnat := Crc.toNat_iterate_shiftLsb 0xA001#16 r n
    exact ⟨fun h => hnat.symm.trans (congrArg BitVec.toNat h),
      fun h => BitVec.eq_of_toNat_eq (hnat.trans h)⟩
  apply Crc.minimalPeriod_eq_of_prime
  · exact (hiff 32767).mpr hperiod
  · intro p hp hdvd
    rw [hiff]
    apply hproper
    rcases prime_dvd_period hp hdvd with rfl | rfl | rfl <;> simp

theorem minimalPeriod_one : Function.minimalPeriod (Crc.shiftLsb 0xA001#16) 1#16 = 32767 :=
  minimalPeriod_eq 1#16 (by decide +kernel) (by decide +kernel)

/-- Two flipped bits are missed exactly at distances that are multiples of the period. -/
theorem crc16Modbus_double (msg msg' rest rest' : List (BitVec 8)) (n : BitVec 32) (u v : Nat)
    (hlen : msg.length = n.toNat) (hlen' : msg'.length = n.toNat) (huv : u < v)
    (hbits : ∀ i, (messageBits msg)[i]? ≠ (messageBits msg')[i]? ↔ i = u ∨ i = v) :
    ∃ crc crc', crc16Modbus (msg ++ rest) n = some crc ∧
      crc16Modbus (msg' ++ rest') n = some crc' ∧ (crc = crc' ↔ 32767 ∣ v - u) := by
  refine ⟨crc16LsbFirst msg, crc16LsbFirst msg', crc16Modbus_eq_lsbFirst msg rest hlen,
    crc16Modbus_eq_lsbFirst msg' rest' hlen', ?_⟩
  have hsame : msg.length = msg'.length := hlen.trans hlen'.symm
  have hones : ∀ i, (Crc.difference (messageBits msg) (messageBits msg'))[i]? = some true ↔
      i = u ∨ i = v := by
    intro i
    rw [difference_iff hsame, hbits]
  rw [crc16LsbFirst_eq_iff hsame, Crc.double_eq_zero_iff (by decide) huv hones, ← minimalPeriod_one]
  exact Function.isPeriodicPt_iff_minimalPeriod_dvd

theorem crc16Modbus_double_near :
    ∃ crc crc', crc16Modbus ([0x01, 0x00] ++ []) 2 = some crc ∧
      crc16Modbus ([0x00, 0x80] ++ [0xFF]) 2 = some crc' ∧ (crc = crc' ↔ 32767 ∣ 15 - 0) := by
  apply crc16Modbus_double [0x01, 0x00] [0x00, 0x80] [] [0xFF] 2 0 15 rfl rfl (by decide)
  intro i
  by_cases hlt : i < 16
  · interval_cases i <;> decide
  · rw [messageBits_end [0x01, 0x00] hlt, messageBits_end [0x00, 0x80] hlt]
    constructor
    · intro hne
      exact absurd rfl hne
    · omega

end Doubles

end LearnCLinux.SocketRaw
