import LearnCLinux.Library.Collisions
import LearnCLinux.SocketRaw.Detection
import Mathlib.Data.Fintype.BigOperators
import Mathlib.Data.Set.Card

/-! Which messages the checksum of `CRC.c` confuses, and how many. -/

namespace LearnCLinux.SocketRaw

open Polynomial

section Difference

/-- Whatever the errors are: they go unnoticed if and only if the generator divides them. -/
theorem crc16Modbus_confuses_iff (msg msg' rest rest' : List (BitVec 8)) (n : BitVec 32)
    (hlen : msg.length = n.toNat) (hlen' : msg'.length = n.toNat) :
    crc16Modbus (msg ++ rest) n = crc16Modbus (msg' ++ rest') n ↔
      (X ^ 16 + X ^ 15 + X ^ 2 + 1 : (ZMod 2)[X]) ∣ messagePoly msg - messagePoly msg' := by
  have hinverse : (register msg).reverse = (register msg').reverse ↔
      register msg = register msg' := by
    refine ⟨fun h => ?_, congrArg _⟩
    rw [← BitVec.reverse_reverse_eq (x := register msg), h, BitVec.reverse_reverse_eq]
  have hdifference : messagePoly msg * X ^ 16 +
      (∑ i ∈ Finset.range 16, X ^ i) * X ^ (8 * msg.length) - (messagePoly msg' * X ^ 16 +
        (∑ i ∈ Finset.range 16, X ^ i) * X ^ (8 * msg'.length)) =
      (messagePoly msg - messagePoly msg') * X ^ 16 := by
    rw [hlen, hlen']
    ring
  have hcoprime : IsCoprime crcPoly (X ^ 16) := by
    rw [← generator_wCPoly]
    exact Crc.generator_isCoprime (by decide) 16
  rw [crc16Modbus_eq msg rest hlen, crc16Modbus_eq msg' rest' hlen', Option.some_inj, hinverse,
    (register_dividend msg).eq_iff (register_dividend msg'), hdifference, generator_wCPoly]
  exact ⟨hcoprime.dvd_of_dvd_mul_right, fun h => h.mul_right (X ^ 16)⟩

theorem crc16Modbus_confuses_iff_request :
    crc16Modbus ([0x01, 0x03] ++ []) 2 = crc16Modbus ([0x81, 0x00] ++ [0xFF]) 2 ↔
      (X ^ 16 + X ^ 15 + X ^ 2 + 1 : (ZMod 2)[X]) ∣
        messagePoly [0x01, 0x03] - messagePoly [0x81, 0x00] :=
  crc16Modbus_confuses_iff [0x01, 0x03] [0x81, 0x00] [] [0xFF] 2 rfl rfl

end Difference

section Bytes

theorem feedback_msb : BitVec.msb 0xA001#16 = true := rfl

theorem existsUnique_pair (before after : List (BitVec 8)) (crc : BitVec 16) :
    ∃! p : BitVec 8 × BitVec 8, crc16LsbFirst (before ++ p.1 :: p.2 :: after) = crc := by
  simp only [crc16LsbFirst, List.foldl_append, List.foldl_cons]
  exact Crc.existsUnique_pair feedback_msb rfl _ crc after

/-- Two neighbouring bytes, wherever they stand, are enough to give a message any checksum, and one
pair of values alone does it. -/
theorem crc16Modbus_existsUnique_pair (before after rest : List (BitVec 8)) (n : BitVec 32)
    (crc : BitVec 16) (hlen : before.length + 2 + after.length = n.toNat) :
    ∃! p : BitVec 8 × BitVec 8,
      crc16Modbus (before ++ p.1 :: p.2 :: after ++ rest) n = some crc := by
  have hcrc : ∀ p : BitVec 8 × BitVec 8,
      crc16Modbus (before ++ p.1 :: p.2 :: after ++ rest) n = some crc ↔
        crc16LsbFirst (before ++ p.1 :: p.2 :: after) = crc := by
    intro p
    have hlength : (before ++ p.1 :: p.2 :: after).length = n.toNat := by
      rw [List.length_append, List.length_cons, List.length_cons]
      omega
    rw [crc16Modbus_eq_lsbFirst _ rest hlength, Option.some_inj]
  simp only [hcrc]
  exact existsUnique_pair before after crc

theorem crc16Modbus_existsUnique_pair_middle : ∃! p : BitVec 8 × BitVec 8,
    crc16Modbus ([0x01] ++ p.1 :: p.2 :: [0x6B] ++ [0xFF]) 4 = some 0x1234 :=
  crc16Modbus_existsUnique_pair [0x01] [0x6B] [0xFF] 4 0x1234 rfl

theorem card_lists (n : Nat) : {msg : List (BitVec 8) | msg.length = n}.ncard = 256 ^ n := by
  rw [← Nat.card_coe_set_eq]
  change Nat.card (List.Vector (BitVec 8) n) = _
  rw [Nat.card_eq_fintype_card, card_vector, ← Nat.card_eq_fintype_card, Crc.card_bitVec]
  rfl

/-- Of the messages of a length exactly one in 65536 has a given checksum. -/
theorem crc16Modbus_ncard (n : BitVec 32) (crc : BitVec 16) (hn : 2 ≤ n.toNat) :
    {msg : List (BitVec 8) | msg.length = n.toNat ∧ crc16Modbus msg n = some crc}.ncard =
      256 ^ (n.toNat - 2) := by
  have hcrc : ∀ msg : List (BitVec 8), msg.length = n.toNat →
      (crc16Modbus msg n = some crc ↔ crc16LsbFirst msg = crc) := by
    intro msg hlen
    have hmsg := crc16Modbus_eq_lsbFirst msg [] hlen
    rw [List.append_nil] at hmsg
    rw [hmsg, Option.some_inj]
  have hfront : ∀ msg : List (BitVec 8), msg.length = n.toNat →
      ∃ a b, msg = a :: b :: msg.drop 2 := by
    intro msg hlen
    match msg, hlen with
    | a :: b :: msg, _ => exact ⟨a, b, rfl⟩
    | [_], hlen | [], hlen => simp at hlen; omega
  -- The first two bytes are determined by the others.
  rw [← card_lists]
  apply Set.ncard_congr fun msg _ => msg.drop 2
  · rintro msg ⟨hlen, -⟩
    rw [Set.mem_ofPred_eq, List.length_drop, hlen]
  · rintro msg msg' ⟨hlen, hmsg⟩ ⟨hlen', hmsg'⟩ hdrop
    obtain ⟨a, b, heq⟩ := hfront msg hlen
    obtain ⟨a', b', heq'⟩ := hfront msg' hlen'
    rw [hcrc msg hlen, heq] at hmsg
    rw [hcrc msg' hlen', heq', ← hdrop] at hmsg'
    have hsame : (a, b) = (a', b') := (existsUnique_pair [] (msg.drop 2) crc).unique hmsg hmsg'
    cases hsame
    rw [heq, heq', hdrop]
  · intro after hlen
    obtain ⟨⟨a, b⟩, hab, -⟩ := existsUnique_pair [] after crc
    have hlength : (a :: b :: after).length = n.toNat := by
      rw [List.length_cons, List.length_cons, hlen]
      omega
    exact ⟨a :: b :: after, ⟨hlength, (hcrc _ hlength).mpr hab⟩, rfl⟩

theorem crc16Modbus_ncard_three :
    {msg : List (BitVec 8) | msg.length = 3 ∧ crc16Modbus msg 3 = some 0}.ncard = 256 :=
  crc16Modbus_ncard 3 0 (by decide)

end Bytes

section Zeros

theorem minimalPeriod_init : Function.minimalPeriod (Crc.shiftLsb 0xA001#16) 0xFFFF#16 = 32767 :=
  minimalPeriod_eq 0xFFFF#16 (by decide +kernel) (by decide +kernel)

/-- Zero bytes in front of a message change its checksum, unless their number is a multiple of
32767. -/
theorem crc16Modbus_leading_zeros (msg rest : List (BitVec 8)) (k : Nat) (n n' : BitVec 32)
    (hlen : msg.length = n.toNat) (hlen' : k + msg.length = n'.toNat) :
    crc16Modbus (List.replicate k 0 ++ msg ++ rest) n' = crc16Modbus (msg ++ rest) n ↔
      32767 ∣ k := by
  have hlength : (List.replicate k (0 : BitVec 8) ++ msg).length = n'.toNat := by
    rwa [List.length_append, List.length_replicate]
  rw [crc16Modbus_eq_lsbFirst _ rest hlength, crc16Modbus_eq_lsbFirst msg rest hlen,
    Option.some_inj]
  refine (Crc.foldl_leading_zeros (r := 0xFFFF#16) feedback_msb k msg).trans ?_
  have hcoprime : Nat.Coprime 32767 8 := rfl
  rw [minimalPeriod_init]
  exact hcoprime.dvd_mul_left

theorem crc16Modbus_leading_zeros_three :
    crc16Modbus (List.replicate 3 0 ++ [0x01, 0x03] ++ [0xFF]) 5 =
      crc16Modbus ([0x01, 0x03] ++ [0xFF]) 2 ↔ 32767 ∣ 3 :=
  crc16Modbus_leading_zeros [0x01, 0x03] [0xFF] 3 2 5 rfl rfl

end Zeros

end LearnCLinux.SocketRaw
