import LearnCLinux.Library.Crc

/-! The checksum of `CRC.c`.  Every operand narrower than `int` is promoted to 32 bits, and a
store to a variable truncates. -/

namespace LearnCLinux.SocketRaw

open Polynomial

variable {w : Nat}

section Code

/-- `if (SrcBuf[0] & (1 << i)) temp |= 1 << (w - 1 - i)` -/
def invertBit (srcBuf temp : BitVec w) (i : Nat) : BitVec w :=
  if srcBuf.setWidth 32 &&& (1#32 <<< i) ≠ 0 then
    (temp.setWidth 32 ||| (1#32 <<< (w - 1 - i))).setWidth w
  else temp

/-- The value stored in `DesBuf[0]`. -/
def invert (srcBuf : BitVec w) : BitVec w :=
  (List.range w).foldl (invertBit srcBuf) 0

def invertUint8 (srcBuf : BitVec 8) : BitVec 8 := invert srcBuf

def invertUint16 (srcBuf : BitVec 16) : BitVec 16 := invert srcBuf

def wCPoly : BitVec 16 := 0x8005

def shiftBit (wCRCin : BitVec 16) : BitVec 16 :=
  if wCRCin.setWidth 32 &&& 0x8000#32 ≠ 0 then
    ((wCRCin.setWidth 32 <<< 1) ^^^ wCPoly.setWidth 32).setWidth 16
  else (wCRCin.setWidth 32 <<< 1).setWidth 16

def addChar (wCRCin : BitVec 16) (wChar : BitVec 8) : BitVec 16 :=
  (wCRCin.setWidth 32 ^^^ ((invertUint8 wChar).setWidth 32 <<< 8)).setWidth 16

/-- The body of `while (usDataLen--)`. -/
def crcByte (wCRCin : BitVec 16) (wChar : BitVec 8) : BitVec 16 :=
  shiftBit^[8] (addChar wCRCin wChar)

/-- `none` where the loop reads past the end of the buffer. -/
def crcLoop : List (BitVec 8) → BitVec 32 → BitVec 16 → Option (BitVec 16)
  | puchMsg, usDataLen, wCRCin =>
    if usDataLen = 0 then some wCRCin
    else match puchMsg with
      | [] => none
      | wChar :: puchMsg => crcLoop puchMsg (usDataLen - 1) (crcByte wCRCin wChar)

def crc16Modbus (puchMsg : List (BitVec 8)) (usDataLen : BitVec 32) : Option (BitVec 16) :=
  (crcLoop puchMsg usDataLen 0xFFFF).map invertUint16

end Code

section Reversal

theorem and_mask_ne_zero (x : BitVec 32) {i : Nat} (hi : i < 32) :
    x &&& (1#32 <<< i) ≠ 0 ↔ x.getLsbD i = true := by
  rw [← BitVec.twoPow_eq, BitVec.and_twoPow]
  have hne : BitVec.twoPow 32 i ≠ 0#32 := by
    intro hzero
    have hbit := congrArg (fun x => x.getLsbD i) hzero
    simp [hi] at hbit
  cases x.getLsbD i <;> simp [hne]

theorem getLsbD_invertBit (srcBuf temp : BitVec w) (hw : w ≤ 32) {i : Nat} (hi : i < w) (j : Nat) :
    (invertBit srcBuf temp i).getLsbD j =
      (temp.getLsbD j || (srcBuf.getLsbD i && decide (j = w - 1 - i))) := by
  have hbit : (srcBuf.setWidth 32).getLsbD i = srcBuf.getLsbD i := by
    simp [show i < 32 by omega]
  rw [invertBit]
  simp only [and_mask_ne_zero _ (show i < 32 by omega), hbit]
  cases srcBuf.getLsbD i with
  | false => simp
  | true =>
    rw [← BitVec.twoPow_eq]
    by_cases hj : j < w
    · simp [hj, show j < 32 by omega]
    · simp [hj, BitVec.getLsbD_of_ge temp j (by omega)]
      omega

theorem getLsbD_foldl_invertBit (srcBuf : BitVec w) (hw : w ≤ 32) {n : Nat} (hn : n ≤ w)
    {j : Nat} (hj : j < w) :
    ((List.range n).foldl (invertBit srcBuf) 0).getLsbD j =
      (decide (w - 1 - j < n) && srcBuf.getLsbD (w - 1 - j)) := by
  induction n with
  | zero => simp
  | succ n ih =>
    rw [List.range_succ, List.foldl_append, List.foldl_cons, List.foldl_nil]
    rw [getLsbD_invertBit srcBuf _ hw (by omega), ih (by omega)]
    by_cases heq : j = w - 1 - n
    · have hpos : w - 1 - j = n := by omega
      simp [heq, show w - 1 - (w - 1 - n) = n by omega]
    · have hiff : w - 1 - j < n + 1 ↔ w - 1 - j < n := by omega
      simp [heq, hiff]

theorem invert_eq_reverse (srcBuf : BitVec w) (hw : w ≤ 32) : invert srcBuf = srcBuf.reverse := by
  apply BitVec.eq_of_getLsbD_eq
  intro j hj
  rw [invert, getLsbD_foldl_invertBit srcBuf hw (Nat.le_refl w) hj, BitVec.getLsbD_reverse,
    BitVec.getMsbD]
  simp [hj, show w - 1 - j < w by omega]

end Reversal

section Register

theorem setWidth_shiftLeft_setWidth (x : BitVec 16) (n : Nat) :
    (x.setWidth 32 <<< n).setWidth 16 = x <<< n := by
  rw [BitVec.setWidth_shiftLeft_of_le (by decide), BitVec.setWidth_setWidth_of_le _ (by decide),
    BitVec.setWidth_eq]

theorem shiftBit_eq : shiftBit = Crc.shift wCPoly := by
  funext wCRCin
  have hmask : wCRCin.setWidth 32 &&& 0x8000#32 ≠ 0 ↔ wCRCin.msb = true := by
    rw [show 0x8000#32 = 1#32 <<< 15 from rfl, and_mask_ne_zero _ (by decide)]
    rw [BitVec.msb_eq_getLsbD_last, BitVec.getLsbD_setWidth]
    simp
  simp only [shiftBit, Crc.shift, hmask]
  congr 1
  · rw [BitVec.setWidth_xor, setWidth_shiftLeft_setWidth]
    rfl
  · rw [setWidth_shiftLeft_setWidth]

theorem crcByte_eq (wCRCin : BitVec 16) (wChar : BitVec 8) :
    crcByte wCRCin wChar = Crc.absorb wCPoly wCRCin wChar.reverse := by
  have hadd : addChar wCRCin wChar = wCRCin ^^^ wChar.reverse.setWidth 16 <<< 8 := by
    rw [addChar, invertUint8, invert_eq_reverse _ (by decide), BitVec.setWidth_xor,
      BitVec.setWidth_setWidth_of_le _ (by decide), BitVec.setWidth_eq,
      BitVec.setWidth_shiftLeft_of_le (by decide), BitVec.setWidth_setWidth_of_le _ (by decide)]
  rw [crcByte, shiftBit_eq, hadd]
  rfl

theorem crcLoop_append (msg rest : List (BitVec 8)) {usDataLen : BitVec 32}
    (hlen : msg.length = usDataLen.toNat) (wCRCin : BitVec 16) :
    crcLoop (msg ++ rest) usDataLen wCRCin = some (msg.foldl crcByte wCRCin) := by
  induction msg generalizing usDataLen wCRCin with
  | nil =>
    have hzero : usDataLen = 0 := BitVec.eq_of_toNat_eq hlen.symm
    rw [crcLoop.eq_def]
    simp [hzero]
  | cons wChar msg ih =>
    have hne : usDataLen ≠ 0 := by
      rintro rfl
      cases hlen
    have hnext : msg.length = (usDataLen - 1).toNat := by
      rw [List.length_cons] at hlen
      bv_omega
    rw [List.cons_append, crcLoop, if_neg hne, List.foldl_cons]
    exact ih hnext (crcByte wCRCin wChar)

/-- The register at the end of the loop, before its bits are reversed. -/
def register (msg : List (BitVec 8)) : BitVec 16 :=
  (msg.map BitVec.reverse).foldl (Crc.absorb wCPoly) 0xFFFF

theorem crc16Modbus_eq (msg rest : List (BitVec 8)) {usDataLen : BitVec 32}
    (hlen : msg.length = usDataLen.toNat) :
    crc16Modbus (msg ++ rest) usDataLen = some (register msg).reverse := by
  have hfold : msg.foldl crcByte 0xFFFF = register msg := by
    rw [register, List.foldl_map]
    congr 1
    funext wCRCin wChar
    apply crcByte_eq
  rw [crc16Modbus, crcLoop_append msg rest hlen, hfold, Option.map_some, invertUint16,
    invert_eq_reverse _ (by decide)]

end Register

section Specification

noncomputable def crcPoly : (ZMod 2)[X] := X ^ 16 + X ^ 15 + X ^ 2 + 1

/-- The bits of every byte are read least significant bit first. -/
noncomputable def messagePoly (msg : List (BitVec 8)) : (ZMod 2)[X] :=
  Crc.streamPoly (msg.flatMap fun c => (List.range 8).map c.getLsbD)

/-- The algorithm that shifts the other way and needs no reversal. -/
def crc16LsbFirst (msg : List (BitVec 8)) : BitVec 16 :=
  msg.foldl (Crc.absorbLsb 0xA001) 0xFFFF

theorem generator_wCPoly : Crc.generator wCPoly = crcPoly := by
  have hbits : Crc.poly wCPoly = 1 + X ^ 2 + X ^ 15 := by
    simp [Crc.poly, Finset.sum_range_succ, wCPoly]
  rw [Crc.generator, hbits, crcPoly]
  ring

theorem poly_init : Crc.poly 0xFFFF#16 = ∑ i ∈ Finset.range 16, X ^ i := by
  apply Finset.sum_congr rfl
  intro i hi
  have hbit : (BitVec.allOnes 16).getLsbD i = true := by
    rw [BitVec.getLsbD_allOnes, decide_eq_true (Finset.mem_range.mp hi)]
  rw [show 0xFFFF#16 = BitVec.allOnes 16 from rfl, hbit]
  rfl

theorem messagePoly_eq (msg : List (BitVec 8)) :
    messagePoly msg = Crc.chunksPoly (msg.map BitVec.reverse) := by
  rw [← Crc.streamPoly_flatMap, messagePoly, List.flatMap_map]
  congr 2
  funext c
  apply List.map_congr_left
  intro i hi
  rw [BitVec.getMsbD_reverse]

theorem register_dividend (msg : List (BitVec 8)) : Crc.Remainder wCPoly (register msg)
    (messagePoly msg * X ^ 16 + (∑ i ∈ Finset.range 16, X ^ i) * X ^ (8 * msg.length)) := by
  have hrem := (Crc.Remainder.of_poly wCPoly 0xFFFF#16).foldl_absorb (msg.map BitVec.reverse)
    (by decide)
  rw [poly_init, ← messagePoly_eq, List.length_map, add_comm] at hrem
  exact hrem

theorem register_reverse (msg : List (BitVec 8)) : (register msg).reverse = crc16LsbFirst msg := by
  have hmap : (msg.map BitVec.reverse).map BitVec.reverse = msg := by
    rw [List.map_map]
    simp [Function.comp_def, BitVec.reverse_reverse_eq]
  rw [register, Crc.reverse_foldl_absorb _ _ _ (by decide), hmap]
  rfl

/-- Read backwards the result is the remainder of the division that the header names; the second
reading of the same value is the algorithm on unreversed bytes. -/
theorem crc16Modbus_remainder (msg rest : List (BitVec 8)) (usDataLen : BitVec 32)
    (hlen : msg.length = usDataLen.toNat) :
    ∃ crc, crc16Modbus (msg ++ rest) usDataLen = some crc ∧
      Crc.poly crc.reverse =
        (messagePoly msg * X ^ 16 + (∑ i ∈ Finset.range 16, X ^ i) * X ^ (8 * msg.length)) %ₘ
          (X ^ 16 + X ^ 15 + X ^ 2 + 1) ∧
      crc = crc16LsbFirst msg := by
  refine ⟨(register msg).reverse, crc16Modbus_eq msg rest hlen, ?_, register_reverse msg⟩
  have hrem := register_dividend msg
  rw [Crc.Remainder, generator_wCPoly] at hrem
  rw [BitVec.reverse_reverse_eq]
  exact hrem

theorem crc16Modbus_remainder_request :
    ∃ crc, crc16Modbus ([0x01, 0x03, 0x00, 0x6B] ++ [0xFF]) 4 = some crc ∧
      Crc.poly crc.reverse =
        (messagePoly [0x01, 0x03, 0x00, 0x6B] * X ^ 16 +
          (∑ i ∈ Finset.range 16, X ^ i) * X ^ (8 * 4)) %ₘ (X ^ 16 + X ^ 15 + X ^ 2 + 1) ∧
      crc = crc16LsbFirst [0x01, 0x03, 0x00, 0x6B] :=
  crc16Modbus_remainder [0x01, 0x03, 0x00, 0x6B] [0xFF] 4 rfl

/-- The check value of the algorithm, on the digits `123456789`. -/
example : crc16Modbus [0x31, 0x32, 0x33, 0x34, 0x35, 0x36, 0x37, 0x38, 0x39] 9 = some 0x4B37 := by
  decide +kernel

end Specification

end LearnCLinux.SocketRaw
