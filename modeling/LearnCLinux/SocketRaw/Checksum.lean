import LearnCLinux.SocketRaw.Request
import LearnCLinux.Library.OnesComplement

/-! The checksum of a request as its receiver sees it.  `icmp_pack` stores a CRC where an ICMP
message has a one's complement sum.  Both are taken over the same words. -/

namespace LearnCLinux.SocketRaw.Ping

section Words

/-- The words of a message, the first byte of each being its high byte. -/
def words : List (BitVec 8) → List (BitVec 16)
  | b :: c :: bytes => (b ++ c) :: words bytes
  | _ => []

def ValidChecksum (bytes : List (BitVec 8)) : Prop :=
  OnesComplement.sum (words bytes) = 0xFFFF#16

instance (bytes : List (BitVec 8)) : Decidable (ValidChecksum bytes) :=
  inferInstanceAs (Decidable (_ = _))

def dataWords (m : Nat) : List (BitVec 16) :=
  (List.range m).map fun i => BitVec.ofNat 8 (2 * i + 1) ++ BitVec.ofNat 8 (2 * i)

/-- The words of a request with `m` words of data, as the host loads them. -/
def requestWords (m : Nat) (icmpCksum icmpId icmpSeq : BitVec 16) : List (BitVec 16) :=
  [8#16, icmpCksum, icmpId, icmpSeq] ++ dataWords m

theorem u16_of_append (b c : BitVec 8) : u16 (b ++ c) = [c, b] := by
  have hlow : (b ++ c).setWidth 8 = c := BitVec.setWidth_append_eq_right
  have hhigh : ((b ++ c) >>> 8).setWidth 8 = b := by
    apply BitVec.eq_of_getLsbD_eq
    intro i hi
    rw [BitVec.getLsbD_setWidth, BitVec.getLsbD_ushiftRight, BitVec.getLsbD_append]
    simp [hi]
  rw [u16, hlow, hhigh]

theorem icmpData_eq (m : Nat) : icmpData (2 * m) = (dataWords m).flatMap u16 := by
  induction m with
  | zero => rfl
  | succ m ih =>
    calc
      icmpData (2 * (m + 1)) =
          icmpData (2 * m) ++ [BitVec.ofNat 8 (2 * m), BitVec.ofNat 8 (2 * m + 1)] := by
        simp [icmpData, Nat.mul_succ, List.range_succ]
      _ = (dataWords (m + 1)).flatMap u16 := by
        simp [ih, dataWords, List.range_succ, u16_of_append]

theorem take_message (buf : List (BitVec 8)) (pid seq length : BitVec 32) (icmpCksum : BitVec 16)
    {m : Nat} (hlength : length.toNat = 8 + 2 * m) :
    (message buf pid seq length icmpCksum).take (8 + 2 * m) =
      (requestWords m icmpCksum (pid.setWidth 16) (seq.setWidth 16)).flatMap u16 := by
  have hdata : (icmpData length.toNat).take (2 * m) = icmpData (2 * m) := by
    rw [icmpData, ← List.map_take, List.take_range, hlength, Nat.min_eq_left (by omega), icmpData]
  have hlong : 2 * m ≤ (icmpData length.toNat).length := by
    simp [icmpData, hlength]
  have hheader : 8 + 2 * m =
      (icmpHeader icmpCksum (pid.setWidth 16) (seq.setWidth 16)).length + 2 * m := rfl
  rw [message, List.append_assoc, hheader, List.take_length_add_append,
    List.take_append_of_le_length hlong, hdata, icmpData_eq, requestWords, List.flatMap_append]
  rfl

theorem words_flatMap (ws : List (BitVec 16)) :
    words (ws.flatMap u16) =
      ws.map fun v : BitVec 16 => v.setWidth 8 ++ ((v >>> 8).setWidth 8 : BitVec 8) := by
  induction ws with
  | nil => rfl
  | cons v ws ih => exact congrArg _ ih

/-- The checksum covers a word that is not 0. -/
theorem validChecksum_iff (ws : List (BitVec 16)) :
    ValidChecksum ((8#16 :: ws).flatMap u16) ↔ 65535 ∣ 8 + (ws.map BitVec.toNat).sum := by
  have hswap := OnesComplement.dvd_sum_swap ((8#16 :: ws).map fun v : BitVec 16 =>
    ((v.setWidth 8 : BitVec 8), ((v >>> 8).setWidth 8 : BitVec 8)))
  simp only [List.map_map, Function.comp_def, u16_append] at hswap
  rw [ValidChecksum, words_flatMap]
  refine (OnesComplement.sum_eq_allOnes_iff (by decide) ?_).trans ?_
  · simp
  · rw [List.map_map]
    exact hswap

end Words

section Crc

/-- The CRC of a request whose identifier and sequence number are 0. -/
def blankCrc (m : Nat) : BitVec 16 :=
  (requestWords m 0#16 0#16 0#16).foldl (Crc.absorbLsb 0xA001#16) 0xFFFF#16

/-- The identifier and the sequence number enter the CRC shifted by the bits behind them. -/
def requestCrc (m : Nat) (icmpId icmpSeq : BitVec 16) : BitVec 16 :=
  blankCrc m ^^^ (Crc.shiftLsb 0xA001#16)^[16 * (m + 1)] icmpSeq ^^^
    (Crc.shiftLsb 0xA001#16)^[16 * (m + 2)] icmpId

theorem foldl_u16 (r v : BitVec 16) : (u16 v).foldl (Crc.absorbLsb 0xA001#16) r =
    Crc.absorbLsb 0xA001#16 r v := by
  rw [u16, List.foldl_cons, List.foldl_cons, List.foldl_nil,
    Crc.absorbLsb_append _ _ _ _ (by decide), u16_append]

theorem crc16LsbFirst_flatMap (ws : List (BitVec 16)) :
    crc16LsbFirst (ws.flatMap u16) = ws.foldl (Crc.absorbLsb 0xA001#16) 0xFFFF#16 := by
  have hwords : ∀ r : BitVec 16, (ws.flatMap u16).foldl (Crc.absorbLsb 0xA001#16) r =
      ws.foldl (Crc.absorbLsb 0xA001#16) r := by
    induction ws with
    | nil => exact fun _ => rfl
    | cons v ws ih =>
      intro r
      rw [List.flatMap_cons, List.foldl_append, ih, List.foldl_cons, foldl_u16]
  exact hwords _

theorem length_dataWords (m : Nat) : (dataWords m).length = m := by
  simp [dataWords]

theorem foldl_fields (r icmpId icmpSeq : BitVec 16) (m : Nat) :
    (icmpId :: icmpSeq :: dataWords m).foldl (Crc.absorbLsb 0xA001#16) r =
      (0#16 :: 0#16 :: dataWords m).foldl (Crc.absorbLsb 0xA001#16) r ^^^
        (Crc.shiftLsb 0xA001#16)^[16 * (m + 1)] icmpSeq ^^^
          (Crc.shiftLsb 0xA001#16)^[16 * (m + 2)] icmpId := by
  rw [Crc.foldl_absorbLsb_cons, List.length_cons, List.foldl_cons, Crc.foldl_absorbLsb_cons,
    length_dataWords, ← List.foldl_cons]

theorem crc_requestWords (m : Nat) (icmpId icmpSeq : BitVec 16) :
    (requestWords m 0#16 icmpId icmpSeq).foldl (Crc.absorbLsb 0xA001#16) 0xFFFF#16 =
      requestCrc m icmpId icmpSeq := by
  simp only [requestCrc, blankCrc, requestWords, List.cons_append, List.nil_append]
  rw [List.foldl_cons, List.foldl_cons, foldl_fields]
  simp only [List.foldl_cons]

theorem crc16Modbus_message (buf : List (BitVec 8)) (pid seq length : BitVec 32) {m : Nat}
    (hlength : length.toNat = 8 + 2 * m) :
    crc16Modbus (message buf pid seq length 0) length =
      some (requestCrc m (pid.setWidth 16) (seq.setWidth 16)) := by
  have hbytes : ∀ ws : List (BitVec 16), (ws.flatMap u16).length = 2 * ws.length := by
    intro ws
    induction ws with
    | nil => rfl
    | cons v ws ih =>
      rw [List.flatMap_cons, List.length_append, ih, List.length_cons, Nat.mul_succ, Nat.add_comm]
      rfl
  rw [← List.take_append_drop (8 + 2 * m) (message buf pid seq length 0),
    take_message _ _ _ _ _ hlength, crc16Modbus_eq, register_reverse, crc16LsbFirst_flatMap]
  · exact congrArg some (crc_requestWords m _ _)
  · rw [hbytes, hlength, requestWords, List.length_append, length_dataWords]
    simp only [List.length_cons, List.length_nil]
    omega

end Crc

section Sum

theorem sum_dataWords {m : Nat} (hm : m ≤ 28) :
    ((dataWords m).map BitVec.toNat).sum + m = 257 * m * m := by
  induction m with
  | zero => rfl
  | succ m ih =>
    have hword : (BitVec.ofNat 8 (2 * m + 1) ++ BitVec.ofNat 8 (2 * m)).toNat = 514 * m + 256 := by
      rw [OnesComplement.toNat_append, BitVec.toNat_ofNat, BitVec.toNat_ofNat]
      omega
    have hsplit : dataWords (m + 1) =
        dataWords m ++ [BitVec.ofNat 8 (2 * m + 1) ++ BitVec.ofNat 8 (2 * m)] := by
      simp [dataWords, List.range_succ]
    rw [hsplit, List.map_append, List.sum_append, List.map_cons, List.map_nil, List.sum_singleton, hword]
    have := ih (by omega)
    ring_nf at this ⊢
    omega

end Sum

/-- The sum of the words of a request, the checksum included, is a multiple of 65535. -/
def Balanced (m : Nat) (icmpId icmpSeq : BitVec 16) : Prop :=
  65535 ∣ 8 + (requestCrc m icmpId icmpSeq).toNat + icmpId.toNat + icmpSeq.toNat +
    (257 * m * m - m)

instance (m : Nat) (icmpId icmpSeq : BitVec 16) : Decidable (Balanced m icmpId icmpSeq) :=
  inferInstanceAs (Decidable (_ ∣ _))

theorem request_checksum_valid_iff (pid seq length : BitVec 32) (buf : List (BitVec 8)) (m : Nat)
    (hbuf : buf.length = buffsize) (hlength : length.toNat = 8 + 2 * m) (hm : m ≤ 28) :
    (∃ request, icmpPack pid buf seq length = some request ∧
        ValidChecksum (request.take length.toNat)) ↔
      Balanced m (pid.setWidth 16) (seq.setWidth 16) := by
  have hroom : 8 + length.toNat ≤ buf.length := by
    rw [hbuf, buffsize]
    omega
  have hbalanced : 65535 ∣ 8 + (([requestCrc m (pid.setWidth 16) (seq.setWidth 16),
      pid.setWidth 16, seq.setWidth 16] ++ dataWords m).map BitVec.toNat).sum ↔
        Balanced m (pid.setWidth 16) (seq.setWidth 16) := by
    have hdata := sum_dataWords hm
    rw [Balanced, List.map_append, List.sum_append, show 257 * m * m - m =
      ((dataWords m).map BitVec.toNat).sum by omega]
    simp only [List.map_cons, List.map_nil, List.sum_cons, List.sum_nil, Nat.add_assoc,
      Nat.zero_add]
  rw [icmpPack_eq pid seq length hroom, crc16Modbus_message buf pid seq length hlength,
    Option.map_some]
  constructor
  · rintro ⟨request, heq, hvalid⟩
    cases heq
    rw [hlength, take_message _ _ _ _ _ hlength] at hvalid
    exact hbalanced.mp ((validChecksum_iff _).mp hvalid)
  · intro hvalid
    refine ⟨_, rfl, ?_⟩
    rw [hlength, take_message _ _ _ _ _ hlength]
    exact (validChecksum_iff _).mpr (hbalanced.mpr hvalid)

/-- Request 2 of the user 24. -/
theorem request_checksum_valid_of_user :
    ∃ request, icmpPack 24 (List.replicate buffsize 0) 2 64 = some request ∧
      ValidChecksum (request.take (64 : BitVec 32).toNat) :=
  (request_checksum_valid_iff 24 2 64 _ 28 List.length_replicate (by decide) (by decide)).mpr
    (by decide +kernel)

/-- The first request of the user 1000, of 64 bytes as every request that is sent. -/
theorem request_checksum_invalid :
    ∃ request, icmpPack 1000 (List.replicate buffsize 0) 0 64 = some request ∧
      ¬ValidChecksum (request.take 64) := by
  obtain ⟨request, hpack, hinvalid⟩ : ∃ request,
      icmpPack 1000 (List.replicate buffsize 0) 0 64 = some request ∧
        decide (¬ValidChecksum (request.take 64)) = true :=
    (Option.any_eq_true _ _).mp (by decide +kernel)
  exact ⟨request, hpack, of_decide_eq_true hinvalid⟩

end LearnCLinux.SocketRaw.Ping
