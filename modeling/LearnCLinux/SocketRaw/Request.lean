import LearnCLinux.SocketRaw.Replies

/-! What `icmp_pack` builds, and which replies `icmp_unpack` takes for answers to it. -/

namespace LearnCLinux.SocketRaw.Ping

section Layout

def u16 (v : BitVec 16) : List (BitVec 8) := [v.setWidth 8, (v >>> 8).setWidth 8]

def icmpHeader (icmpCksum icmpId icmpSeq : BitVec 16) : List (BitVec 8) :=
  [icmpEcho, 0] ++ u16 icmpCksum ++ u16 icmpId ++ u16 icmpSeq

def icmpData (length : Nat) : List (BitVec 8) := (List.range length).map (BitVec.ofNat 8)

def message (buf : List (BitVec 8)) (pid seq length : BitVec 32) (icmpCksum : BitVec 16) :
    List (BitVec 8) :=
  icmpHeader icmpCksum (pid.setWidth 16) (seq.setWidth 16) ++ icmpData length.toNat ++
    buf.drop (8 + length.toNat)

theorem foldl_set {α : Type} (f : Nat → α) (l m : List α) {n : Nat} (hn : n ≤ m.length) :
    (List.range n).foldl (fun b i => b.set (l.length + i) (f i)) (l ++ m) =
      l ++ (List.range n).map f ++ m.drop n := by
  induction n with
  | zero => simp
  | succ n ih =>
    have hdrop : m.drop n = m[n] :: m.drop (n + 1) := List.drop_eq_getElem_cons hn
    have hlength : (l ++ (List.range n).map f).length = l.length + n := by simp
    rw [List.range_succ, List.foldl_append, ih (Nat.le_of_succ_le hn), List.foldl_cons,
      List.foldl_nil, hdrop, ← hlength, List.set_append_right _ _ (Nat.le_refl _), Nat.sub_self,
      List.set_cons_zero, List.map_append]
    simp

theorem exists_header {buf : List (BitVec 8)} (hbuf : 8 ≤ buf.length) :
    ∃ b₀ b₁ b₂ b₃ b₄ b₅ b₆ b₇ rest, buf = b₀ :: b₁ :: b₂ :: b₃ :: b₄ :: b₅ :: b₆ :: b₇ :: rest :=
  match buf, hbuf with
  | _ :: _ :: _ :: _ :: _ :: _ :: _ :: _ :: _, _ => ⟨_, _, _, _, _, _, _, _, _, rfl⟩

theorem icmpPack_eq (pid seq length : BitVec 32) {buf : List (BitVec 8)}
    (hbuf : 8 + length.toNat ≤ buf.length) :
    icmpPack pid buf seq length =
      (crc16Modbus (message buf pid seq length 0) length).map (message buf pid seq length) := by
  obtain ⟨b₀, b₁, b₂, b₃, b₄, b₅, b₆, b₇, rest, rfl⟩ :=
    exists_header (Nat.le_of_add_right_le hbuf)
  have hid : (pid &&& 0xffff).setWidth 16 = pid.setWidth 16 := by
    rw [BitVec.setWidth_and]
    exact BitVec.and_allOnes
  have hrest : length.toNat ≤ rest.length := by
    simp only [List.length_cons] at hbuf
    omega
  have hloop : (List.range length.toNat).foldl (fun b i => b.set (8 + i) (BitVec.ofNat 8 i))
      (icmpHeader 0 (pid.setWidth 16) (seq.setWidth 16) ++ rest) =
        icmpHeader 0 (pid.setWidth 16) (seq.setWidth 16) ++ icmpData length.toNat ++
          rest.drop length.toNat :=
    foldl_set (BitVec.ofNat 8) (icmpHeader 0 (pid.setWidth 16) (seq.setWidth 16)) rest hrest
  have hmessage : ∀ icmpCksum,
      message (b₀ :: b₁ :: b₂ :: b₃ :: b₄ :: b₅ :: b₆ :: b₇ :: rest) pid seq length icmpCksum =
        icmpHeader icmpCksum (pid.setWidth 16) (seq.setWidth 16) ++ icmpData length.toNat ++
          rest.drop length.toNat := by
    intro icmpCksum
    rw [message, ← List.drop_drop]
    rfl
  rw [icmpPack, hid, hmessage, ← hloop]
  apply congrArg (Option.map · _)
  funext icmpCksum
  rw [hmessage]
  exact congrArg (fun icmph => setU16 icmph 2 icmpCksum) hloop

theorem u16_append (v : BitVec 16) :
    (((v >>> 8).setWidth 8 : BitVec 8) ++ (v.setWidth 8 : BitVec 8) : BitVec 16) = v := by
  apply BitVec.eq_of_getLsbD_eq
  intro i hi
  rw [BitVec.getLsbD_append]
  by_cases hlow : i < 8
  · simp [hlow]
  · simp [hlow, show 8 + (i - 8) = i by omega, show i - 8 < 8 by omega]

section Fields

variable {pid seq length : BitVec 32} {buf request : List (BitVec 8)}

theorem icmpPack_fields (hbuf : 8 + length.toNat ≤ buf.length)
    (hpack : icmpPack pid buf seq length = some request) :
    getU16 request 4 = pid.setWidth 16 ∧ getU16 request 6 = seq.setWidth 16 := by
  rw [icmpPack_eq pid seq length hbuf] at hpack
  obtain ⟨icmpCksum, -, rfl⟩ := Option.map_eq_some_iff.mp hpack
  exact ⟨u16_append _, u16_append _⟩

end Fields

end Layout

section Identity

/-- The sequence number that `icmp_unpack` calls `icmp_findpacket` with. -/
def lookedUp (s : State) (len : Int) : Option (BitVec 32) :=
  if isEchoReply s len then some ((icmpSeq s).setWidth 32) else none

theorem map_fst_icmpUnpack (s : State) (len : Int) (tvRecv : Timeval) :
    (icmpUnpack s len tvRecv).map Prod.fst =
      (lookedUp s len).bind (icmpFindpacket s.pingpacket) := by
  rw [icmpUnpack, lookedUp]
  split
  · rw [Option.bind_some]
    cases hfound : icmpFindpacket s.pingpacket ((icmpSeq s).setWidth 32) with
    | none => rfl
    | some i =>
      obtain ⟨packet, hpacket, -⟩ := icmpFindpacket_some hfound
      simp [hpacket]
  · rfl

/-- A datagram of `n` bytes is an echo reply with the identifier and the sequence number of
`request`. -/
structure Answers (request : List (BitVec 8)) (s : State) (n : Nat) : Prop where
  length : iphdrlen s + 8 ≤ n
  icmpType : s.recvBuff.getD (iphdrlen s) 0 = icmpEchoreply
  icmpId : getU16 s.recvBuff (iphdrlen s + 4) = getU16 request 4
  icmpSeq : icmpSeq s = getU16 request 6

theorem setWidth_setWidth_eq_iff (pid : BitVec 32) :
    (pid.setWidth 16).setWidth 32 = pid ↔ pid.toNat < 65536 := by
  rw [← BitVec.toNat_inj]
  simp only [BitVec.toNat_setWidth]
  omega

theorem setWidth_eq_signExtend_iff (seq : BitVec 16) :
    seq.setWidth 32 = seq.signExtend 32 ↔ 0 ≤ seq.toInt := by
  have hwide : (seq.setWidth 32).toInt = seq.toNat := by
    rw [BitVec.toInt_eq_toNat_of_lt] <;> simp only [BitVec.toNat_setWidth] <;> omega
  rw [← BitVec.toInt_inj, hwide, BitVec.toInt_signExtend_of_le (by decide),
    BitVec.toInt_eq_toNat_cond]
  split <;> omega

theorem setWidth_signExtend (seq : BitVec 16) : (seq.signExtend 32).setWidth 16 = seq := by
  apply BitVec.eq_of_getLsbD_eq
  intro i hi
  rw [BitVec.getLsbD_setWidth, BitVec.getLsbD_signExtend]
  simp [hi, show i < 32 by omega]

/-- `icmp_send` has stored the number of the request in the entry `i`; the number that its answer
is looked up by is the same if the identifier and the number fit the fields. -/
theorem looked_up_iff {s t : State} {now : Timeval} {length : BitVec 32} {i n : Nat}
    {packet : PingmPacket} {request : List (BitVec 8)}
    (hbuf : 8 + length.toNat ≤ s.sendBuff.length)
    (hfound : icmpFindpacket s.pingpacket (-1) = some i)
    (hstored : (record s now).pingpacket[i]? = some packet)
    (hpack : icmpPack s.pid s.sendBuff (s.packetSend.signExtend 32) length = some request)
    (hpid : t.pid = s.pid) (hanswers : Answers request t n) :
    lookedUp t n = some (packet.seq.signExtend 32) ↔
      s.pid.toNat < 65536 ∧ 0 ≤ s.packetSend.toInt := by
  obtain ⟨hid, hseq⟩ := icmpPack_fields hbuf hpack
  rw [setWidth_signExtend] at hseq
  have hpacket : packet.seq = s.packetSend := by
    rw [record, hfound, List.getElem?_modify_eq] at hstored
    obtain ⟨q, -, rfl⟩ := Option.map_eq_some_iff.mp hstored
    rfl
  have hreply : isEchoReply t n = true ↔ s.pid.toNat < 65536 := by
    have hlength : (8 : Int) ≤ n - iphdrlen t := by
      have := hanswers.length
      omega
    rw [isEchoReply, decide_eq_true hlength, decide_eq_true hanswers.icmpType, hanswers.icmpId,
      hid, hpid]
    simp only [Bool.true_and, decide_eq_true_eq, setWidth_setWidth_eq_iff]
  rw [lookedUp, hanswers.icmpSeq, hseq, hpacket]
  by_cases hnarrow : s.pid.toNat < 65536
  · rw [if_pos (hreply.mpr hnarrow), Option.some_inj, setWidth_eq_signExtend_iff,
      and_iff_right hnarrow]
  · rw [if_neg (mt hreply.mp hnarrow)]
    simp [hnarrow]

def State.holding (s : State) (d : Datagram) : State :=
  { s with recvBuff := d.bytes ++ s.recvBuff.drop d.bytes.length }

instance (request : List (BitVec 8)) (s : State) (n : Nat) : Decidable (Answers request s n) :=
  decidable_of_iff (iphdrlen s + 8 ≤ n ∧ s.recvBuff.getD (iphdrlen s) 0 = icmpEchoreply ∧
      getU16 s.recvBuff (iphdrlen s + 4) = getU16 request 4 ∧ icmpSeq s = getU16 request 6)
    ⟨fun h => ⟨h.1, h.2.1, h.2.2.1, h.2.2.2⟩, fun h => ⟨h.1, h.2, h.3, h.4⟩⟩

theorem looked_up_loopback :
    lookedUp ((start loopback).holding (echoReply 1000 0)) 28 = some 0 ↔
      (1000 : BitVec 32).toNat < 65536 ∧ 0 ≤ (0 : BitVec 16).toInt := by
  obtain ⟨request, hpack, hcond⟩ : ∃ request,
      icmpPack 1000 (start loopback).sendBuff ((0 : BitVec 16).signExtend 32) 64 = some request ∧
        decide (Answers request ((start loopback).holding (echoReply 1000 0)) 28) = true :=
    (Option.any_eq_true _ _).mp (by decide +kernel)
  exact @looked_up_iff (start loopback) _ ⟨0, 0⟩ 64 0 28 { zeroPacket with flag := 1 } request
    (by decide) (by decide +kernel) (by decide +kernel) hpack rfl (of_decide_eq_true hcond)

/-- The user 66536 sends the identifier 1000, and takes no answer for its own. -/
theorem answer_not_looked_up :
    ∃ s t request packet, s = start ⟨66536, 0x0100007f, 0, 0⟩ ∧ t = s.holding (echoReply 1000 0) ∧
      icmpFindpacket s.pingpacket (-1) = some 0 ∧
      (record s ⟨0, 0⟩).pingpacket[0]? = some packet ∧
      icmpPack s.pid s.sendBuff (s.packetSend.signExtend 32) 64 = some request ∧
      Answers request t 28 ∧ isEchoReply t 28 = false ∧
      lookedUp t 28 ≠ some (packet.seq.signExtend 32) := by
  obtain ⟨request, hpack, hcond⟩ : ∃ request,
      icmpPack 66536 (start ⟨66536, 0x0100007f, 0, 0⟩).sendBuff ((0 : BitVec 16).signExtend 32) 64 =
        some request ∧ decide (Answers request
          ((start ⟨66536, 0x0100007f, 0, 0⟩).holding (echoReply 1000 0)) 28) = true :=
    (Option.any_eq_true _ _).mp (by decide +kernel)
  exact ⟨_, _, request, { zeroPacket with flag := 1 }, rfl, rfl, by decide +kernel,
    by decide +kernel, hpack, of_decide_eq_true hcond, by decide +kernel, by decide +kernel⟩

end Identity

end LearnCLinux.SocketRaw.Ping
