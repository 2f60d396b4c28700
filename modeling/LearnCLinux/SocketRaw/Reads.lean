import LearnCLinux.SocketRaw.Target
import LearnCLinux.SocketRaw.Replies
import LearnCLinux.Library.Access

/-! Which bytes of `recv_buff` `icmp_unpack` looks at.  It takes the length of the IP header from
the datagram, and compares only what is left behind that header with the length it was given. -/

namespace LearnCLinux.SocketRaw.Ping

open Access

section Code

variable (s : State)

def readU8 (i : Nat) : Access Nat (BitVec 8) := touch [i] (s.recvBuff.getD i 0)

def readU16 (i : Nat) : Access Nat (BitVec 16) := touch [i, i + 1] (getU16 s.recvBuff i)

def readTests (len : Int) : Access Nat Bool := do
  let ip ← readU8 s 0
  let iphdrlen := (ip &&& 0x0f).toNat * 4
  if len - iphdrlen < 8 then pure false
  else
    let icmpType ← readU8 s iphdrlen
    if icmpType = icmpEchoreply then
      let icmpId ← readU16 s (iphdrlen + 4)
      pure (icmpId.setWidth 32 = s.pid)
    else pure false

def readReport (len : Int) (rtt : BitVec 32) : Access Nat Report := do
  let ipSrc ← touch [12, 13, 14, 15] ((s.recvBuff.drop 12).take 4)
  let icmpSeq ← readU16 s (iphdrlen s + 6)
  let ipTtl ← readU8 s 8
  pure { len := len, ipSrc := ipSrc, icmpSeq := icmpSeq, ipTtl := ipTtl, rtt := rtt }

/-- `icmp_unpack`, read by read. -/
def icmpUnpackReads (len : Int) (tvRecv : Timeval) : Access Nat (Option (Nat × Report)) := do
  let reply ← readTests s len
  if reply then
    let icmpSeq ← readU16 s (iphdrlen s + 6)
    match icmpFindpacket s.pingpacket (icmpSeq.setWidth 32) with
    | none => pure none
    | some i => match s.pingpacket[i]? with
      | none => pure none
      | some packet =>
        let report ← readReport s (len - iphdrlen s) (rtt tvRecv packet.tvBegin)
        pure (some (i, report))
  else pure none

end Code

section Values

variable (s : State)

theorem value_readTests (len : Int) : (readTests s len).value = some (isEchoReply s len) := by
  rw [readTests, isEchoReply, readU8, value_bind, value_touch, Option.bind_some, ← iphdrlen]
  by_cases hshort : len - iphdrlen s < 8
  · rw [if_pos hshort]
    simp [Int.not_le.mpr hshort]
  rw [if_neg hshort, readU8, value_bind, value_touch, Option.bind_some]
  rw [decide_eq_true (Int.not_lt.mp hshort)]
  by_cases htype : s.recvBuff.getD (iphdrlen s) 0 = icmpEchoreply
  · rw [if_pos htype, decide_eq_true htype]
    rfl
  · rw [if_neg htype, decide_eq_false htype]
    rfl

/-- The reads change nothing about the result. -/
theorem value_icmpUnpackReads (len : Int) (tvRecv : Timeval) :
    (icmpUnpackReads s len tvRecv).value = some (icmpUnpack s len tvRecv) := by
  rw [icmpUnpackReads, icmpUnpack, value_bind, value_readTests, Option.bind_some]
  split
  · rw [readU16, value_bind, value_touch, Option.bind_some, ← icmpSeq]
    cases icmpFindpacket s.pingpacket ((icmpSeq s).setWidth 32) with
    | none => rfl
    | some i =>
      cases hpacket : s.pingpacket[i]? with
      | none => simp [hpacket]
      | some packet =>
        simp only [hpacket, Option.bind_some, Option.map_some]
        rfl
  · rfl

end Values

section Bounds

variable (s : State) {n : Nat}

/-- The tests look at the first byte, and at no byte beyond those they have counted. -/
theorem returns_readTests {q : Bool → Prop} :
    (readTests s n).Returns (· < n) q ↔ 0 < n ∧ q (isEchoReply s n) := by
  rw [returns_iff_of_value (value_readTests s n)]
  refine and_congr_left fun _ => ?_
  rw [readTests, readU8, returns_bind, returns_touch]
  constructor
  · exact fun h => h.1 0 (List.mem_singleton_self 0)
  · intro hn
    refine ⟨fun i hi => List.mem_singleton.mp hi ▸ hn, ?_⟩
    dsimp only
    rw [← iphdrlen]
    split
    · exact returns_pure.mpr trivial
    next hlong =>
    rw [readU8, returns_bind, returns_touch]
    refine ⟨fun i hi => List.mem_singleton.mp hi ▸ (by omega), ?_⟩
    split
    · rw [readU16, returns_bind, returns_touch]
      refine ⟨fun i hi => ?_, returns_pure.mpr trivial⟩
      rcases List.mem_pair.mp hi with rfl | rfl <;> omega
    · exact returns_pure.mpr trivial

theorem returns_readReport {len : Int} {rtt : BitVec 32} (hseq : iphdrlen s + 8 ≤ n) :
    (readReport s len rtt).Returns (· < n) (fun _ => True) ↔ 16 ≤ n := by
  simp only [readReport, readU16, readU8, returns_bind, returns_touch, returns_pure]
  constructor
  · exact fun h => h.1 15 (by simp)
  · intro hn
    refine ⟨fun i hi => ?_, fun i hi => ?_, fun i hi => ?_, trivial⟩
    · simp only [List.mem_cons, List.not_mem_nil, or_false] at hi
      omega
    · rcases List.mem_pair.mp hi with rfl | rfl <;> omega
    · exact List.mem_singleton.mp hi ▸ (by omega)

end Bounds

/-- `icmp_unpack` looks at bytes of the datagram only. -/
def ReadsReceived (s : State) (n : Nat) (tvRecv : Timeval) : Prop :=
  (icmpUnpackReads s n tvRecv).Returns (· < n) (· = icmpUnpack s n tvRecv)

theorem header_of_isEchoReply {s : State} {n : Nat} (h : isEchoReply s n = true) :
    iphdrlen s + 8 ≤ n := by
  simp only [isEchoReply, Bool.and_eq_true, decide_eq_true_eq] at h
  omega

section Calls

variable {s : State} {n : Nat} {tvRecv : Timeval}

theorem readsReceived_of_other (hother : isEchoReply s n = false) :
    ReadsReceived s n tvRecv ↔ 0 < n := by
  rw [ReadsReceived, returns_iff_of_value (value_icmpUnpackReads s n tvRecv), and_iff_left rfl,
    icmpUnpackReads, returns_bind, returns_readTests, hother]
  simp

theorem readsReceived_of_reply (hreply : isEchoReply s n = true) :
    ReadsReceived s n tvRecv ↔ 0 < n ∧ ((∃ packet ∈ s.pingpacket, packet.flag = 0) → 16 ≤ n) := by
  have hheader := header_of_isEchoReply hreply
  have hseq : ∀ i ∈ [iphdrlen s + 6, iphdrlen s + 6 + 1], i < n := by
    intro i hi
    rcases List.mem_pair.mp hi with rfl | rfl <;> omega
  rw [ReadsReceived, returns_iff_of_value (value_icmpUnpackReads s n tvRecv), and_iff_left rfl,
    icmpUnpackReads, returns_bind, returns_readTests, if_pos hreply]
  refine and_congr_right fun _ => ?_
  rw [readU16, returns_bind, returns_touch, and_iff_right hseq,
    exists_free ((icmpSeq s).setWidth 32), ← icmpSeq]
  cases hfound : icmpFindpacket s.pingpacket ((icmpSeq s).setWidth 32) with
  | none => simp
  | some i =>
    obtain ⟨packet, hpacket, -⟩ := icmpFindpacket_some hfound
    simp only [hpacket, returns_bind, returns_pure, returns_readReport s hheader]
    simp

end Calls

/-- There is a first byte, and a reply that is printed has the IP fields that are printed. -/
theorem reads_received_iff (s : State) (n : Nat) (tvRecv : Timeval) :
    ReadsReceived s n tvRecv ↔ 0 < n ∧
      (isEchoReply s n = true → (∃ packet ∈ s.pingpacket, packet.flag = 0) → 16 ≤ n) := by
  cases hreply : isEchoReply s n with
  | false =>
    rw [readsReceived_of_other hreply]
    simp
  | true =>
    rw [readsReceived_of_reply hreply]
    simp

/-- A datagram of 8 bytes is unpacked: an IP header without words, and an echo reply in it. -/
def headless : Datagram := ⟨⟨afInet, 0, 0x0100007f⟩, [0, 0, 0, 0, 0xe8, 3, 0, 0]⟩

theorem unpack_reads_stale_bytes :
    ∃ s report, Run.exec step (start loopback) (sendSteps 5 ++ recvSteps 3 headless) = some s ∧
      s.unpacking = some 8 ∧ icmpUnpack s 8 ⟨3, 0⟩ = some (1, report) ∧
      ¬ReadsReceived s 8 ⟨3, 0⟩ ∧ ¬ReadsReceived s 0 ⟨3, 0⟩ := by
  obtain ⟨s, hs, hcond⟩ : ∃ s,
      Run.exec step (start loopback) (sendSteps 5 ++ recvSteps 3 headless) = some s ∧
        decide (s.unpacking = some 8 ∧ (∃ found ∈ icmpUnpack s 8 ⟨3, 0⟩, found.1 = 1) ∧
          isEchoReply s 0 = false ∧ isEchoReply s 8 = true ∧ ∃ packet ∈ s.pingpacket, packet.flag = 0) = true :=
    (Option.any_eq_true _ _).mp (by decide +kernel)
  obtain ⟨hsize, ⟨⟨i, report⟩, hfound, rfl⟩, hnothing, hreply, hfree⟩ := of_decide_eq_true hcond
  refine ⟨s, report, hs, hsize, hfound, ?_, ?_⟩
  · intro hreads
    exact absurd (((readsReceived_of_reply hreply).mp hreads).2 hfree) (by decide)
  · intro hreads
    exact absurd ((readsReceived_of_other hnothing).mp hreads) (by decide)

end LearnCLinux.SocketRaw.Ping
