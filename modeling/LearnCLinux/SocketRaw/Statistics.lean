import LearnCLinux.SocketRaw.Replies

/-! What `icmp_statistics` prints when both threads have returned.  The two counters are `short`,
and one of them divides. -/

namespace LearnCLinux.SocketRaw.Ping

structure Statistics where
  packetSend : Int
  packetRecv : Int
  loss : Int
  time : Int
  deriving DecidableEq

/-- `none` where the division is by 0. -/
def icmpStatistics (s : State) : Option Statistics :=
  let packetSend := s.packetSend.toInt
  let packetRecv := s.packetRecv.toInt
  if packetSend = 0 then none
  else some
    { packetSend := packetSend
      packetRecv := packetRecv
      loss := ((packetSend - packetRecv) * 100).tdiv packetSend
      time := s.tvInterval.tvSec * 1000 + s.tvInterval.tvUsec.tdiv 1000 }

def State.joined (s : State) : Prop := s.sendPc = .returned ∧ s.recvPc = .returned

def WellDefined (s : State) : Prop :=
  s.packetSend ≠ 0 ∧ ∃ printed, icmpStatistics s = some printed ∧
    0 ≤ printed.packetRecv ∧ printed.packetRecv ≤ printed.packetSend ∧
    0 ≤ printed.loss ∧ printed.loss ≤ 100

section Events

inductive Event : Type
  | sent
  | failed
  | accepted
  deriving DecidableEq

/-- A `sendto`, and a reply that finds a free entry. -/
def events (s : State) (l : Label) (_ : State) : List Event :=
  match l with
  | .send c => if s.sendPc = .sendto then [if c.size < 0 then .failed else .sent] else []
  | .recv _ => match s.unpacking with
    | some size =>
      if isEchoReply s size = true ∧ ∃ packet ∈ s.pingpacket, packet.flag = 0 then [.accepted]
      else []
    | none => []
  | .sigint _ => []

/-- `packet_send`, and the packet that has been sent and is counted with the next step. -/
def State.sent (s : State) : BitVec 16 := s.packetSend + if s.sendPc = .count then 1 else 0

theorem unpacked_counters {s : State} {size : Int} (c : RecvChoice) (s' : State)
    (hpc : s.recvPc = .unpack size) : (unpacked s size c.now).packetRecv =
      s.packetRecv + BitVec.ofNat 16 ((events s (.recv c) s').count .accepted) := by
  have haccepts := icmpUnpack_accepts_iff s size c.now
  rw [unpacked, events, State.unpacking, hpc]
  cases hunpack : icmpUnpack s size c.now with
  | none =>
    rw [hunpack] at haccepts
    simp [← haccepts]
  | some found =>
    rw [hunpack] at haccepts
    simp [← haccepts]

theorem unpacked_sent (s : State) (size : Int) (now : Timeval) :
    (unpacked s size now).sent = s.sent := by
  obtain ⟨-, hpc, hsend, -⟩ := unpacked_frame s size now
  rw [State.sent, hsend, hpc, State.sent]

theorem count_sent_recv (s : State) (c : RecvChoice) (s' : State) :
    (events s (.recv c) s').count .sent = 0 := by
  rw [events]
  split
  · split <;> rfl
  · rfl

theorem record_counters {s : State} (hpc : s.sendPc = .record) (now : Timeval) :
    (record s now).sent = s.sent ∧ (record s now).packetRecv = s.packetRecv := by
  rw [record]
  split <;> simp [State.sent, hpc]

theorem Step.counters {s s' : State} {l : Label} (h : Step s l s') :
    s'.sent = s.sent + BitVec.ofNat 16 ((events s l s').count .sent) ∧
      s'.packetRecv = s.packetRecv + BitVec.ofNat 16 ((events s l s').count .accepted) := by
  cases h with
  | start hpc => constructor <;> simp [State.sent, events, hpc]
  | testSend hpc =>
    constructor
    · cases halive : s.alive <;> simp [State.sent, events, hpc]
    · simp [events, hpc]
  | @record c hpc =>
    obtain ⟨hsent, hrecv⟩ := record_counters hpc c.now
    constructor
    · simp [hsent, events, hpc]
    · simp [hrecv, events, hpc]
  | sendFailed hpc hfail =>
    constructor <;> simp [State.sent, events, hpc, hfail]
  | sent hpc hsize => constructor <;> simp [State.sent, events, hpc, Int.not_lt.mpr hsize]
  | count hpc => constructor <;> simp [State.sent, events, hpc]
  | unpack hpc =>
    refine ⟨?_, unpacked_counters _ _ hpc⟩
    rw [unpacked_sent, count_sent_recv]
    simp
  | sigint => exact ⟨(BitVec.add_zero _).symm, (BitVec.add_zero _).symm⟩
  | testRecv hpc => constructor <;> simp [State.sent, events, State.unpacking, hpc]
  | select hpc => constructor <;> simp [State.sent, events, State.unpacking, hpc]
  | recvFailed hpc => constructor <;> simp [State.sent, events, State.unpacking, hpc]
  | received hpc => constructor <;> simp [State.sent, events, State.unpacking, hpc]

end Events

section Runs

variable {c : Start} {ls : List Label} {s : State}

def occurrences (c : Start) (ls : List Label) (e : Event) : Nat :=
  (Run.trace step events (start c) ls).count e

theorem exec_counters (hrun : Run.exec step (start c) ls = some s) :
    s.sent = BitVec.ofNat 16 (occurrences c ls .sent) ∧
      s.packetRecv = BitVec.ofNat 16 (occurrences c ls .accepted) := by
  refine Run.trace_invariant (P := fun _ _ _ => True)
    (I := fun tr m => m.sent = BitVec.ofNat 16 (tr.count .sent) ∧
      m.packetRecv = BitVec.ofNat 16 (tr.count .accepted)) events ?_ [] ⟨rfl, rfl⟩
    (Run.always_true _ _) hrun
  intro tr m l m' hm hs _
  obtain ⟨hsent, hrecv⟩ := (step_cases hs).counters
  rw [List.count_append, List.count_append, BitVec.ofNat_add, BitVec.ofNat_add, ← hm.1, ← hm.2]
  exact ⟨hsent, hrecv⟩

end Runs

section Percentages

theorem loss_bounds {sent received : Int} (hsent : 0 < sent) (hpos : 0 ≤ received)
    (hle : received ≤ sent) : 0 ≤ ((sent - received) * 100).tdiv sent ∧
      ((sent - received) * 100).tdiv sent ≤ 100 := by
  constructor
  · exact Int.tdiv_nonneg (by omega) (by omega)
  · rw [Int.tdiv_eq_ediv_of_nonneg (by omega)]
    exact Int.ediv_le_of_le_mul hsent (by omega)

theorem wellDefined_iff (s : State) : WellDefined s ↔ 0 < s.packetSend.toNat ∧
    s.packetSend.toNat < 32768 ∧ s.packetRecv.toNat ≤ s.packetSend.toNat := by
  have hsend := BitVec.toInt_eq_toNat_cond s.packetSend
  have hrecv := BitVec.toInt_eq_toNat_cond s.packetRecv
  have hsendLt := s.packetSend.isLt
  have hrecvLt := s.packetRecv.isLt
  constructor
  · rintro ⟨hne, printed, hprinted, hpos, hle, -, -⟩
    rw [icmpStatistics] at hprinted
    split at hprinted <;> cases hprinted
    dsimp only at hpos hle
    split at hsend <;> split at hrecv <;> omega
  · rintro ⟨hpos, hshort, hle⟩
    rw [if_pos (by omega)] at hsend hrecv
    have hne : s.packetSend.toInt ≠ 0 := by omega
    refine ⟨fun hzero => hne (by rw [hzero]; rfl), _, if_neg hne, ?_, ?_, ?_⟩
    · exact hrecv ▸ Int.natCast_nonneg _
    · dsimp only
      omega
    · exact loss_bounds (by omega) (by omega) (by omega)

end Percentages

/-- Both counters start again at 0 after 65536 packets. -/
theorem statistics_well_defined_iff (c : Start) (ls : List Label) (s : State)
    (hrun : Run.exec step (start c) ls = some s) (hjoined : s.joined) :
    WellDefined s ↔ 0 < occurrences c ls .sent % 65536 ∧
      occurrences c ls .sent % 65536 < 32768 ∧
      occurrences c ls .accepted % 65536 ≤ occurrences c ls .sent % 65536 := by
  obtain ⟨hsent, hrecv⟩ := exec_counters hrun
  have hcounted : s.sent = s.packetSend := by
    rw [State.sent, hjoined.1]
    exact BitVec.add_zero _
  rw [wellDefined_iff, ← hcounted, hsent, hrecv, BitVec.toNat_ofNat, BitVec.toNat_ofNat]

instance (s : State) : Decidable s.joined := inferInstanceAs (Decidable (_ ∧ _))

def answeredOnce : List Label :=
  sendSteps 5 ++ recvSteps 4 (echoReply 1000 0) ++ [.sigint ⟨4, 0⟩] ++ sendSteps 1 ++
    recvSteps 1 (echoReply 1000 0)

theorem statistics_well_defined_answered :
    ∃ s, Run.exec step (start loopback) answeredOnce = some s ∧ WellDefined s := by
  obtain ⟨s, hs, hjoined⟩ : ∃ s, Run.exec step (start loopback) answeredOnce = some s ∧
      decide s.joined = true :=
    (Option.any_eq_true _ _).mp (by decide +kernel)
  exact ⟨s, hs, (statistics_well_defined_iff loopback answeredOnce s hs
    (of_decide_eq_true hjoined)).mpr (by decide +kernel)⟩

/-- The interrupt comes before the first request, and 0 divides. -/
theorem statistics_divide_by_zero :
    ∃ s, Run.exec step (start loopback) (.sigint ⟨1, 0⟩ :: sendSteps 2 ++
        recvSteps 1 (echoReply 1000 0)) = some s ∧ s.joined ∧
      icmpStatistics s = none ∧ ¬WellDefined s := by
  obtain ⟨s, hs, hcond⟩ : ∃ s, Run.exec step (start loopback) (.sigint ⟨1, 0⟩ :: sendSteps 2 ++
      recvSteps 1 (echoReply 1000 0)) = some s ∧
        decide (s.joined ∧ icmpStatistics s = none) = true :=
    (Option.any_eq_true _ _).mp (by decide +kernel)
  obtain ⟨hjoined, hnone⟩ := of_decide_eq_true hcond
  refine ⟨s, hs, hjoined, hnone, ?_⟩
  rintro ⟨-, printed, hprinted, -⟩
  rw [hnone] at hprinted
  cases hprinted

end LearnCLinux.SocketRaw.Ping
