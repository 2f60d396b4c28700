import LearnCLinux.SocketRaw.FailedSends

/-! What ping prints for a reply, and how long it prints replies at all.  `icmp_findpacket` always
looks for a free entry, so a reply is measured against an entry that no request has used. -/

namespace LearnCLinux.SocketRaw.Ping

section Unused

variable {s s' : State} {l : Label}

/-- An entry is free until it is claimed for the first time. -/
def Unused (s : State) : Prop := ∀ p ∈ s.pingpacket, p.flag = 0 → p = zeroPacket

theorem Unused.record (hu : Unused s) (now : Timeval) : Unused (record s now) := by
  rw [Ping.record]
  split
  · exact hu
  · next i _ =>
    intro p hp hflag
    obtain ⟨j, hj⟩ := List.getElem?_of_mem hp
    rw [List.getElem?_modify] at hj
    obtain ⟨q, hq, rfl⟩ := Option.map_eq_some_iff.mp hj
    by_cases hij : i = j
    · rw [if_pos hij] at hflag
      cases hflag
    · rw [if_neg hij] at hflag ⊢
      exact hu q (List.mem_of_getElem? hq) hflag

theorem Unused.step (hu : Unused s) (h : Step s l s') : Unused s' := by
  rcases h.records with ⟨c, -, -, rfl⟩ | ⟨hsame, -⟩
  · exact hu.record c.now
  · rwa [Unused, hsame]

theorem exec_unused {c : Start} {ls : List Label} (hrun : Run.exec step (start c) ls = some s) :
    Unused s :=
  Run.invariant (I := Unused) (fun _ _ _ hu hs => hu.step (step_cases hs))
    (fun _ hp _ => List.eq_of_mem_replicate hp) hrun

theorem icmpUnpack_report {len : Int} {now : Timeval} {i : Nat} {report : Report}
    (h : icmpUnpack s len now = some (i, report)) :
    ∃ packet, s.pingpacket[i]? = some packet ∧ report.rtt = rtt now packet.tvBegin := by
  rw [icmpUnpack] at h
  split at h
  · obtain ⟨j, -, hmap⟩ := Option.bind_eq_some_iff.mp h
    obtain ⟨packet, hpacket, heq⟩ := Option.map_eq_some_iff.mp hmap
    cases heq
    exact ⟨packet, hpacket, rfl⟩
  · cases h

end Unused

section Full

variable {s s' : State} {l : Label}

/-- Without a free entry nothing is claimed and nothing is answered. -/
theorem Step.frozen (h : Step s l s') (hfull : ∀ p ∈ s.pingpacket, p.flag ≠ 0) :
    s'.packetRecv = s.packetRecv ∧ s'.pingpacket = s.pingpacket := by
  cases h with
  | @record c hpc =>
    have hnone : icmpFindpacket s.pingpacket (-1) = none := by
      refine Option.eq_none_iff_forall_ne_some.mpr fun i hi => ?_
      obtain ⟨p, hp, hfree⟩ := icmpFindpacket_some hi
      exact hfull p (List.mem_of_getElem? hp) hfree
    rw [Ping.record, hnone]
    exact ⟨rfl, rfl⟩
  | @unpack c size hpc =>
    have hnone : icmpUnpack s size c.now = none := by
      refine Option.eq_none_iff_forall_ne_some.mpr fun found hfound => ?_
      obtain ⟨p, hp, hfree⟩ := icmpUnpack_some hfound
      exact hfull p (List.mem_of_getElem? hp) hfree
    rw [unpacked, hnone]
    exact ⟨rfl, rfl⟩
  | _ => exact ⟨rfl, rfl⟩

theorem Filled.no_free {tr : List Event} (hf : Filled tr s) (hfull : 128 ≤ claims tr s) :
    ∀ p ∈ s.pingpacket, p.flag ≠ 0 := by
  intro p hp
  obtain ⟨i, hi⟩ := List.getElem?_of_mem hp
  have hlt : i < 128 := hf.length ▸ (List.getElem?_eq_some_iff.mp hi).1
  rw [hf.flag i p hi, if_pos (by omega)]
  decide

end Full

section Rounds

variable {s : State}

structure Between (s : State) : Prop where
  sendPc : s.sendPc = .test
  alive : s.alive = true
  sendBuff : s.sendBuff.length = buffsize

theorem Between.round (hb : Between s) : ∃ s', Run.exec step s (sendSteps 4) = some s' ∧
    Between s' ∧ attempted (Run.trace step events s (sendSteps 4)) = 1 := by
  obtain ⟨hpc, halive, hbuf⟩ := hb
  have hkept := record_frame { s with sendPc := .record } ⟨1, 0⟩
  have hsendto : (record { s with sendPc := .record } ⟨1, 0⟩).sendPc = .sendto ∧
      (record { s with sendPc := .record } ⟨1, 0⟩).alive = true := by
    rw [record]
    split <;> exact ⟨rfl, halive⟩
  generalize hclaimed : record { s with sendPc := .record } ⟨1, 0⟩ = m at hkept hsendto
  have hlength : m.sendBuff.length = buffsize := by rw [hkept.2, hbuf]
  obtain ⟨request, hpack, hrequest⟩ := icmpPack_some m.pid (m.packetSend.signExtend 32) hlength
  have htest : step s (.send ⟨⟨1, 0⟩, 64⟩) = some { s with sendPc := .record } := by
    simp [step, icmpSend, hpc, halive]
  have hrecord : step { s with sendPc := .record } (.send ⟨⟨1, 0⟩, 64⟩) = some m := by
    rw [← hclaimed]
    rfl
  have hsend : step m (.send ⟨⟨1, 0⟩, 64⟩) = some { m with
      sendBuff := request
      outstanding := m.outstanding ++ [m.packetSend]
      sendPc := .count } := by
    rw [step, icmpSend, hsendto.1]
    simp only [hpack, Option.map_some]
    rfl
  have hpending : s.pending = 0 ∧ m.pending = 1 := by
    simp [State.pending, hpc, hsendto.1]
  refine ⟨{ m with
    sendBuff := request
    outstanding := m.outstanding ++ [m.packetSend]
    packetSend := m.packetSend + 1
    sendPc := .test }, ?_, ⟨rfl, hsendto.2, hrequest⟩, ?_⟩
  · exact Run.exec_cons.mpr ⟨_, htest, Run.exec_cons.mpr ⟨_, hrecord,
      Run.exec_cons.mpr ⟨_, hsend, Run.exec_cons.mpr ⟨_, rfl, rfl⟩⟩⟩⟩
  · change attempted (Run.trace step events s [_, _, _, _]) = 1
    simp only [Run.trace, htest, hrecord, hsend, attempted_append, attempted_send, hpending]
    rfl

theorem Between.rounds (hb : Between s) (n : Nat) :
    ∃ s', Run.exec step s (sendSteps (4 * n)) = some s' ∧ Between s' ∧
      attempted (Run.trace step events s (sendSteps (4 * n))) = n := by
  induction n with
  | zero => exact ⟨s, rfl, hb, rfl⟩
  | succ n ih =>
    obtain ⟨m, hm, hbm, hcount⟩ := ih
    obtain ⟨s', hs', hb', hone⟩ := hbm.round
    have hsplit : sendSteps (4 * (n + 1)) = sendSteps (4 * n) ++ sendSteps 4 :=
      List.replicate_add (4 * n) 4 _
    refine ⟨s', ?_, hb', ?_⟩
    · rw [hsplit]
      exact Run.exec_append.mpr ⟨m, hm, hs'⟩
    · rw [hsplit, Run.trace_append hm, attempted_append, hcount, hone]

end Rounds

section Runs

variable {c : Start} {ls ks : List Label} {s s' : State}

/-- The round-trip time that is printed for a reply is the time of day in milliseconds, whenever the
request was sent. -/
theorem rtt_is_time_of_day (hrun : Run.exec step (start c) ls = some s) {len : Int}
    {now : Timeval} {i : Nat} {report : Report} (hnow : 0 ≤ now.tvUsec)
    (hreply : icmpUnpack s len now = some (i, report)) :
    report.rtt = BitVec.ofInt 32 (now.tvSec * 1000 + now.tvUsec.tdiv 1000) := by
  obtain ⟨packet, hpacket, hrtt⟩ := icmpUnpack_report hreply
  obtain ⟨free, hfree, hflag⟩ := icmpUnpack_some hreply
  cases hpacket.symm.trans hfree
  have hzero := exec_unused hrun packet (List.mem_of_getElem? hpacket) hflag
  have hsub : icmpTvsub now ⟨0, 0⟩ = now := by
    rw [icmpTvsub]
    simp only [Int.sub_zero]
    exact if_neg (Int.not_lt.mpr hnow)
  rw [hrtt, hzero, rtt, show zeroPacket.tvBegin = ⟨0, 0⟩ from rfl, hsub]

theorem rtt_is_time_of_day_first :
    ∃ s report, Run.exec step (start loopback)
        (sendSteps 5 ++ recvSteps 3 (echoReply 1000 0)) = some s ∧
      icmpUnpack s 28 ⟨3, 0⟩ = some (1, report) ∧ report.rtt = 3000 := by
  obtain ⟨s, hs, hcond⟩ : ∃ s, Run.exec step (start loopback)
      (sendSteps 5 ++ recvSteps 3 (echoReply 1000 0)) = some s ∧
        decide (∃ found ∈ icmpUnpack s 28 ⟨3, 0⟩, found.1 = 1) = true :=
    (Option.any_eq_true _ _).mp (by decide +kernel)
  obtain ⟨⟨i, report⟩, hfound, rfl⟩ := of_decide_eq_true hcond
  exact ⟨s, report, hs, hfound, rtt_is_time_of_day hs (Int.le_refl 0) hfound⟩

/-- After 128 calls of `sendto` the table has no free entry, and no reply is counted any more. -/
theorem replies_stop (hrun : Run.exec step (start c) ls = some s) (hfull : 128 ≤ attempts c ls)
    (hks : Run.exec step s ks = some s') :
    s'.packetRecv = s.packetRecv ∧ s'.pingpacket = s.pingpacket := by
  have hclaims : 128 ≤ claims (Run.trace step events (start c) ls) s :=
    hfull.trans (Nat.le_add_right _ _)
  have hused := (exec_filled hrun).no_free hclaims
  refine Run.invariant (I := fun m => m.packetRecv = s.packetRecv ∧ m.pingpacket = s.pingpacket)
    (fun m l m' hm hl => ?_) ⟨rfl, rfl⟩ hks
  obtain ⟨hrecv, htable⟩ := (step_cases hl).frozen (hm.2 ▸ hused)
  exact ⟨hrecv.trans hm.1, htable.trans hm.2⟩

theorem replies_stop_after_128 :
    ∃ s, Run.exec step (start loopback) (sendSteps 513) = some s ∧
      ∀ ks s', Run.exec step s ks = some s' →
        s'.packetRecv = s.packetRecv ∧ s'.pingpacket = s.pingpacket := by
  have hfirst : Run.exec step (start loopback) (sendSteps 1) =
      some { start loopback with tvBegin := ⟨1, 0⟩, sendPc := .test } := rfl
  have hbetween : Between { start loopback with tvBegin := ⟨1, 0⟩, sendPc := .test } :=
    ⟨rfl, rfl, List.length_replicate⟩
  obtain ⟨s, hs, -, hcount⟩ := hbetween.rounds 128
  have hrun := Run.exec_append.mpr ⟨_, hfirst, hs⟩
  have hattempts : attempts loopback (sendSteps 1 ++ sendSteps (4 * 128)) = 128 := by
    rw [attempts, Run.trace_append hfirst, attempted_append, hcount]
    rfl
  exact ⟨s, hrun, fun _ _ => replies_stop hrun (Nat.le_of_eq hattempts.symm)⟩

end Runs

end LearnCLinux.SocketRaw.Ping
