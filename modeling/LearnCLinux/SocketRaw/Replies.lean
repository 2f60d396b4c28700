import LearnCLinux.SocketRaw.Target

/-! Which entry of `pingpacket` a reply belongs to.  As `icmp_findpacket` looks for a free entry
whatever it is asked for, a reply is never matched to its request. -/

namespace LearnCLinux.SocketRaw.Ping

section Tables

variable {α : Type} {l : List α} {i : Nat} {a : α} {f : α → α} {p : α → Bool}

theorem modify_eq_self (ha : l[i]? = some a) (hf : f a = a) : l.modify i f = l := by
  apply List.ext_getElem?
  intro j
  rw [List.getElem?_modify]
  by_cases hij : i = j
  · subst hij
    simp [ha, hf]
  · simp [hij]

theorem filter_modify_perm (ha : l[i]? = some a) (hp : p a = false) (hp' : p (f a) = true) :
    ((l.modify i f).filter p).Perm (l.filter p ++ [f a]) := by
  induction l generalizing i with
  | nil => cases ha
  | cons b l ih =>
    cases i with
    | zero =>
      cases ha
      rw [List.modify_zero_cons, List.filter_cons_of_pos hp', List.filter_cons_of_neg (by simp [hp])]
      exact List.perm_append_singleton (f a) _ |>.symm
    | succ i =>
      rw [List.modify_succ_cons, List.filter_cons, List.filter_cons]
      split
      · exact (ih ha).cons b
      · exact ih ha

end Tables

/-- Every lookup is one for a free entry. -/
theorem icmpFindpacket_eq (pingpacket : List PingmPacket) (seq : BitVec 32) :
    icmpFindpacket pingpacket seq = pingpacket.findIdx? fun p => p.flag = 0 := by
  rw [icmpFindpacket, assigned]
  exact if_pos (by decide)

theorem icmpFindpacket_some {pingpacket : List PingmPacket} {seq : BitVec 32} {i : Nat}
    (h : icmpFindpacket pingpacket seq = some i) :
    ∃ packet, pingpacket[i]? = some packet ∧ packet.flag = 0 := by
  rw [icmpFindpacket_eq, List.findIdx?_eq_some_iff_getElem] at h
  obtain ⟨hlt, hfree, -⟩ := h
  exact ⟨pingpacket[i], List.getElem?_eq_getElem hlt, of_decide_eq_true hfree⟩

theorem exists_free {pingpacket : List PingmPacket} (seq : BitVec 32) :
    (∃ packet ∈ pingpacket, packet.flag = 0) ↔ ∃ i, icmpFindpacket pingpacket seq = some i := by
  rw [icmpFindpacket_eq, ← Option.isSome_iff_exists, List.findIdx?_isSome, List.any_eq_true]
  simp only [decide_eq_true_eq]

theorem icmpUnpack_some {s : State} {size : Int} {now : Timeval} {i : Nat} {report : Report}
    (h : icmpUnpack s size now = some (i, report)) :
    ∃ packet, s.pingpacket[i]? = some packet ∧ packet.flag = 0 := by
  rw [icmpUnpack] at h
  split at h
  · obtain ⟨j, hj, hmap⟩ := Option.bind_eq_some_iff.mp h
    obtain ⟨packet, hpacket, heq⟩ := Option.map_eq_some_iff.mp hmap
    cases heq
    exact icmpFindpacket_some hj
  · cases h

/-- A reply counts if any entry is free. -/
theorem icmpUnpack_accepts_iff (s : State) (size : Int) (now : Timeval) :
    (∃ found, icmpUnpack s size now = some found) ↔
      isEchoReply s size = true ∧ ∃ packet ∈ s.pingpacket, packet.flag = 0 := by
  rw [icmpUnpack, exists_free ((icmpSeq s).setWidth 32)]
  split
  next hreply =>
    rw [and_iff_right hreply]
    cases hfound : icmpFindpacket s.pingpacket ((icmpSeq s).setWidth 32) with
    | none => simp
    | some i =>
      obtain ⟨packet, hpacket, -⟩ := icmpFindpacket_some hfound
      simp [hpacket]
  next hother => simp [hother]

def State.unpacking (s : State) : Option Int :=
  match s.recvPc with
  | .unpack size => some size
  | _ => none

/-- A reply to a request that waits for one is matched to it. -/
def AnswersRequest (s : State) : Label → State → Prop
  | .recv c, s' => ∀ size ∈ s.unpacking, isEchoReply s size = true →
      icmpSeq s ∈ s.outstanding → ∃ i packet report,
        icmpUnpack s size c.now = some (i, report) ∧ s.pingpacket[i]? = some packet ∧
        packet.seq = icmpSeq s ∧ packet.flag = 1 ∧ report.rtt = rtt c.now packet.tvBegin ∧
        s'.pingpacket = s.pingpacket.set i { packet with flag := 0 }
  | _, _ => True

def State.flagged (s : State) : List PingmPacket := s.pingpacket.filter fun p => p.flag = 1

/-- The entries with flag 1 are the requests sent and not yet answered. -/
def FlagsExact (s : State) : Prop :=
  s.sendPc ≠ .sendto → (s.flagged.map PingmPacket.seq).Perm s.outstanding

/-- No reply to a request that waits for one gets to `icmp_findpacket`. -/
def NobodyAnswers (s : State) : Label → State → Prop
  | .recv _, _ => ∀ size ∈ s.unpacking, isEchoReply s size = true → icmpSeq s ∉ s.outstanding
  | _, _ => True

instance (s : State) (l : Label) (s' : State) : Decidable (NobodyAnswers s l s') :=
  match l with
  | .recv _ => inferInstanceAs (Decidable
      (∀ size ∈ s.unpacking, isEchoReply s size = true → icmpSeq s ∉ s.outstanding))
  | .send _ | .sigint _ => isTrue trivial

def SendSucceeds (s : State) : Label → Prop
  | .send c => s.sendPc = .sendto → 0 ≤ c.size
  | _ => True

instance (s : State) (l : Label) : Decidable (SendSucceeds s l) :=
  match l with
  | .send c => inferInstanceAs (Decidable (s.sendPc = .sendto → 0 ≤ c.size))
  | .recv _ | .sigint _ => isTrue trivial

/-- All sends succeed, fewer than 128 requests are outstanding, and the sequence numbers stay
below 32768. -/
def InScope (s : State) (l : Label) (_ : State) : Prop :=
  SendSucceeds s l ∧ s.outstanding.length < 128 ∧ s.packetSend.toNat < 32768

instance (s : State) (l : Label) (s' : State) : Decidable (InScope s l s') :=
  inferInstanceAs (Decidable
    (SendSucceeds s l ∧ s.outstanding.length < 128 ∧ s.packetSend.toNat < 32768))

/-- What the table holds as long as no reply to an outstanding request has come. -/
structure Recorded (s : State) : Prop where
  length : s.pingpacket.length = 128
  flags : ∀ p ∈ s.pingpacket, p.flag = 0 ∨ p.flag = 1
  flagged : (s.flagged.map PingmPacket.seq).Perm
    (s.outstanding ++ if s.sendPc = .sendto then [s.packetSend] else [])

theorem Recorded.exact {s : State} (hr : Recorded s) : FlagsExact s := by
  intro hpc
  simpa [hpc] using hr.flagged

theorem Recorded.free {s : State} (hr : Recorded s) (hpc : s.sendPc ≠ .sendto)
    (hfew : s.outstanding.length < 128) (seq : BitVec 32) :
    ∃ i, icmpFindpacket s.pingpacket seq = some i := by
  have hlen : s.flagged.length < s.pingpacket.length := by
    have hperm := (hr.exact hpc).length_eq
    rw [List.length_map] at hperm
    rw [hperm, hr.length]
    exact hfew
  rw [icmpFindpacket_eq, ← Option.isSome_iff_exists, List.findIdx?_isSome]
  by_contra hnone
  apply hlen.ne
  rw [State.flagged, List.length_filter_eq_length_iff]
  intro p hp
  rcases hr.flags p hp with hzero | hone
  · exact absurd (List.any_eq_true.mpr ⟨p, hp, decide_eq_true hzero⟩) hnone
  · exact decide_eq_true hone

theorem Recorded.record {s : State} (hr : Recorded s) (hpc : s.sendPc = .record)
    (hfew : s.outstanding.length < 128) (now : Timeval) : Recorded (record s now) := by
  obtain ⟨i, hi⟩ := hr.free (hpc ▸ by decide) hfew (-1)
  obtain ⟨packet, hpacket, hfree⟩ := icmpFindpacket_some hi
  rw [Ping.record, hi]
  constructor
  · simpa using hr.length
  · intro p hp
    obtain ⟨j, hj⟩ := List.mem_iff_getElem?.mp hp
    rw [List.getElem?_modify] at hj
    obtain ⟨q, hq, rfl⟩ := Option.map_eq_some_iff.mp hj
    split
    · exact .inr rfl
    · exact hr.flags q (List.mem_of_getElem? hq)
  · have hperm := filter_modify_perm (p := fun p : PingmPacket => decide (p.flag = 1))
      (f := fun packet => { packet with seq := s.packetSend, flag := 1, tvBegin := now })
      hpacket (by simp [hfree]) (by simp)
    have hmap := hperm.map PingmPacket.seq
    rw [List.map_append] at hmap
    exact hmap.trans ((hr.exact (hpc ▸ by decide)).append_right _)

theorem Recorded.unpacked {s : State} (hr : Recorded s) {c : RecvChoice} {size : Int}
    (hpc : s.recvPc = .unpack size) {s' : State} (hnobody : NobodyAnswers s (.recv c) s') :
    Recorded (unpacked s size c.now) := by
  rw [Ping.unpacked]
  cases hunpack : icmpUnpack s size c.now with
  | none => exact ⟨hr.length, hr.flags, hr.flagged⟩
  | some found =>
    obtain ⟨i, report⟩ := found
    obtain ⟨packet, hpacket, hfree⟩ := icmpUnpack_some hunpack
    have hreply : isEchoReply s size = true := by
      rw [icmpUnpack] at hunpack
      split at hunpack
      · assumption
      · cases hunpack
    have hsame : s.pingpacket.modify i (fun packet => { packet with flag := 0 }) =
        s.pingpacket := by
      apply modify_eq_self hpacket
      rw [← hfree]
    have hothers : s.outstanding.erase (icmpSeq s) = s.outstanding :=
      List.erase_of_not_mem (hnobody size (by rw [State.unpacking, hpc]; rfl) hreply)
    simp only [hsame, hothers]
    exact ⟨hr.length, hr.flags, hr.flagged⟩

theorem Recorded.step {s s' : State} {l : Label} (hr : Recorded s) (h : Step s l s')
    (hscope : InScope s l s') (hnobody : NobodyAnswers s l s') : Recorded s' := by
  obtain ⟨hlength, hflags, hflagged⟩ := hr
  cases h with
  | start hpc =>
    rw [hpc] at hflagged
    exact ⟨hlength, hflags, hflagged⟩
  | testSend hpc =>
    rw [hpc] at hflagged
    refine ⟨hlength, hflags, ?_⟩
    cases s.alive <;> exact hflagged
  | record hpc => exact Recorded.record ⟨hlength, hflags, hflagged⟩ hpc hscope.2.1 _
  | sendFailed hpc hfail => exact absurd (hscope.1 hpc) (Int.not_le.mpr hfail)
  | sent hpc hsent =>
    rw [hpc, if_pos rfl] at hflagged
    refine ⟨hlength, hflags, ?_⟩
    dsimp only
    rw [if_neg SendPc.noConfusion, List.append_nil]
    exact hflagged
  | count hpc =>
    rw [hpc] at hflagged
    exact ⟨hlength, hflags, hflagged⟩
  | unpack hpc => exact Recorded.unpacked ⟨hlength, hflags, hflagged⟩ hpc hnobody
  | _ => exact ⟨hlength, hflags, hflagged⟩

theorem start_recorded (c : Start) : Recorded (start c) where
  length := by simp [start]
  flags p hp := .inl (by rw [List.eq_of_mem_replicate hp]; rfl)
  flagged := by
    have hnone : (start c).flagged = [] := by
      rw [State.flagged, List.filter_eq_nil_iff]
      intro p hp
      rw [List.eq_of_mem_replicate hp]
      decide
    rw [hnone]
    exact List.Perm.refl _

/-- A reply that is looked up at all is looked up wrongly. -/
theorem AnswersRequest.nobody {s s' : State} {l : Label} (h : AnswersRequest s l s') :
    NobodyAnswers s l s' := by
  cases l with
  | recv c =>
    intro size hpc hreply hwaits
    obtain ⟨i, packet, report, hunpack, hpacket, -, hflag, -⟩ := h size hpc hreply hwaits
    obtain ⟨free, hfree, hzero⟩ := icmpUnpack_some hunpack
    cases hpacket.symm.trans hfree
    rw [hzero] at hflag
    cases hflag
  | _ => trivial

theorem NobodyAnswers.answers {s s' : State} {l : Label} (h : NobodyAnswers s l s') :
    AnswersRequest s l s' := by
  cases l with
  | recv c => exact fun size hpc hreply hwaits => absurd hwaits (h size hpc hreply)
  | _ => trivial

theorem replies_matched_iff (c : Start) (ls : List Label)
    (hscope : Run.Always step InScope (start c) ls) :
    Run.Always step (fun s l s' => AnswersRequest s l s' ∧ FlagsExact s') (start c) ls ↔
      Run.Always step NobodyAnswers (start c) ls := by
  constructor
  · exact Run.Always.imp fun s l s' _ h => h.1.nobody
  · intro hnobody
    refine (hscope.and hnobody).of_invariant (I := Recorded) ?_ ?_ (start_recorded c)
    · exact fun s l s' hr hs h => hr.step (step_cases hs) h.1 h.2
    · intro s l s' hr hs h
      exact ⟨h.2.answers, (hr.step (step_cases hs) h.1 h.2).exact⟩

def echoReply (id seq : BitVec 16) : Datagram where
  source := ⟨afInet, 0, 0x0100007f⟩
  bytes := setU16 (setU16 (0x45 :: List.replicate 27 0) 24 id) 26 seq

/-- A reply to a request that has not been sent comes while one is outstanding. -/
theorem replies_matched_after_stray_reply :
    Run.Always step (fun s l s' => AnswersRequest s l s' ∧ FlagsExact s') (start loopback)
      (sendSteps 5 ++ recvSteps 4 (echoReply 1000 7) ++ sendSteps 4) :=
  (replies_matched_iff loopback _ (by decide +kernel)).mpr (by decide +kernel)

/-- The reply to request 0 is matched to the free entry 1, and its own entry stays flagged. -/
theorem reply_matched_to_free_entry :
    ∃ s s' report, Run.exec step (start loopback)
        (sendSteps 5 ++ recvSteps 3 (echoReply 1000 0)) = some s ∧
      Run.Always step InScope (start loopback)
        (sendSteps 5 ++ recvSteps 4 (echoReply 1000 0)) ∧
      s.outstanding = [0] ∧ isEchoReply s 28 = true ∧ icmpSeq s = 0 ∧
      step s (.recv ⟨⟨3, 0⟩, 1, none⟩) = some s' ∧
      icmpUnpack s 28 ⟨3, 0⟩ = some (1, report) ∧ report.rtt = 3000 ∧
      s'.outstanding = [] ∧ s'.flagged.map PingmPacket.seq = [0] := by
  obtain ⟨s, hs, hcond⟩ : ∃ s, Run.exec step (start loopback)
      (sendSteps 5 ++ recvSteps 3 (echoReply 1000 0)) = some s ∧
        decide (s.outstanding = [0] ∧ isEchoReply s 28 = true ∧ icmpSeq s = 0 ∧
          (∃ s' ∈ step s (.recv ⟨⟨3, 0⟩, 1, none⟩),
            s'.outstanding = [] ∧ s'.flagged.map PingmPacket.seq = [0]) ∧
          ∃ found ∈ icmpUnpack s 28 ⟨3, 0⟩, found.1 = 1 ∧ found.2.rtt = 3000) = true :=
    (Option.any_eq_true _ _).mp (by decide +kernel)
  obtain ⟨hwaits, hreply, hseq, ⟨s', hs', hnone, hstays⟩, ⟨⟨i, report⟩, hfound, rfl, hrtt⟩⟩ :=
    of_decide_eq_true hcond
  exact ⟨s, s', report, hs, by decide +kernel, hwaits, hreply, hseq, hs', hfound, hrtt, hnone,
    hstays⟩

end LearnCLinux.SocketRaw.Ping
