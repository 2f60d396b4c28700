import LearnCLinux.SocketRaw.Statistics
import LearnCLinux.SocketRaw.Request

/-! What a `sendto` that fails leaves behind.  `icmp_send` claims an entry before it sends, and
entries are never given back, so that the first 128 requests fill the table. -/

namespace LearnCLinux.SocketRaw.Ping

def Label.isSend : Label → Bool
  | .send _ => true
  | _ => false

/-- The entries of requests that are sent and not answered. -/
def State.claimed (s : State) : Set (Nat × PingmPacket) :=
  { e | s.pingpacket[e.1]? = some e.2 ∧ e.2.flag = 1 }

/-- Each round of `icmp_send` in which `sendto` fails leaves the table and the counter as they
were. -/
def FailuresHarmless (c : Start) (ls : List Label) : Prop :=
  ∀ ks first ms choice rest s s',
    ls = ks ++ .send first :: ms ++ .send choice :: rest → Run.exec step (start c) ks = some s →
    s.sendPc = .record → (∀ l ∈ ms, l.isSend = false) →
    Run.exec step s (.send first :: ms ++ [.send choice]) = some s' → choice.size < 0 →
    s'.packetSend = s.packetSend ∧ s'.claimed = s.claimed

structure Distinct (s : State) : Prop where
  inj : ∀ i j p q, (i, p) ∈ s.claimed → (j, q) ∈ s.claimed → p.seq = q.seq → i = j
  below : s.sendPc ≠ .sendto → s.sendPc ≠ .count →
    ∀ i p, (i, p) ∈ s.claimed → p.seq.toInt < s.packetSend.toInt

def attempted (tr : List Event) : Nat := tr.count .sent + tr.count .failed

def attempts (c : Start) (ls : List Label) : Nat :=
  attempted (Run.trace step events (start c) ls)

/-- None of the first 128 calls of `sendto` fails. -/
def EarlySendsSucceed (c : Start) (ls : List Label) : Prop :=
  ∀ ks choice rest s, ls = ks ++ .send choice :: rest → Run.exec step (start c) ks = some s →
    s.sendPc = .sendto → choice.size < 0 → 128 ≤ attempts c ks

section Steps

/-- 1 while an entry is claimed for a `sendto` that is to come. -/
def State.pending (s : State) : Nat := if s.sendPc = .sendto then 1 else 0

theorem attempted_append (tr tr' : List Event) :
    attempted (tr ++ tr') = attempted tr + attempted tr' := by
  simp only [attempted, List.count_append]
  omega

theorem attempted_send (s : State) (c : SendChoice) (s' : State) :
    attempted (events s (.send c) s') = s.pending := by
  rw [events, State.pending]
  split
  · split <;> rfl
  · rfl

theorem attempted_recv (s : State) (c : RecvChoice) (s' : State) :
    attempted (events s (.recv c) s') = 0 := by
  rw [events]
  split
  · split <;> rfl
  · rfl

theorem unpacked_pingpacket (s : State) (size : Int) (now : Timeval) :
    (unpacked s size now).pingpacket = s.pingpacket := by
  rw [unpacked]
  cases hunpack : icmpUnpack s size now with
  | none => rfl
  | some found =>
    obtain ⟨packet, hpacket, hfree⟩ := icmpUnpack_some hunpack
    apply modify_eq_self hpacket
    rw [← hfree]

/-- Only the claiming of an entry changes the table. -/
theorem Step.records {s s' : State} {l : Label} (h : Step s l s') :
    (∃ c, l = .send c ∧ s.sendPc = .record ∧ s' = Ping.record s c.now) ∨
      (s'.pingpacket = s.pingpacket ∧ attempted (events s l s') + s'.pending = s.pending) := by
  cases h with
  | @record c hpc => exact .inl ⟨c, rfl, hpc, rfl⟩
  | start | sendFailed | sent | count =>
    exact .inr ⟨rfl, by rw [attempted_send]; rfl⟩
  | testSend hpc =>
    refine .inr ⟨rfl, ?_⟩
    rw [attempted_send]
    cases s.alive <;> simp [State.pending]
  | unpack =>
    refine .inr ⟨unpacked_pingpacket _ _ _, ?_⟩
    rw [attempted_recv, State.pending, State.pending, (unpacked_frame s _ _).2.1, Nat.zero_add]
  | testRecv | select | recvFailed | received =>
    exact .inr ⟨rfl, by rw [attempted_recv, Nat.zero_add]; rfl⟩
  | sigint => exact .inr ⟨rfl, Nat.zero_add _⟩

end Steps

section Table

def claims (tr : List Event) (s : State) : Nat := attempted tr + s.pending

structure Filled (tr : List Event) (s : State) : Prop where
  length : s.pingpacket.length = 128
  flag : ∀ i p, s.pingpacket[i]? = some p → p.flag = if i < claims tr s then 1 else 0

variable {tr : List Event} {s : State}

theorem Filled.find (hf : Filled tr s) {i : Nat}
    (hi : icmpFindpacket s.pingpacket (-1) = some i) : i = claims tr s := by
  rw [icmpFindpacket_eq, List.findIdx?_eq_some_iff_getElem] at hi
  obtain ⟨hlt, hfree, hbefore⟩ := hi
  have hflag := hf.flag i _ (List.getElem?_eq_getElem hlt)
  rw [of_decide_eq_true hfree] at hflag
  rcases Nat.lt_trichotomy i (claims tr s) with hclaimed | heq | hlater
  · rw [if_pos hclaimed] at hflag
    cases hflag
  · exact heq
  · have hfirst := hf.flag _ _ (List.getElem?_eq_getElem (hlater.trans hlt))
    rw [if_neg (Nat.lt_irrefl _)] at hfirst
    exact absurd (decide_eq_true hfirst) (hbefore _ hlater)

theorem Filled.full (hf : Filled tr s) (hnone : icmpFindpacket s.pingpacket (-1) = none) :
    128 ≤ claims tr s := by
  by_contra hlt
  have hin : claims tr s < s.pingpacket.length := by
    rw [hf.length]
    omega
  have hflag := hf.flag _ _ (List.getElem?_eq_getElem hin)
  rw [if_neg (Nat.lt_irrefl _)] at hflag
  obtain ⟨i, hi⟩ := (exists_free (-1)).mp ⟨_, List.getElem_mem hin, hflag⟩
  rw [hnone] at hi
  cases hi

theorem claims_record (hpc : s.sendPc = .record) (now : Timeval) :
    claims tr (record s now) = claims tr s + 1 := by
  have hnext : (record s now).pending = 1 := by
    rw [record]
    split <;> rfl
  have hnow : s.pending = 0 := by simp [State.pending, hpc]
  rw [claims, claims, hnext, hnow]

theorem Filled.record (hf : Filled tr s) (hpc : s.sendPc = .record) (now : Timeval) :
    Filled tr (record s now) := by
  cases hfound : icmpFindpacket s.pingpacket (-1) with
  | none =>
    have hsame : (Ping.record s now).pingpacket = s.pingpacket := by
      rw [Ping.record, hfound]
    constructor
    · rw [hsame, hf.length]
    · intro i p hp
      rw [hsame] at hp
      have hlt : i < 128 := hf.length ▸ (List.getElem?_eq_some_iff.mp hp).1
      have hfull := hf.full hfound
      rw [hf.flag i p hp, claims_record hpc, if_pos (by omega), if_pos (by omega)]
  | some n =>
    have hn := hf.find hfound
    have hset : (Ping.record s now).pingpacket = s.pingpacket.modify n fun packet =>
        { packet with seq := s.packetSend, flag := 1, tvBegin := now } := by
      rw [Ping.record, hfound]
    constructor
    · rw [hset, List.length_modify, hf.length]
    · intro i p hp
      rw [hset, List.getElem?_modify] at hp
      obtain ⟨q, hq, rfl⟩ := Option.map_eq_some_iff.mp hp
      have hflag := hf.flag i q hq
      rw [claims_record hpc]
      split
      next heq => rw [if_pos (by omega)]
      next hne =>
        rw [hflag]
        split <;> split <;> first | rfl | omega

theorem Filled.step {s' : State} {l : Label} (hf : Filled tr s) (h : Step s l s') :
    Filled (tr ++ events s l s') s' := by
  rcases h.records with ⟨c, rfl, hpc, rfl⟩ | ⟨htable, hpending⟩
  · have hnothing : events s (.send c) (Ping.record s c.now) = [] := by
      simp [events, hpc]
    rw [hnothing, List.append_nil]
    exact hf.record hpc _
  · have hclaims : claims (tr ++ events s l s') s' = claims tr s := by
      rw [claims, attempted_append, claims]
      omega
    exact ⟨htable ▸ hf.length, fun i p hp => hclaims ▸ hf.flag i p (htable ▸ hp)⟩

theorem exec_filled {c : Start} {ls : List Label} (hrun : Run.exec step (start c) ls = some s) :
    Filled (Run.trace step events (start c) ls) s := by
  refine Run.trace_invariant (P := fun _ _ _ => True) (I := Filled) events ?_ [] ?_
    (Run.always_true _ _) hrun
  · exact fun tr m l m' hm hs _ => hm.step (step_cases hs)
  · refine ⟨List.length_replicate, fun i p hp => ?_⟩
    rw [List.eq_of_mem_replicate (List.mem_of_getElem? hp)]
    rfl

end Table

section Numbers

structure Numbered (tr : List Event) (s : State) : Prop where
  seq : ∀ i p, s.pingpacket[i]? = some p → i < claims tr s → p.seq = BitVec.ofNat 16 i
  sent : min 128 (attempted tr) ≤ tr.count .sent

variable {tr : List Event} {s : State}

theorem Numbered.record (hn : Numbered tr s) (hf : Filled tr s)
    (hsent : s.sent = BitVec.ofNat 16 (tr.count .sent)) (hpc : s.sendPc = .record)
    (now : Timeval) : Numbered tr (record s now) := by
  refine ⟨fun i p hp hi => ?_, hn.sent⟩
  rw [claims_record hpc] at hi
  cases hfound : icmpFindpacket s.pingpacket (-1) with
  | none =>
    have hsame : (Ping.record s now).pingpacket = s.pingpacket := by
      rw [Ping.record, hfound]
    rw [hsame] at hp
    have hlt : i < 128 := hf.length ▸ (List.getElem?_eq_some_iff.mp hp).1
    exact hn.seq i p hp (hlt.trans_le (hf.full hfound))
  | some n =>
    have hset : (Ping.record s now).pingpacket = s.pingpacket.modify n fun packet =>
        { packet with seq := s.packetSend, flag := 1, tvBegin := now } := by
      rw [Ping.record, hfound]
    have hfind := hf.find hfound
    rw [hset, List.getElem?_modify] at hp
    obtain ⟨q, hq, rfl⟩ := Option.map_eq_some_iff.mp hp
    split
    next heq =>
      have hlt : i < 128 := hf.length ▸ (List.getElem?_eq_some_iff.mp hq).1
      have hcount : tr.count .sent = i := by
        have hle := hn.sent
        have hidle : s.pending = 0 := by simp [State.pending, hpc]
        rw [claims, hidle] at hfind
        rw [attempted] at hle hfind
        omega
      rw [← hcount, ← hsent, State.sent, hpc]
      exact (BitVec.add_zero _).symm
    next hne => exact hn.seq i q hq (by omega)

theorem Numbered.step {s' : State} {l : Label} (hn : Numbered tr s) (hf : Filled tr s)
    (hsent : s.sent = BitVec.ofNat 16 (tr.count .sent)) (h : Step s l s')
    (hearly : ∀ c, l = .send c → s.sendPc = .sendto → c.size < 0 → 128 ≤ attempted tr) :
    Numbered (tr ++ events s l s') s' := by
  rcases h.records with ⟨c, rfl, hpc, rfl⟩ | ⟨htable, hpending⟩
  · have hnothing : events s (.send c) (Ping.record s c.now) = [] := by
      simp [events, hpc]
    rw [hnothing, List.append_nil]
    exact hn.record hf hsent hpc _
  · have hclaims : claims (tr ++ events s l s') s' = claims tr s := by
      rw [claims, attempted_append, claims]
      omega
    refine ⟨fun i p hp hi => hn.seq i p (htable ▸ hp) (hclaims ▸ hi), ?_⟩
    have hcount := hn.sent
    rw [attempted_append, List.count_append]
    cases l with
    | send c =>
      rw [attempted_send, State.pending, events]
      split
      next hpc =>
        by_cases hfail : c.size < 0
        · have hlate := hearly c rfl hpc hfail
          omega
        · simp only [hfail, if_false, List.count_singleton_self]
          omega
      next => simpa using hcount
    | recv c =>
      rw [attempted_recv, count_sent_recv]
      omega
    | sigint now => simpa [events, attempted] using hcount

theorem EarlySendsSucceed.before {c : Start} {ks ms : List Label}
    (hearly : EarlySendsSucceed c (ks ++ ms)) : EarlySendsSucceed c ks := by
  intro ls choice rest m heq
  exact hearly ls choice (rest ++ ms) m (by rw [heq, List.append_assoc, List.cons_append])

theorem exec_numbered {c : Start} {ls : List Label} (hearly : EarlySendsSucceed c ls)
    (hrun : Run.exec step (start c) ls = some s) :
    Numbered (Run.trace step events (start c) ls) s := by
  refine Run.history_invariant (I := fun ls s => EarlySendsSucceed c ls →
    Numbered (Run.trace step events (start c) ls) s) ?_ ?_ hrun hearly
  · exact fun _ => ⟨fun i p hp hi => absurd hi (Nat.not_lt_zero i), Nat.zero_le _⟩
  · intro ls l m m' hm ih hm' hearly
    rw [Run.trace_append hm]
    have hnext := (ih hearly.before).step (exec_filled hm) (exec_counters hm).1
      (step_cases hm') fun c hc hpc hfail => hearly ls c [] m (by rw [hc]) hm hpc hfail
    simpa [Run.trace, hm'] using hnext

end Numbers

section Buffer

theorem icmpPack_some (pid seq : BitVec 32) {buf : List (BitVec 8)} (hbuf : buf.length = buffsize) :
    ∃ request, icmpPack pid buf seq 64 = some request ∧ request.length = buffsize := by
  have hlength : ∀ icmpCksum, (message buf pid seq 64 icmpCksum).length = buffsize := by
    intro icmpCksum
    simp [message, icmpHeader, u16, icmpData, hbuf, buffsize]
  rw [icmpPack_eq pid seq 64 (by rw [hbuf]; decide),
    ← List.take_append_drop 64 (message buf pid seq 64 0), crc16Modbus_eq]
  · exact ⟨_, rfl, hlength _⟩
  · rw [List.length_take, hlength]
    rfl

theorem step_sendBuff {s s' : State} {l : Label} (hbuf : s.sendBuff.length = buffsize)
    (h : step s l = some s') : s'.sendBuff.length = buffsize := by
  by_cases hsendto : ∃ c, l = .send c ∧ s.sendPc = .sendto
  · obtain ⟨c, rfl, hpc⟩ := hsendto
    obtain ⟨request, hpack, hlength⟩ := icmpPack_some s.pid (s.packetSend.signExtend 32) hbuf
    simp only [step, icmpSend, hpc, hpack, Option.map_some, Option.some_inj] at h
    rw [← h]
    split <;> exact hlength
  · cases step_cases h with
    | sendFailed hpc | sent hpc => exact absurd ⟨_, rfl, hpc⟩ hsendto
    | record => rw [(record_frame s _).2, hbuf]
    | unpack => rw [(unpacked_frame s _ _).2.2.2, hbuf]
    | _ => exact hbuf

theorem exec_sendBuff {c : Start} {ls : List Label} {s : State}
    (hrun : Run.exec step (start c) ls = some s) : s.sendBuff.length = buffsize :=
  Run.invariant (I := fun s => s.sendBuff.length = buffsize) (fun _ _ _ => step_sendBuff)
    List.length_replicate hrun

end Buffer

section Rounds

variable {c : Start} {s s' m : State} {l : Label}

theorem Step.frame (h : Step s l s') (hl : l.isSend = false) :
    s'.packetSend = s.packetSend ∧ s'.pingpacket = s.pingpacket ∧ s'.sendPc = s.sendPc := by
  cases h with
  | unpack =>
    obtain ⟨-, hpc, hsend, -⟩ := unpacked_frame s _ _
    exact ⟨hsend, unpacked_pingpacket _ _ _, hpc⟩
  | testRecv | select | recvFailed | received | sigint => exact ⟨rfl, rfl, rfl⟩
  | _ => cases hl

theorem exec_frame {ms : List Label} (hms : ∀ l ∈ ms, l.isSend = false)
    (hrun : Run.exec step s ms = some m) :
    m.packetSend = s.packetSend ∧ m.pingpacket = s.pingpacket ∧ m.sendPc = s.sendPc := by
  refine Run.invariant_of_always (P := fun _ l _ => l.isSend = false)
    (I := fun n => n.packetSend = s.packetSend ∧ n.pingpacket = s.pingpacket ∧
      n.sendPc = s.sendPc) ?_ ⟨rfl, rfl, rfl⟩ (Run.always_of_mem (fun l hl _ _ => hms l hl) s) hrun
  intro n k n' hn hs hk
  obtain ⟨hpacketSend, htable, hpc⟩ := (step_cases hs).frame hk
  exact ⟨hpacketSend.trans hn.1, htable.trans hn.2.1, hpc.trans hn.2.2⟩

theorem attempted_trace {ms : List Label} (hms : ∀ l ∈ ms, l.isSend = false) (s : State) :
    attempted (Run.trace step events s ms) = 0 := by
  induction ms generalizing s with
  | nil => rfl
  | cons l ms ih =>
    rw [Run.trace]
    split
    · rfl
    next n hn =>
      rw [attempted_append, ih (fun k hk => hms k (List.mem_cons_of_mem l hk)) n, Nat.add_zero]
      cases l with
      | send => cases hms _ List.mem_cons_self
      | recv => exact attempted_recv _ _ _
      | sigint => rfl

theorem Step.entering (h : Step s l s') (hpc : s'.sendPc = .sendto) :
    (∃ c, l = .send c ∧ s.sendPc = .record) ∨ (l.isSend = false ∧ s.sendPc = .sendto) := by
  cases hl : l.isSend with
  | false => exact .inr ⟨rfl, (h.frame hl).2.2.symm.trans hpc⟩
  | true =>
    cases h with
    | record hrecord => exact .inl ⟨_, rfl, hrecord⟩
    | testSend =>
      dsimp only at hpc
      split at hpc <;> cases hpc
    | start | sendFailed | sent | count => cases hpc
    | _ => cases hl

theorem exists_round {ls : List Label} (hrun : Run.exec step (start c) ls = some m)
    (hpc : m.sendPc = .sendto) :
    ∃ ks first ms s, ls = ks ++ .send first :: ms ∧ Run.exec step (start c) ks = some s ∧
      s.sendPc = .record ∧ (∀ l ∈ ms, l.isSend = false) ∧
      Run.exec step s (.send first :: ms) = some m := by
  refine Run.history_invariant (I := fun ls m => m.sendPc = .sendto → ∃ ks first ms s,
    ls = ks ++ .send first :: ms ∧ Run.exec step (start c) ks = some s ∧ s.sendPc = .record ∧
      (∀ l ∈ ms, l.isSend = false) ∧ Run.exec step s (.send first :: ms) = some m) ?_ ?_ hrun hpc
  · exact fun hpc => by cases hpc
  · intro ls l n m hn ih hm hpc
    have hlast : Run.exec step n [l] = some m := Run.exec_cons.mpr ⟨m, hm, rfl⟩
    rcases (step_cases hm).entering hpc with ⟨first, rfl, hrecord⟩ | ⟨hl, hsendto⟩
    · exact ⟨ls, first, [], n, rfl, hn, hrecord, fun l hl => (List.not_mem_nil hl).elim, hlast⟩
    · obtain ⟨ks, first, ms, s, rfl, hs, hrecord, hms, hround⟩ := ih hsendto
      refine ⟨ks, first, ms ++ [l], s, by simp, hs, hrecord, ?_, ?_⟩
      · intro k hk
        rcases List.mem_append.mp hk with hk | hk
        · exact hms k hk
        · exact List.mem_singleton.mp hk ▸ hl
      · rw [← List.cons_append]
        exact Run.exec_append.mpr ⟨n, hround, hlast⟩

theorem attempts_round {ks ms : List Label} {first : SendChoice} (hms : ∀ l ∈ ms, l.isSend = false)
    (hs : Run.exec step (start c) ks = some s) (hpc : s.sendPc = .record) :
    attempts c (ks ++ .send first :: ms) = attempts c ks := by
  rw [attempts, Run.trace_append hs, attempted_append, attempts, Run.trace]
  split
  · rfl
  next n hn =>
    rw [attempted_append, attempted_send, attempted_trace hms, State.pending, hpc]
    rfl

end Rounds

section Harmless

variable {c : Start} {ls : List Label} {s : State}

theorem record_of_full {tr : List Event} (hf : Filled tr s) (hfull : 128 ≤ claims tr s)
    (now : Timeval) : record s now = { s with sendPc := .sendto } := by
  cases hfound : icmpFindpacket s.pingpacket (-1) with
  | none => rw [record, hfound]
  | some i =>
    obtain ⟨packet, hpacket, -⟩ := icmpFindpacket_some hfound
    have hlt : i < 128 := hf.length ▸ (List.getElem?_eq_some_iff.mp hpacket).1
    rw [hf.find hfound] at hlt
    omega

/-- A round that fails finds the table full. -/
theorem EarlySendsSucceed.harmless (hearly : EarlySendsSucceed c ls) : FailuresHarmless c ls := by
  intro ks first ms choice rest s s' heq hs hpc hms hround hfail
  obtain ⟨m, hm, hlast⟩ := Run.exec_append.mp hround
  obtain ⟨s₁, hs₁, hwait⟩ := Run.exec_cons.mp hm
  obtain ⟨s₂, hs₂, hend⟩ := Run.exec_cons.mp hlast
  cases hend
  obtain ⟨hpacketSend, htable, hsendPc⟩ := exec_frame hms hwait
  have hrecord : s₁ = record s first.now := by
    simp only [step, icmpSend, hpc, Option.some_inj] at hs₁
    exact hs₁.symm
  have hsendto : m.sendPc = .sendto := by
    rw [hsendPc, hrecord, record]
    split <;> rfl
  have hlate : 128 ≤ attempts c ks := by
    rw [← attempts_round hms hs hpc]
    exact hearly (ks ++ .send first :: ms) choice rest m heq (Run.exec_append.mpr ⟨s, hs, hm⟩)
      hsendto hfail
  rw [record_of_full (exec_filled hs) (Nat.le_add_right_of_le hlate)] at hrecord
  have hkept : s'.packetSend = m.packetSend ∧ s'.pingpacket = m.pingpacket := by
    cases step_cases hs₂ with
    | sendFailed => exact ⟨rfl, rfl⟩
    | start hother | testSend hother | record hother | count hother =>
      rw [hsendto] at hother
      cases hother
    | sent _ hsize => omega
  rw [State.claimed, State.claimed, hkept.1, hkept.2, hpacketSend, htable, hrecord]
  exact ⟨rfl, rfl⟩

theorem mem_claimed {tr : List Event} (hf : Filled tr s) {i : Nat} {p : PingmPacket}
    (hp : (i, p) ∈ s.claimed) : i < 128 ∧ i < claims tr s := by
  obtain ⟨hentry, hflag⟩ := hp
  refine ⟨hf.length ▸ (List.getElem?_eq_some_iff.mp hentry).1, ?_⟩
  by_contra hfree
  have hzero := hf.flag i p hentry
  rw [if_neg hfree, hflag] at hzero
  cases hzero

theorem Numbered.distinct {tr : List Event} (hn : Numbered tr s) (hf : Filled tr s)
    (hsent : s.sent = BitVec.ofNat 16 (tr.count .sent)) (hfew : tr.count .sent < 32768) :
    Distinct s := by
  have hseq : ∀ i p, (i, p) ∈ s.claimed → p.seq.toNat = i := by
    intro i p hp
    obtain ⟨htable, hclaims⟩ := mem_claimed hf hp
    rw [hn.seq i p hp.1 hclaims, BitVec.toNat_ofNat]
    omega
  constructor
  · intro i j p q hp hq heq
    rw [← hseq i p hp, ← hseq j q hq, heq]
  · intro hsendto hcount i p hp
    obtain ⟨htable, hclaims⟩ := mem_claimed hf hp
    have hcounted : s.packetSend.toNat = tr.count .sent := by
      have heq : s.sent = s.packetSend := by simp [State.sent, hcount]
      rw [← heq, hsent, BitVec.toNat_ofNat]
      omega
    have hidle : s.pending = 0 := by simp [State.pending, hsendto]
    have hmany := hn.sent
    rw [claims, hidle] at hclaims
    rw [BitVec.toInt_eq_toNat_of_lt (by rw [hseq i p hp]; omega),
      BitVec.toInt_eq_toNat_of_lt (by omega), hseq i p hp, hcounted]
    omega

theorem FailuresHarmless.early (hharmless : FailuresHarmless c ls) : EarlySendsSucceed c ls := by
  intro ks choice rest m heq hm hpc hfail
  obtain ⟨ks, first, ms, s, rfl, hs, hrecord, hms, hround⟩ := exists_round hm hpc
  rw [attempts_round hms hs hrecord]
  by_contra hfew
  obtain ⟨request, hpack, -⟩ :=
    icmpPack_some m.pid (m.packetSend.signExtend 32) (exec_sendBuff hm)
  have hs' : step m (.send choice) = some { m with sendBuff := request, sendPc := .test } := by
    simp only [step, icmpSend, hpc, hpack, Option.map_some, if_pos hfail]
  have hlast : Run.exec step m [.send choice] =
      some { m with sendBuff := request, sendPc := .test } :=
    Run.exec_cons.mpr ⟨_, hs', Run.exec_nil _⟩
  have hsame := (hharmless ks first ms choice rest s _ heq hs hrecord hms
    (Run.exec_append.mpr ⟨m, hround, hlast⟩) hfail).2
  have hend := exec_filled (Run.exec_append.mpr ⟨m, hm, hlast⟩)
  have hclaims : attempts c ks < attempted (Run.trace step events (start c)
      (ks ++ .send first :: ms ++ [.send choice])) := by
    rw [Run.trace_append hm, attempted_append, ← attempts, attempts_round hms hs hrecord,
      Run.trace, hs']
    dsimp only
    rw [attempted_append, attempted_send, State.pending, if_pos hpc]
    omega
  -- the entry that the failed round has claimed is new
  have hentry := List.getElem?_eq_getElem (hend.length ▸ Nat.not_le.mp hfew)
  have hnew : (attempts c ks, _) ∈ State.claimed _ :=
    ⟨hentry, (hend.flag _ _ hentry).trans (if_pos (Nat.lt_add_right _ hclaims))⟩
  rw [hsame] at hnew
  have hold := (mem_claimed (exec_filled hs) hnew).2
  rw [claims, State.pending, hrecord] at hold
  exact Nat.lt_irrefl _ hold

end Harmless

/-- While the first 128 calls of `sendto` succeed, and only then, a call that fails does no
harm. -/
theorem failed_sends_harmless_iff (c : Start) (ls : List Label) :
    (FailuresHarmless c ls ∧ ∀ ks ms s, ls = ks ++ ms → Run.exec step (start c) ks = some s →
        occurrences c ks .sent < 32768 → Distinct s) ↔
      EarlySendsSucceed c ls := by
  constructor
  · exact fun h => h.1.early
  · intro hearly
    refine ⟨hearly.harmless, ?_⟩
    rintro ks ms s rfl hs hfew
    exact (exec_numbered hearly.before hs).distinct (exec_filled hs) (exec_counters hs).1 hfew

def sendFails : Label := .send ⟨⟨1, 0⟩, -1⟩

def unsentPacket : PingmPacket := ⟨⟨1, 0⟩, ⟨0, 0⟩, 0, 1⟩

/-- The first `sendto` fails, and request 0 has a second entry when it is sent at last. -/
theorem failed_send_claims_entry :
    ∃ s s' t, Run.exec step (start loopback) (sendSteps 2) = some s ∧ s.sendPc = .record ∧
      Run.exec step s (sendSteps 1 ++ [sendFails]) = some s' ∧
      Run.exec step s' (sendSteps 4) = some t ∧ s.flagged = [] ∧
      s'.flagged.map PingmPacket.seq = [0] ∧ t.flagged.map PingmPacket.seq = [0, 0] ∧
      ¬FailuresHarmless loopback (sendSteps 3 ++ [sendFails]) := by
  obtain ⟨s, hs, hcond⟩ : ∃ s, Run.exec step (start loopback) (sendSteps 2) = some s ∧
      decide (s.sendPc = .record ∧ s.flagged = [] ∧ s.pingpacket[0]? = some zeroPacket ∧
        ∃ s' ∈ Run.exec step s (sendSteps 1 ++ [sendFails]),
          s'.flagged.map PingmPacket.seq = [0] ∧
          s'.pingpacket[0]? = some unsentPacket ∧
          ∃ t ∈ Run.exec step s' (sendSteps 4), t.flagged.map PingmPacket.seq = [0, 0]) = true :=
    (Option.any_eq_true _ _).mp (by decide +kernel)
  obtain ⟨hpc, hnone, hfree, s', hs', hone, hclaimed, t, ht, htwice⟩ := of_decide_eq_true hcond
  refine ⟨s, s', t, hs, hpc, hs', ht, hnone, hone, htwice, fun hharmless => ?_⟩
  have hsame := (hharmless (sendSteps 2) ⟨⟨1, 0⟩, 64⟩ [] ⟨⟨1, 0⟩, -1⟩ [] s s' rfl hs hpc
    (fun l hl => (List.not_mem_nil hl).elim) hs' (by decide)).2
  have hmem : (0, unsentPacket) ∈ s'.claimed := ⟨hclaimed, rfl⟩
  rw [hsame] at hmem
  cases hfree.symm.trans hmem.1

end LearnCLinux.SocketRaw.Ping
