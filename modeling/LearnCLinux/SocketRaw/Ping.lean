import LearnCLinux.SocketRaw.Crc
import LearnCLinux.Library.Run

/-! `ping.c`: the globals its two threads share, and one definition per function.  A call of
`icmp_findpacket` with the writes behind it is one step, and so is a call of `icmp_unpack`. -/

namespace LearnCLinux.SocketRaw.Ping

structure Timeval where
  tvSec : Int
  tvUsec : Int
  deriving DecidableEq

def icmpTvsub (tvEnd tvBegin : Timeval) : Timeval :=
  let tv : Timeval := ⟨tvEnd.tvSec - tvBegin.tvSec, tvEnd.tvUsec - tvBegin.tvUsec⟩
  if tv.tvUsec < 0 then ⟨tv.tvSec - 1, tv.tvUsec + 1000000⟩ else tv

structure SockaddrIn where
  sinFamily : BitVec 16
  sinPort : BitVec 16
  sinAddr : BitVec 32
  deriving DecidableEq

def afInet : BitVec 16 := 2

structure PingmPacket where
  tvBegin : Timeval
  tvEnd : Timeval
  seq : BitVec 16
  flag : Int
  deriving DecidableEq

def zeroPacket : PingmPacket := ⟨⟨0, 0⟩, ⟨0, 0⟩, 0, 0⟩

section Lookup

/-- The value of the expression `x = value`. -/
def assigned (_ value : BitVec 32) : BitVec 32 := value

/-- `icmp_findpacket`, which compares by `if(seq = -1)`. -/
def icmpFindpacket (pingpacket : List PingmPacket) (seq : BitVec 32) : Option Nat :=
  let seq := assigned seq (-1)
  if seq ≠ 0 then pingpacket.findIdx? fun p => p.flag = 0
  else if 0 ≤ seq.toInt then pingpacket.findIdx? fun p => p.seq.signExtend 32 = seq
  else none

end Lookup

section Packets

def k : Nat := 1024
def buffsize : Nat := 72

def icmpEcho : BitVec 8 := 8
def icmpEchoreply : BitVec 8 := 0

/-- A field of type `u_int16_t` in the byte order of the host. -/
def setU16 (buf : List (BitVec 8)) (i : Nat) (v : BitVec 16) : List (BitVec 8) :=
  (buf.set i (v.setWidth 8)).set (i + 1) ((v >>> 8).setWidth 8)

def getU16 (buf : List (BitVec 8)) (i : Nat) : BitVec 16 :=
  buf.getD (i + 1) 0 ++ buf.getD i 0

/-- The message `icmp_pack` builds in `*icmph`; `none` where `CRC16_MODBUS` reads past it. -/
def icmpPack (pid : BitVec 32) (icmph : List (BitVec 8)) (seq : BitVec 32) (length : BitVec 32) :
    Option (List (BitVec 8)) :=
  let icmph := (icmph.set 0 icmpEcho).set 1 0
  let icmph := setU16 icmph 2 0
  let icmph := setU16 icmph 6 (seq.setWidth 16)
  let icmph := setU16 icmph 4 ((pid &&& 0xffff).setWidth 16)
  let icmph := (List.range length.toNat).foldl
    (fun icmph i => icmph.set (8 + i) (BitVec.ofNat 8 i)) icmph
  (crc16Modbus icmph length).map (setU16 icmph 2)

structure Report where
  len : Int
  ipSrc : List (BitVec 8)
  icmpSeq : BitVec 16
  ipTtl : BitVec 8
  rtt : BitVec 32
  deriving DecidableEq

end Packets

inductive SendPc : Type
  | start
  | test
  | record
  | sendto
  | count
  | returned
  deriving DecidableEq

inductive RecvPc : Type
  | test
  | select
  | recvfrom
  | unpack (size : Int)
  | returned
  deriving DecidableEq

structure State where
  sendBuff : List (BitVec 8)
  recvBuff : List (BitVec 8)
  dest : SockaddrIn
  pid : BitVec 32
  alive : Bool
  packetSend : BitVec 16
  packetRecv : BitVec 16
  tvEnd : Timeval
  tvBegin : Timeval
  tvInterval : Timeval
  pingpacket : List PingmPacket
  sendPc : SendPc
  recvPc : RecvPc
  /-- A history variable: the requests sent and not yet answered.  No step reads it. -/
  outstanding : List (BitVec 16)
  deriving DecidableEq

def inaddrNone : BitVec 32 := 0xffffffff

/-- What `getuid` and `inet_addr` returned, and for an argument that is a name the pointer
`host->h_addr_list[0]` with the address behind it. -/
structure Start where
  pid : BitVec 32
  inaddr : BitVec 32
  hAddr : BitVec 64
  address : BitVec 32

def Start.resolved (c : Start) : BitVec 32 :=
  if c.inaddr = inaddrNone then c.address else c.inaddr

/-- What `main` copies to `dest.sin_addr`: of a name not the address, but the first four bytes of
the pointer to it. -/
def Start.sinAddr (c : Start) : BitVec 32 :=
  if c.inaddr = inaddrNone then c.hAddr.setWidth 32 else c.inaddr

def start (c : Start) : State where
  sendBuff := List.replicate buffsize 0
  recvBuff := List.replicate (2 * k) 0
  dest := ⟨afInet, 0, c.sinAddr⟩
  pid := c.pid
  alive := true
  packetSend := 0
  packetRecv := 0
  tvEnd := ⟨0, 0⟩
  tvBegin := ⟨0, 0⟩
  tvInterval := ⟨0, 0⟩
  pingpacket := List.replicate 128 zeroPacket
  sendPc := .start
  recvPc := .test
  outstanding := []

section Receive

variable (s : State)

def iphdrlen : Nat := ((s.recvBuff.getD 0 0) &&& 0x0f).toNat * 4

def icmpSeq : BitVec 16 := getU16 s.recvBuff (iphdrlen s + 6)

def isEchoReply (len : Int) : Bool :=
  8 ≤ len - iphdrlen s && s.recvBuff.getD (iphdrlen s) 0 = icmpEchoreply &&
    (getU16 s.recvBuff (iphdrlen s + 4)).setWidth 32 = s.pid

def rtt (tvRecv tvSend : Timeval) : BitVec 32 :=
  let tvInternel := icmpTvsub tvRecv tvSend
  BitVec.ofInt 32 (tvInternel.tvSec * 1000 + tvInternel.tvUsec.tdiv 1000)

/-- `icmp_unpack`: the entry it selects and what it prints, `none` where it returns -1. -/
def icmpUnpack (len : Int) (tvRecv : Timeval) : Option (Nat × Report) :=
  if isEchoReply s len then
    (icmpFindpacket s.pingpacket ((icmpSeq s).setWidth 32)).bind fun i =>
      s.pingpacket[i]?.map fun packet =>
        (i,
          { len := len - iphdrlen s
            ipSrc := (s.recvBuff.drop 12).take 4
            icmpSeq := icmpSeq s
            ipTtl := s.recvBuff.getD 8 0
            rtt := rtt tvRecv packet.tvBegin })
  else none

/-- The state behind the call.  The lookup, the reads of the entry it finds and the stores to it are
taken together: no step of `icmp_send` comes between them. -/
def unpacked (len : Int) (tvRecv : Timeval) : State :=
  match icmpUnpack s len tvRecv with
  | none => { s with recvPc := .test }
  | some (i, _) => { s with
    pingpacket := s.pingpacket.modify i fun packet => { packet with flag := 0 }
    packetRecv := s.packetRecv + 1
    outstanding := s.outstanding.erase (icmpSeq s)
    recvPc := .test }

theorem unpacked_frame (len : Int) (tvRecv : Timeval) :
    (unpacked s len tvRecv).dest = s.dest ∧ (unpacked s len tvRecv).sendPc = s.sendPc ∧
      (unpacked s len tvRecv).packetSend = s.packetSend ∧
        (unpacked s len tvRecv).sendBuff = s.sendBuff := by
  rw [unpacked]
  split <;> exact ⟨rfl, rfl, rfl, rfl⟩

end Receive

/-- What the surroundings decide in a step of `icmp_send`: the time, and what `sendto` returns. -/
structure SendChoice where
  now : Timeval
  size : Int
  deriving DecidableEq

structure Datagram where
  source : SockaddrIn
  bytes : List (BitVec 8)
  deriving DecidableEq

/-- What the surroundings decide in a step of `icmp_recv`: the time, what `select` returns, and
what `recvfrom` delivers. -/
structure RecvChoice where
  now : Timeval
  ready : Int
  datagram : Option Datagram
  deriving DecidableEq

/-- `packet = icmp_findpacket(-1)` and what is stored in `*packet`. -/
def record (s : State) (now : Timeval) : State :=
  match icmpFindpacket s.pingpacket (-1) with
  | none => { s with sendPc := .sendto }
  | some i => { s with
    pingpacket := s.pingpacket.modify i fun packet =>
      { packet with seq := s.packetSend, flag := 1, tvBegin := now }
    sendPc := .sendto }

theorem record_frame (s : State) (now : Timeval) :
    (record s now).dest = s.dest ∧ (record s now).sendBuff = s.sendBuff := by
  rw [record]
  split <;> exact ⟨rfl, rfl⟩

def icmpSend (s : State) (c : SendChoice) : Option State :=
  match s.sendPc with
  | .start => some { s with tvBegin := c.now, sendPc := .test }
  | .test => some { s with sendPc := if s.alive then .record else .returned }
  | .record => some (record s c.now)
  | .sendto =>
    (icmpPack s.pid s.sendBuff (s.packetSend.signExtend 32) 64).map fun sendBuff =>
      if c.size < 0 then { s with sendBuff := sendBuff, sendPc := .test }
      else { s with
        sendBuff := sendBuff
        outstanding := s.outstanding ++ [s.packetSend]
        sendPc := .count }
  | .count => some { s with packetSend := s.packetSend + 1, sendPc := .test }
  | .returned => none

/-- `recvfrom` stores the sender's address in `dest`. -/
def recvfrom (s : State) : Option Datagram → Option State
  | none => some { s with recvPc := .test }
  | some d =>
    if d.bytes.length ≤ 2 * k then
      some { s with
        dest := d.source
        recvBuff := d.bytes ++ s.recvBuff.drop d.bytes.length
        recvPc := .unpack d.bytes.length }
    else none

def icmpRecv (s : State) (c : RecvChoice) : Option State :=
  match s.recvPc with
  | .test => some { s with recvPc := if s.alive then .select else .returned }
  | .select => some { s with recvPc := if c.ready = -1 ∨ c.ready = 0 then .test else .recvfrom }
  | .recvfrom => recvfrom s c.datagram
  | .unpack size => some (unpacked s size c.now)
  | .returned => none

def icmpSigint (s : State) (now : Timeval) : State :=
  { s with alive := false, tvEnd := now, tvInterval := icmpTvsub now s.tvBegin }

inductive Label : Type
  | send (c : SendChoice)
  | recv (c : RecvChoice)
  | sigint (now : Timeval)
  deriving DecidableEq

def step (s : State) : Label → Option State
  | .send c => icmpSend s c
  | .recv c => icmpRecv s c
  | .sigint now => some (icmpSigint s now)

section Inversion

inductive Step (s : State) : Label → State → Prop
  | start {c} : s.sendPc = .start → Step s (.send c) { s with tvBegin := c.now, sendPc := .test }
  | testSend {c} : s.sendPc = .test →
      Step s (.send c) { s with sendPc := if s.alive then .record else .returned }
  | record {c} : s.sendPc = .record → Step s (.send c) (record s c.now)
  | sendFailed {c buf} : s.sendPc = .sendto → c.size < 0 →
      Step s (.send c) { s with sendBuff := buf, sendPc := .test }
  | sent {c buf} : s.sendPc = .sendto → 0 ≤ c.size →
      Step s (.send c) { s with
        sendBuff := buf, outstanding := s.outstanding ++ [s.packetSend], sendPc := .count }
  | count {c} : s.sendPc = .count →
      Step s (.send c) { s with packetSend := s.packetSend + 1, sendPc := .test }
  | testRecv {c} : s.recvPc = .test →
      Step s (.recv c) { s with recvPc := if s.alive then .select else .returned }
  | select {c} : s.recvPc = .select → Step s (.recv c)
      { s with recvPc := if c.ready = -1 ∨ c.ready = 0 then .test else .recvfrom }
  | recvFailed {c} : s.recvPc = .recvfrom → c.datagram = none →
      Step s (.recv c) { s with recvPc := .test }
  | received {c d} : s.recvPc = .recvfrom → c.datagram = some d →
      Step s (.recv c) { s with
        dest := d.source
        recvBuff := d.bytes ++ s.recvBuff.drop d.bytes.length
        recvPc := .unpack d.bytes.length }
  | unpack {c size} : s.recvPc = .unpack size → Step s (.recv c) (unpacked s size c.now)
  | sigint {now} : Step s (.sigint now) (icmpSigint s now)

theorem step_cases {s s' : State} {l : Label} (h : step s l = some s') : Step s l s' := by
  cases l with
  | send c =>
    simp only [step, icmpSend] at h
    split at h
    case h_1 hpc => cases h; exact .start hpc
    case h_2 hpc => cases h; exact .testSend hpc
    case h_3 hpc => cases h; exact .record hpc
    case h_4 hpc =>
      obtain ⟨buf, -, rfl⟩ := Option.map_eq_some_iff.mp h
      split
      · next hfail => exact .sendFailed hpc hfail
      · next hsent => exact .sent hpc (Int.not_lt.mp hsent)
    case h_5 hpc => cases h; exact .count hpc
    case h_6 => cases h
  | recv c =>
    simp only [step, icmpRecv] at h
    split at h
    case h_1 hpc => cases h; exact .testRecv hpc
    case h_2 hpc => cases h; exact .select hpc
    case h_3 hpc =>
      unfold recvfrom at h
      split at h
      · next hnone => cases h; exact .recvFailed hpc hnone
      · next hsome =>
        split at h <;> cases h
        exact .received hpc hsome
    case h_4 hpc => cases h; exact .unpack hpc
    case h_5 => cases h
  | sigint now => cases h; exact .sigint

end Inversion

end LearnCLinux.SocketRaw.Ping
