import LearnCLinux.Library.Run
import LearnCLinux.Library.Terminated
import Mathlib.Data.UInt
import Mathlib.Logic.Function.Basic

/-! The echo of `exmaple/UDP`: one server, any number of clients, and other hosts.  A datagram that
has been sent may be received late, twice or not at all. -/

namespace LearnCLinux.Exmaple.Udp

open Terminated

abbrev Address := Nat

structure Datagram where
  src : Address
  dst : Address
  data : List UInt8
  deriving DecidableEq

/-- Where `udpserver_echo` is.  Without a `size` it is -1. -/
inductive Server : Type
  | recvfrom
  | sendto (size : Option Nat) (client : Address)
  deriving DecidableEq

inductive Client : Type
  | sendto
  | recvfrom
  | returned (text : List UInt8)
  deriving DecidableEq

/-- `client` is what the server has in its `client_addr`, and `buf` is its buffer. -/
structure State where
  sent : List Datagram
  server : Server
  client : Address
  buf : List UInt8
  clients : Address → Client

/-- A call fails, or it returns: one that receives gets one of the datagrams sent, by its number.
`behind` is the memory behind the buffer of a client. -/
inductive Event : Type
  | other (d : Datagram)
  | server (i : Option Nat)
  | client (a : Address) (i : Option Nat) (behind : List UInt8)

section Code

variable (server : Address)

/-- `buf` of a client: the array has 1024 bytes. -/
def request : List UInt8 := "UDP TEST".toUTF8.toList ++ List.replicate 1016 0

def received (buf : List UInt8) (d : Datagram) : List UInt8 := overwrite buf 0 (d.data.take 1024)

def udpserverEcho (i : Option Nat) (s : State) : Option State :=
  match s.server with
  | .recvfrom =>
    match i with
    | none => some { s with server := .sendto none s.client }
    | some i => s.sent[i]?.bind fun d =>
      if d.dst = server then
        some { s with
          server := .sendto (some (d.data.take 1024).length) d.src
          client := d.src
          buf := received s.buf d }
      else none
  -- a length of -1 is more than any datagram may have
  | .sendto none _ => some { s with server := .recvfrom }
  | .sendto (some size) client =>
    some { s with
      server := .recvfrom
      sent := if i = none then s.sent else s.sent ++ [⟨server, client, s.buf.take size⟩] }

def udpclieEcho (a : Address) (i : Option Nat) (behind : List UInt8) (s : State) : Option State :=
  match s.clients a with
  | .sendto =>
    some { s with
      clients := Function.update s.clients a .recvfrom
      sent := if i = none then s.sent else s.sent ++ [⟨a, server, request⟩] }
  | .recvfrom =>
    match i with
    | none => (readString (request ++ behind)).map fun text =>
      { s with clients := Function.update s.clients a (.returned text) }
    | some i => s.sent[i]?.bind fun d =>
      if d.dst = a then
        (readString (received request d ++ behind)).map fun text =>
          { s with clients := Function.update s.clients a (.returned text) }
      else none
  | .returned _ => none

def step (s : State) : Event → Option State
  | .other d => if d.src = server then none else some { s with sent := s.sent ++ [d] }
  | .server i => udpserverEcho server i s
  | .client a i behind => if a = server then none else udpclieEcho server a i behind s

/-- Nothing is initialised in the server but its socket. -/
def start (client : Address) (buf : List UInt8) : State :=
  ⟨[], .recvfrom, client, buf, fun _ => .sendto⟩

end Code

section Inversion

variable {server a : Address} {s s' : State} {behind : List UInt8} {i : Option Nat}

theorem udpserverEcho_cases (h : udpserverEcho server i s = some s') :
    (s' = { s with server := .sendto none s.client } ∨
      ∃ d ∈ s.sent, d.dst = server ∧ s' = { s with
        server := .sendto (some (d.data.take 1024).length) d.src
        client := d.src
        buf := received s.buf d }) ∨
    s' = { s with server := .recvfrom } ∨
      ∃ size client, s.server = .sendto (some size) client ∧ s' = { s with
        server := .recvfrom
        sent := s.sent ++ [⟨server, client, s.buf.take size⟩] } := by
  unfold udpserverEcho at h
  split at h
  · left
    split at h
    · exact .inl (Option.some.inj h).symm
    · obtain ⟨d, hd, h⟩ := Option.bind_eq_some_iff.mp h
      split at h
      · next hdst => exact .inr ⟨d, List.mem_of_getElem? hd, hdst, (Option.some.inj h).symm⟩
      · cases h
  · exact .inr (.inl (Option.some.inj h).symm)
  · next size client hserver =>
    right
    cases h
    by_cases hi : i = none
    · rw [if_pos hi]
      exact .inl rfl
    · rw [if_neg hi]
      exact .inr ⟨size, client, hserver, rfl⟩

theorem udpclieEcho_cases (h : udpclieEcho server a i behind s = some s') :
    (∃ client, s' = { s with clients := Function.update s.clients a client } ∧
      (client = .recvfrom ∨ ∃ buf text, readString (buf ++ behind) = some text ∧
        client = .returned text ∧ (buf = request ∨ ∃ d ∈ s.sent, buf = received request d))) ∨
    s' = { s with
      clients := Function.update s.clients a .recvfrom
      sent := s.sent ++ [⟨a, server, request⟩] } := by
  unfold udpclieEcho at h
  split at h
  · cases h
    by_cases hi : i = none
    · rw [if_pos hi]
      exact .inl ⟨_, rfl, .inl rfl⟩
    · rw [if_neg hi]
      exact .inr rfl
  · left
    split at h
    · obtain ⟨text, htext, rfl⟩ := Option.map_eq_some_iff.mp h
      exact ⟨_, rfl, .inr ⟨_, text, htext, rfl, .inl rfl⟩⟩
    · obtain ⟨d, hd, h⟩ := Option.bind_eq_some_iff.mp h
      split at h
      · obtain ⟨text, htext, rfl⟩ := Option.map_eq_some_iff.mp h
        exact ⟨_, rfl, .inr ⟨_, text, htext, rfl, .inr ⟨d, List.mem_of_getElem? hd, rfl⟩⟩⟩
      · cases h
  · cases h

end Inversion

section Echoes

/-- `data` is what the server keeps of a datagram of `a`. -/
def Echoes (server : Address) (sent : List Datagram) (a : Address) (data : List UInt8) : Prop :=
  ∃ e ∈ sent, e.src = a ∧ e.dst = server ∧ data = e.data.take 1024

structure Echoing (server : Address) (s : State) : Prop where
  sent : ∀ d ∈ s.sent, d.src = server → Echoes server s.sent d.dst d.data
  next : ∀ size client, s.server = .sendto (some size) client →
    Echoes server s.sent client (s.buf.take size)

variable {server a : Address} {s s' : State} {sent more : List Datagram} {data behind : List UInt8}
  {i : Option Nat} {e : Event} {es : List Event}

theorem Echoes.append (h : Echoes server sent a data) (more : List Datagram) :
    Echoes server (sent ++ more) a data := by
  obtain ⟨e, he, hrest⟩ := h
  exact ⟨e, List.mem_append_left _ he, hrest⟩

theorem Echoing.send (hs : Echoing server s) {d : Datagram} (hd : d.src ≠ server)
    (hsent : s'.sent = s.sent ++ [d]) (hserver : s'.server = s.server) (hbuf : s'.buf = s.buf) :
    Echoing server s' where
  sent f hf hsrc := by
    rw [hsent] at hf ⊢
    rcases List.mem_append.mp hf with hf | hf
    · exact (hs.sent f hf hsrc).append _
    · cases List.mem_singleton.mp hf
      exact absurd hsrc hd
  next size client h := by
    rw [hsent, hbuf]
    exact (hs.next size client (hserver ▸ h)).append _

theorem Echoing.serverStep (hs : Echoing server s) (h : udpserverEcho server i s = some s') :
    Echoing server s' := by
  obtain (rfl | ⟨d, hd, hdst, rfl⟩) | rfl | ⟨size, client, hserver, rfl⟩ := udpserverEcho_cases h
  · exact ⟨hs.sent, fun _ _ hclient => by cases hclient⟩
  · refine ⟨hs.sent, fun size client h => ?_⟩
    cases h
    refine ⟨d, hd, rfl, hdst, ?_⟩
    rw [received, overwrite, List.take_zero, List.nil_append]
    exact List.take_left' rfl
  · exact ⟨hs.sent, fun _ _ hclient => by cases hclient⟩
  · refine ⟨fun d hd hsrc => ?_, fun _ _ hclient => by cases hclient⟩
    rcases List.mem_append.mp hd with hd | hd
    · exact (hs.sent d hd hsrc).append _
    · cases List.mem_singleton.mp hd
      exact (hs.next size client hserver).append _

theorem Echoing.clientStep (hs : Echoing server s) (ha : a ≠ server)
    (h : udpclieEcho server a i behind s = some s') : Echoing server s' := by
  obtain ⟨client, rfl, -⟩ | rfl := udpclieEcho_cases h
  · exact ⟨hs.sent, hs.next⟩
  · exact hs.send (d := ⟨a, server, request⟩) ha rfl rfl rfl

theorem Echoing.step (hs : Echoing server s) (h : step server s e = some s') :
    Echoing server s' := by
  cases e with
  | other d =>
    rw [Udp.step] at h
    split at h
    · cases h
    · next hd =>
      cases h
      exact hs.send hd rfl rfl rfl
  | server i => exact hs.serverStep h
  | client a i behind =>
    rw [Udp.step] at h
    split at h
    · cases h
    · next ha => exact hs.clientStep ha h

/-- On a network that loses, repeats and reorders, and whoever else sends: each datagram of the server
is the first 1024 bytes of one that its receiver has sent to it. -/
theorem echoes_own {client : Address} {buf : List UInt8}
    (hrun : Run.exec (Udp.step server) (start client buf) es = some s) :
    ∀ d ∈ s.sent, d.src = server → Echoes server s.sent d.dst d.data := by
  have hstart : Echoing server (start client buf) :=
    ⟨fun d hd => by simp [start] at hd, nofun⟩
  exact (Run.invariant (fun _ _ _ hs h => hs.step h) hstart hrun).sent

def cleared : State := start 9 (List.replicate 1024 0)

def echoed : List Event :=
  [.client 1 (some 0) [], .server (some 0), .server (some 0), .client 1 (some 1) []]

theorem echoed_prints : (Run.exec (Udp.step 0) cleared echoed).map (fun s => s.clients 1) =
    some (.returned "UDP TEST".toUTF8.toList) := by
  decide +kernel

theorem echoes_own_echoed : ∃ s, Run.exec (Udp.step 0) cleared echoed = some s ∧
    ∀ d ∈ s.sent, d.src = 0 → Echoes 0 s.sent d.dst d.data := by
  obtain ⟨s, hs, -⟩ := Option.map_eq_some_iff.mp echoed_prints
  exact ⟨s, hs, echoes_own hs⟩

end Echoes

section Prints

variable {server a : Address} {s s' : State} {behind : List UInt8} {i : Option Nat} {e : Event}
  {es : List Event}

def printed : List UInt8 := "UDP TEST".toUTF8.toList

theorem readString_request (behind : List UInt8) : readString (request ++ behind) = some printed := by
  apply readString_append
  decide +kernel

/-- All datagrams are requests or echoes of them, and so is what the server has got. -/
structure Uniform (s : State) : Prop where
  sent : ∀ d ∈ s.sent, d.data = request
  next : ∀ size client, s.server = .sendto (some size) client → s.buf.take size = request
  prints : ∀ a text, s.clients a = .returned text → text = printed

theorem length_request : request.length = 1024 := by decide +kernel

theorem take_request : request.take 1024 = request := List.take_of_length_le (Nat.le_of_eq length_request)

theorem received_request {buf : List UInt8} {d : Datagram} (hd : d.data = request) :
    received buf d = request ++ buf.drop 1024 := by
  rw [received, hd, take_request, overwrite, List.take_zero, List.nil_append, length_request]

theorem Uniform.serverStep (hs : Uniform s) (h : udpserverEcho server i s = some s') :
    Uniform s' := by
  obtain (rfl | ⟨d, hd, hdst, rfl⟩) | rfl | ⟨size, client, hserver, rfl⟩ := udpserverEcho_cases h
  · exact ⟨hs.sent, nofun, hs.prints⟩
  · refine ⟨hs.sent, fun size client h => ?_, hs.prints⟩
    cases h
    have hdata := hs.sent d hd
    change (received s.buf d).take (d.data.take 1024).length = request
    rw [received_request hdata, hdata, take_request]
    exact List.take_left' rfl
  · exact ⟨hs.sent, nofun, hs.prints⟩
  · refine ⟨fun d hd => ?_, nofun, hs.prints⟩
    rcases List.mem_append.mp hd with hd | hd
    · exact hs.sent d hd
    · cases List.mem_singleton.mp hd
      exact hs.next size client hserver

theorem prints_update {client : Client}
    (hprints : ∀ b text, s.clients b = .returned text → text = printed)
    (hclient : ∀ text, client = .returned text → text = printed) (b : Address) (text : List UInt8)
    (h : Function.update s.clients a client b = .returned text) : text = printed := by
  by_cases hb : b = a
  · rw [hb, Function.update_self] at h
    exact hclient text h
  · rw [Function.update_of_ne hb] at h
    exact hprints b text h

theorem Uniform.clientStep (hs : Uniform s) (h : udpclieEcho server a i behind s = some s') :
    Uniform s' := by
  obtain ⟨client, rfl, hclient⟩ | rfl := udpclieEcho_cases h
  · refine ⟨hs.sent, hs.next, prints_update hs.prints ?_⟩
    rintro text rfl
    obtain hwaits | ⟨buf, text', htext, heq, hbuf⟩ := hclient
    · cases hwaits
    · cases heq
      have hrequest : ∃ rest, buf ++ behind = request ++ rest := by
        obtain rfl | ⟨d, hd, rfl⟩ := hbuf
        · exact ⟨behind, rfl⟩
        · rw [received_request (hs.sent d hd), List.append_assoc]
          exact ⟨_, rfl⟩
      obtain ⟨rest, hrest⟩ := hrequest
      rw [hrest, readString_request] at htext
      exact (Option.some.inj htext).symm
  · refine ⟨fun d hd => ?_, hs.next, prints_update hs.prints nofun⟩
    rcases List.mem_append.mp hd with hd | hd
    · exact hs.sent d hd
    · cases List.mem_singleton.mp hd
      rfl

theorem Uniform.step (hs : Uniform s) (h : step server s e = some s')
    (hother : ∀ d, e ≠ .other d) : Uniform s' := by
  cases e with
  | other d => exact absurd rfl (hother d)
  | server i => exact hs.serverStep h
  | client a i behind =>
    rw [Udp.step] at h
    split at h
    · cases h
    · exact hs.clientStep h

/-- If no other host sends, every client that prints has printed what it has sent, whatever the
network does, and also if its `recvfrom` has failed. -/
theorem clients_print {client : Address} {buf : List UInt8} (hother : ∀ e ∈ es, ∀ d, e ≠ .other d)
    (hrun : Run.exec (Udp.step server) (start client buf) es = some s) :
    ∀ a text, s.clients a = .returned text → text = printed := by
  have hstart : Uniform (start client buf) :=
    ⟨fun d hd => by simp [start] at hd, nofun, nofun⟩
  exact (Run.invariant_of_always (P := fun _ e _ => ∀ d, e ≠ .other d)
    (fun _ _ _ hs h ho => hs.step h ho) hstart
    (Run.always_of_mem (fun e he _ _ => hother e he) _) hrun).prints

theorem clients_print_echoed : ∃ s text, Run.exec (Udp.step 0) cleared echoed = some s ∧
    s.clients 1 = .returned text ∧ text = printed := by
  obtain ⟨s, hs, hprints⟩ := Option.map_eq_some_iff.mp echoed_prints
  refine ⟨s, _, hs, hprints, clients_print ?_ hs 1 _ hprints⟩
  simp [echoed]

end Prints

end LearnCLinux.Exmaple.Udp
