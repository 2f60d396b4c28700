import LearnCLinux.SocketRaw.Ping

/-! Where the requests of `ping.c` go.  `main` copies a pointer for a host name, and `recvfrom` stores
the sender of every datagram in the variable that `sendto` takes its address from. -/

namespace LearnCLinux.SocketRaw.Ping

/-- The senders of the datagrams that arrive, whatever `icmp_unpack` makes of them. -/
def arrivals (s : State) (l : Label) (_ : State) : List SockaddrIn :=
  match l with
  | .recv c => if s.recvPc = .recvfrom then (c.datagram.map Datagram.source).toList else []
  | _ => []

/-- A `sendto` goes to the address `main` has resolved. -/
def SendsToResolved (c : Start) (s : State) : Label → State → Prop
  | .send _, _ => s.sendPc = .sendto → s.dest.sinAddr = c.resolved
  | _, _ => True

instance (c : Start) (s : State) (l : Label) (s' : State) : Decidable (SendsToResolved c s l s') :=
  match l with
  | .send _ => inferInstanceAs (Decidable (s.sendPc = .sendto → s.dest.sinAddr = c.resolved))
  | .recv _ | .sigint _ => isTrue trivial

/-- The argument is an address, or the first bytes of the pointer are the address by chance. -/
def Start.Copied (c : Start) : Prop := c.inaddr ≠ inaddrNone ∨ c.hAddr.setWidth 32 = c.address

instance (c : Start) : Decidable c.Copied := inferInstanceAs (Decidable (_ ∨ _))

theorem copied_iff (c : Start) : c.sinAddr = c.resolved ↔ c.Copied := by
  rw [Start.sinAddr, Start.resolved, Start.Copied]
  by_cases hname : c.inaddr = inaddrNone
  · simp [hname]
  · simp [hname]

-- a name of 127.0.0.1: the requests go to the bytes of the pointer
example : (Start.mk 1000 inaddrNone 0x55d0c0ffee10 0x0100007f).sinAddr = 0xc0ffee10 := by decide

theorem Step.dest {s s' : State} {l : Label} (h : Step s l s') :
    s'.dest = (arrivals s l s').getLastD s.dest := by
  cases h with
  | record => exact (record_frame _ _).1
  | recvFailed hpc hnone => simp [arrivals, hpc, hnone]
  | received hpc hsome => simp [arrivals, hpc, hsome]
  | unpack hpc => simp [arrivals, hpc, (unpacked_frame s _ _).1]
  | testRecv hpc => simp [arrivals, hpc]
  | select hpc => simp [arrivals, hpc]
  | _ => rfl

section Runs

variable {c : Start} {ls : List Label} {s : State}

theorem exec_dest (hrun : Run.exec step (start c) ls = some s) :
    s.dest = (Run.trace step arrivals (start c) ls).getLastD (start c).dest := by
  refine Run.trace_invariant (P := fun _ _ _ => True)
    (I := fun tr m => m.dest = tr.getLastD (start c).dest) arrivals ?_ [] rfl
    (Run.always_true _ _) hrun
  intro tr m l m' hm hs _
  rw [(step_cases hs).dest, hm]
  simp only [List.getLastD_eq_getLast?, List.getLast?_append]
  cases (arrivals m l m').getLast? <;> rfl

/-- The address of the last datagram that has arrived, or what `main` has copied. -/
def LastResolved (c : Start) (ls : List Label) : Prop :=
  match (Run.trace step arrivals (start c) ls).getLast? with
  | some a => a.sinAddr = c.resolved
  | none => c.Copied

theorem dest_resolved_iff (hrun : Run.exec step (start c) ls = some s) :
    s.dest.sinAddr = c.resolved ↔ LastResolved c ls := by
  rw [exec_dest hrun, List.getLastD_eq_getLast?, LastResolved]
  cases (Run.trace step arrivals (start c) ls).getLast? with
  | none => exact copied_iff c
  | some a => rfl

end Runs

/-- At every `sendto` the last datagram that has arrived came from the resolved address, or none has,
and `main` has copied that address. -/
theorem sends_to_resolved_iff (c : Start) (ls : List Label) :
    Run.Always step (SendsToResolved c) (start c) ls ↔
      ∀ ks choice ms s s', ls = ks ++ .send choice :: ms → Run.exec step (start c) ks = some s →
        step s (.send choice) = some s' → s.sendPc = .sendto →
        LastResolved c ks := by
  rw [Run.always_iff]
  constructor
  · intro h ks choice ms s s' heq hs hstep hpc
    exact (dest_resolved_iff hs).mp (h ks _ ms s s' heq hs hstep hpc)
  · intro h ks l ms s s' heq hs hstep
    cases l with
    | send choice =>
      intro hpc
      exact (dest_resolved_iff hs).mpr (h ks choice ms s s' heq hs hstep hpc)
    | _ => trivial

def loopback : Start := ⟨1000, 0x0100007f, 0, 0⟩

def sendSteps (n : Nat) : List Label := List.replicate n (.send ⟨⟨1, 0⟩, 64⟩)

/-- `icmp_recv` takes `d` in with its third step and unpacks it with its fourth. -/
def recvSteps (n : Nat) (d : Datagram) : List Label := List.replicate n (.recv ⟨⟨3, 0⟩, 1, some d⟩)

/-- A datagram of one byte from 10.0.0.66, which `icmp_unpack` rejects, redirects the next
request. -/
theorem request_sent_to_stranger :
    ∃ s s', Run.exec step (start loopback)
        (sendSteps 3 ++ recvSteps 4 ⟨⟨afInet, 0, 0x4200000a⟩, [0]⟩) = some s ∧
      s.sendPc = .sendto ∧ step s (.send ⟨⟨1, 0⟩, 64⟩) = some s' ∧ s.packetRecv = 0 ∧
      s.dest.sinAddr = 0x4200000a ∧ loopback.resolved = 0x0100007f := by
  obtain ⟨s, hs, hcond⟩ : ∃ s, Run.exec step (start loopback)
      (sendSteps 3 ++ recvSteps 4 ⟨⟨afInet, 0, 0x4200000a⟩, [0]⟩) = some s ∧
        ((step s (.send ⟨⟨1, 0⟩, 64⟩)).isSome && decide (s.sendPc = .sendto ∧
          s.packetRecv = 0 ∧ s.dest.sinAddr = 0x4200000a)) = true :=
    (Option.any_eq_true _ _).mp (by decide +kernel)
  obtain ⟨hsome, hcond⟩ := Bool.and_eq_true_iff.mp hcond
  obtain ⟨s', hs'⟩ := Option.isSome_iff_exists.mp hsome
  obtain ⟨hpc, hrejected, hdest⟩ := of_decide_eq_true hcond
  exact ⟨s, s', hs, hpc, hs', hrejected, hdest, rfl⟩

end LearnCLinux.SocketRaw.Ping
