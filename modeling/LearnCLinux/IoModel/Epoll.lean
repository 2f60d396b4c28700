import Mathlib.Data.List.Nodup
import LearnCLinux.Library.Run

/-! `socket/io_model/epoll.c`: the event loop and its count of descriptors.  Only an `accept`
changes `cur_fd`; a client that leaves does not. -/

namespace LearnCLinux.IoModel.Epoll

abbrev Fd := Int

def maxEvents : Nat := 1024

inductive Pc : Type
  | epollWait
  | testFor
  | returned
  deriving DecidableEq

structure State where
  ss : Fd
  /-- The descriptors `epoll_fd` watches; a closed one is no longer among them. -/
  registered : List Fd
  /-- The part of `events` that the last `epoll_wait` filled. -/
  events : List Fd
  curFd : Nat
  i : Nat
  pc : Pc
  /-- A history variable: the clients accepted and not disconnected. -/
  connected : List Fd
  deriving DecidableEq

def start (ss : Fd) : State where
  ss := ss
  registered := [ss]
  events := []
  curFd := 1
  i := 0
  pc := .epollWait
  connected := []

/-- What the surroundings decide in a step: what `epoll_wait`, `accept` and `recv` deliver, and
what `readbuf` holds behind the `recv`. -/
structure Choice where
  ready : Option (List Fd)
  accepted : Option Fd
  size : Int
  readbuf : List (BitVec 8)
  deriving DecidableEq

section Code

variable (s : State) (c : Choice)

def reports (fds : List Fd) : Bool :=
  fds.length ≤ s.curFd && fds.Nodup && fds.all (· ∈ s.registered)

def close (fd : Fd) : State :=
  { s with
    registered := s.registered.filter (· ≠ fd)
    connected := s.connected.filter (· ≠ fd) }

/-- `memcmp("bye", readbuf, sizeof("bye") - 1) == 0` -/
def saysBye : Bool := c.readbuf.take 3 = [0x62, 0x79, 0x65]

def serverHandle (cs : Fd) : State :=
  if c.size ≤ 0 then close s cs
  else if saysBye c then close s cs
  else s

/-- A connection request, while `cur_fd` is in bounds. -/
def isRequest (fd : Fd) : Bool := fd = s.ss && s.curFd < maxEvents

def examine (fd : Fd) : Option State :=
  if isRequest s fd then
    match c.accepted with
    | none => some { s with pc := .returned }
    | some cs =>
      if cs ≠ s.ss ∧ cs ∉ s.connected then
        some { s with
          registered := s.registered ++ [cs]
          curFd := s.curFd + 1
          i := s.i + 1
          connected := s.connected ++ [cs] }
      else none
  else some { serverHandle s c fd with i := s.i + 1 }

def step : Option State :=
  match s.pc with
  | .epollWait => match c.ready with
    | none => some { s with pc := .returned }
    | some fds => if reports s fds then some { s with events := fds, i := 0, pc := .testFor } else none
  | .testFor => match s.events[s.i]? with
    | none => some { s with pc := .epollWait }
    | some fd => examine s c fd
  | .returned => none

end Code

section Inversion

inductive Step (s : State) (c : Choice) : State → Prop
  | waitFailed : s.pc = .epollWait → c.ready = none → Step s c { s with pc := .returned }
  | waited {fds} : s.pc = .epollWait → c.ready = some fds → reports s fds = true →
      Step s c { s with events := fds, i := 0, pc := .testFor }
  | leaveFor : s.pc = .testFor → s.events[s.i]? = none → Step s c { s with pc := .epollWait }
  | acceptFailed {fd} : s.pc = .testFor → s.events[s.i]? = some fd → isRequest s fd = true →
      c.accepted = none → Step s c { s with pc := .returned }
  | accepted {fd cs} : s.pc = .testFor → s.events[s.i]? = some fd → isRequest s fd = true →
      c.accepted = some cs → cs ≠ s.ss → cs ∉ s.connected →
      Step s c { s with
        registered := s.registered ++ [cs], curFd := s.curFd + 1, i := s.i + 1,
        connected := s.connected ++ [cs] }
  | handle {fd} : s.pc = .testFor → s.events[s.i]? = some fd → isRequest s fd = false →
      Step s c { serverHandle s c fd with i := s.i + 1 }

theorem step_cases {s s' : State} {c : Choice} (h : step s c = some s') : Step s c s' := by
  rw [step] at h
  split at h
  case h_1 hpc =>
    split at h
    · next hready => cases h; exact .waitFailed hpc hready
    · next hready =>
      split at h <;> cases h
      exact .waited hpc hready ‹_›
  case h_2 hpc =>
    split at h
    · next hnone => cases h; exact .leaveFor hpc hnone
    · next hfd =>
      unfold examine at h
      split at h
      · next hrequest =>
        split at h
        · next hnone => cases h; exact .acceptFailed hpc hfd hrequest hnone
        · next hsome =>
          split at h <;> cases h
          next hopen => exact .accepted hpc hfd hrequest hsome hopen.1 hopen.2
      · next hrequest =>
        cases h
        exact .handle hpc hfd (by simpa using hrequest)
  case h_3 => cases h

end Inversion

def handled (s : State) : Option Fd :=
  match s.pc with
  | .testFor => s.events[s.i]?.filter fun fd => !isRequest s fd
  | _ => none

/-- `cur_fd` counts the clients and the listening socket, which is open and never served. -/
def CountsClients (s : State) (_ : Choice) (s' : State) : Prop :=
  handled s ≠ some s.ss ∧ s'.curFd = 1 + s'.connected.length ∧ s'.ss ∈ s'.registered

/-- No client leaves, and a connection request is looked at only while there is room. -/
def Steady (s : State) (c : Choice) (_ : State) : Prop :=
  s.pc = .testFor → ∀ fd ∈ s.events[s.i]?,
    if fd = s.ss then 1 + s.connected.length < maxEvents else 0 < c.size ∧ saysBye c = false

structure Watching (s : State) : Prop where
  registered : ∀ fd ∈ s.registered, fd = s.ss ∨ fd ∈ s.connected
  connected : s.ss ∉ s.connected
  events : s.pc = .testFor → (s.events.drop s.i).Nodup ∧
    ∀ fd ∈ s.events.drop s.i, fd = s.ss ∨ fd ∈ s.connected

section Loop

variable {s s' : State} {c : Choice}

theorem serverHandle_eq (s : State) (c : Choice) (fd : Fd) :
    serverHandle s c fd = if 0 < c.size ∧ saysBye c = false then s else close s fd := by
  rw [serverHandle]
  by_cases hsize : c.size ≤ 0
  · simp [hsize, Int.not_lt.mpr hsize]
  · cases hbye : saysBye c <;> simp [hsize, Int.not_le.mp hsize]

theorem drop_eq_cons {events : List Fd} {i : Nat} {fd : Fd} (h : events[i]? = some fd) :
    events.drop i = fd :: events.drop (i + 1) := by
  obtain ⟨hlt, rfl⟩ := List.getElem?_eq_some_iff.mp h
  exact List.drop_eq_getElem_cons hlt

theorem Watching.next (hw : Watching s) (hpc : s.pc = .testFor) {fd : Fd}
    (hfd : s.events[s.i]? = some fd) :
    (fd = s.ss ∨ fd ∈ s.connected) ∧ (s.events.drop (s.i + 1)).Nodup ∧
      ∀ e ∈ s.events.drop (s.i + 1), e ≠ fd ∧ (e = s.ss ∨ e ∈ s.connected) := by
  obtain ⟨hnodup, hopen⟩ := hw.events hpc
  rw [drop_eq_cons hfd] at hnodup hopen
  obtain ⟨hnew, htail⟩ := List.nodup_cons.mp hnodup
  refine ⟨hopen fd List.mem_cons_self, htail, fun e he => ⟨?_, ?_⟩⟩
  · rintro rfl
    exact hnew he
  · exact hopen e (List.mem_cons_of_mem fd he)

theorem Watching.step (hw : Watching s) (h : Step s c s') : Watching s' := by
  cases h with
  | waitFailed => exact ⟨hw.registered, hw.connected, nofun⟩
  | @waited fds hpc hready hreports =>
    simp only [reports, Bool.and_eq_true, decide_eq_true_eq, List.all_eq_true] at hreports
    refine ⟨hw.registered, hw.connected, fun _ => ⟨hreports.1.2, fun fd hfd => ?_⟩⟩
    exact hw.registered fd (hreports.2 fd hfd)
  | leaveFor => exact ⟨hw.registered, hw.connected, nofun⟩
  | acceptFailed => exact ⟨hw.registered, hw.connected, nofun⟩
  | @accepted fd cs hpc hfd hrequest haccepted hss hfresh =>
    obtain ⟨-, hnodup, hopen⟩ := hw.next hpc hfd
    constructor
    · intro e he
      rw [List.mem_append, List.mem_singleton] at he ⊢
      rw [← or_assoc]
      exact he.imp_left (hw.registered e)
    · rw [List.mem_append, List.mem_singleton, not_or]
      exact ⟨hw.connected, hss.symm⟩
    · refine fun _ => ⟨hnodup, fun e he => ?_⟩
      exact (hopen e he).2.imp_right fun hc => List.mem_append_left _ hc
  | @handle fd hpc hfd hrequest =>
    obtain ⟨-, hnodup, hopen⟩ := hw.next hpc hfd
    rw [serverHandle_eq]
    split
    · exact ⟨hw.registered, hw.connected, fun _ => ⟨hnodup, fun e he => (hopen e he).2⟩⟩
    · have hkeep : ∀ e, e ∈ s.connected → e ≠ fd → e ∈ s.connected.filter (· ≠ fd) :=
        fun e he hne => List.mem_filter.mpr ⟨he, decide_eq_true hne⟩
      constructor
      · intro e he
        obtain ⟨hold, hne⟩ := List.mem_filter.mp he
        exact (hw.registered e hold).imp_right fun hc => hkeep e hc (of_decide_eq_true hne)
      · exact fun hss => hw.connected (List.mem_filter.mp hss).1
      · refine fun _ => ⟨hnodup, fun e he => ?_⟩
        obtain ⟨hne, hold⟩ := hopen e he
        exact hold.imp_right fun hc => hkeep e hc hne

theorem start_watching (ss : Fd) : Watching (start ss) where
  registered _ hfd := .inl (List.mem_singleton.mp hfd)
  connected := nofun
  events := nofun

theorem handled_eq_ss_iff (hpc : s.pc = .testFor) {fd : Fd} (hfd : s.events[s.i]? = some fd) :
    handled s = some s.ss ↔ fd = s.ss ∧ isRequest s fd = false := by
  rw [handled, hpc]
  simp only [hfd, Option.filter_some]
  cases isRequest s fd <;> simp

theorem Steady.counts (hs : Steady s c s') (hcount : s.curFd = 1 + s.connected.length)
    (hss : s.ss ∈ s.registered) (h : Step s c s') : CountsClients s c s' := by
  cases h with
  | waitFailed hpc => exact ⟨by simp [handled, hpc], hcount, hss⟩
  | waited hpc => exact ⟨by simp [handled, hpc], hcount, hss⟩
  | leaveFor hpc hnone => exact ⟨by simp [handled, hpc, hnone], hcount, hss⟩
  | acceptFailed hpc hfd hrequest =>
    exact ⟨by simp [handled_eq_ss_iff hpc hfd, hrequest], hcount, hss⟩
  | accepted hpc hfd hrequest =>
    refine ⟨by simp [handled_eq_ss_iff hpc hfd, hrequest], ?_, List.mem_append_left _ hss⟩
    rw [List.length_append, hcount]
    rfl
  | @handle fd hpc hfd hrequest =>
    have hsteady := hs hpc fd hfd
    split at hsteady
    · next hfdss =>
      rw [isRequest, hcount, decide_eq_true hfdss, decide_eq_true hsteady] at hrequest
      cases hrequest
    · next hne =>
      rw [serverHandle_eq, if_pos hsteady]
      exact ⟨by simp [handled_eq_ss_iff hpc hfd, hne], hcount, hss⟩

theorem CountsClients.steady (hcounts : CountsClients s c s')
    (hcount : s.curFd = 1 + s.connected.length) (hw : Watching s) (h : Step s c s') :
    Steady s c s' := by
  intro hpc fd hfd
  obtain ⟨hhandled, hcount', -⟩ := hcounts
  split
  · next hfdss =>
    by_contra hroom
    apply hhandled
    apply (handled_eq_ss_iff hpc hfd).mpr
    exact ⟨hfdss, by simpa [isRequest, hcount, hfdss] using hroom⟩
  · next hne =>
    cases h with
    | @handle fd' _ hfd' =>
      cases hfd.symm.trans hfd'
      have hclient : fd ∈ s.connected := ((hw.next hpc hfd').1).resolve_left hne
      by_contra hleaves
      rw [serverHandle_eq, if_neg hleaves] at hcount'
      have hless : (s.connected.filter (· ≠ fd)).length < s.connected.length := by
        rw [List.length_filter_lt_length_iff_exists]
        exact ⟨fd, hclient, by simp⟩
      simp only [close] at hcount'
      omega
    | waitFailed hpc' => cases hpc'.symm.trans hpc
    | waited hpc' => cases hpc'.symm.trans hpc
    | leaveFor _ hnone => cases hnone.symm.trans hfd
    | acceptFailed _ hfd' hrequest =>
      cases hfd.symm.trans hfd'
      simp [isRequest, hne] at hrequest
    | accepted _ hfd' hrequest =>
      cases hfd.symm.trans hfd'
      simp [isRequest, hne] at hrequest

end Loop

theorem counts_clients_iff (ss : Fd) (cs : List Choice) :
    Run.Always step CountsClients (start ss) cs ↔ Run.Always step Steady (start ss) cs := by
  refine Run.always_congr
    (I := fun s => s.curFd = 1 + s.connected.length ∧ s.ss ∈ s.registered ∧ Watching s) ?_ ?_
    ⟨rfl, List.mem_singleton_self ss, start_watching ss⟩
  · intro s c s' ⟨hcount, hss, hw⟩ hs
    constructor
    · exact fun hcounts => hcounts.steady hcount hw (step_cases hs)
    · exact fun hsteady => hsteady.counts hcount hss (step_cases hs)
  · intro s c s' ⟨hcount, hss, hw⟩ hs hsteady
    obtain ⟨-, hcount', hss'⟩ := hsteady.counts hcount hss (step_cases hs)
    exact ⟨hcount', hss', hw.step (step_cases hs)⟩

end LearnCLinux.IoModel.Epoll
