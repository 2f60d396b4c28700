import LearnCLinux.EpollThreadModel.Descriptors
import LearnCLinux.IoModel.Epoll

/-! How many clients the event loop believes it has, and whether it hands the listening socket to
a worker. -/

namespace LearnCLinux.EpollThreadModel

open ThreadPool (Worker)

inductive Event : Type
  | connected (fd : Fd)
  | disconnected (fd : Fd)
  deriving DecidableEq

def connections (s : State) (l : Label) (_ : State) : List Event :=
  match l with
  | .main c => if s.pc = .accept then (c.accepted.map Event.connected).toList else []
  | .worker w size => match s.pool.workers[w]? with
    | none => []
    | some t =>
      if t.pc = .run ∧ s.handler w = .recv ∧ size ≤ 0 then
        ((pointee s t).map Event.disconnected).toList
      else []
  | _ => []

def clients (events : List Event) : List Fd :=
  events.foldl (fun fds e => match e with
    | .connected fd => fds ++ [fd]
    | .disconnected fd => fds.filter (· ≠ fd)) []

def NotOnListener (s : State) : Label → State → Prop
  | .worker w _, _ => ∀ t ∈ s.pool.workers[w]?, t.pc = .run →
      s.handler w = .recv ∨ s.handler w = .send → pointee s t ≠ some s.ss
  | _, _ => True

/-- No client leaves, a connection request is looked at only while there is room, and `epoll_wait`
reports none in an entry that a pending task points to. -/
def Steady (s : State) : Label → State → Prop
  | .main c, _ => (s.pc = .testListen → s.events[s.i]? = some s.ss → s.curFd < maxClient) ∧
      (s.pc = .epollWait → ∀ fds ∈ c.ready, ∀ task ∈ pending s, ∀ j ∈ task.arg,
        fds[j]? ≠ some s.ss)
  | .worker w size, _ => ∀ t ∈ s.pool.workers[w]?, t.pc = .run → s.handler w = .recv → 0 < size
  | _, _ => True

instance (s : State) (l : Label) (s' : State) : Decidable (Steady s l s') :=
  match l with
  | .main c => inferInstanceAs (Decidable (
      (s.pc = .testListen → s.events[s.i]? = some s.ss → s.curFd < maxClient) ∧
      (s.pc = .epollWait → ∀ fds ∈ c.ready, ∀ task ∈ pending s, ∀ j ∈ task.arg,
        fds[j]? ≠ some s.ss)))
  | .worker w size => inferInstanceAs (Decidable
      (∀ t ∈ s.pool.workers[w]?, t.pc = .run → s.handler w = .recv → 0 < size))
  | .admin _ | .wakeWorker _ | .wakeProducer _ => isTrue trivial

def PointsAway (ss : Fd) (events : List Fd) (task : Task) : Prop :=
  (task.arg.bind fun j => events[j]?) ≠ some ss

theorem pointsAway_refill {ss : Fd} {events fds : List Fd} {task : Task}
    (h : PointsAway ss events task) (hfds : ∀ j ∈ task.arg, fds[j]? ≠ some ss) :
    PointsAway ss (fds ++ events.drop fds.length) task := by
  rw [PointsAway] at h ⊢
  cases harg : task.arg with
  | none => exact nofun
  | some j =>
    rw [harg] at h
    simp only [Option.bind_some] at h ⊢
    by_cases hlt : j < fds.length
    · rw [List.getElem?_append_left hlt]
      exact hfds j harg
    · have hle : fds.length ≤ j := Nat.le_of_not_lt hlt
      rw [List.getElem?_append_right hle, List.getElem?_drop, Nat.add_sub_cancel' hle]
      exact h

structure Apart (s : State) : Prop where
  pointing : Pointing (PointsAway s.ss) s
  next : s.pc = .addTask → s.events[s.i]? ≠ some s.ss

theorem Step.ss {s s' : State} {l : Label} (h : Step s l s') : s'.ss = s.ss := by
  cases h <;> rfl

theorem Apart.step {s s' : State} {l : Label} (ha : Apart s) (h : Step s l s')
    (hl : Steady s l s') : Apart s' := by
  have hpointing : Pointing (PointsAway s.ss) s' := by
    apply ha.pointing.step h
    · intro hpc fd hfd heq
      apply ha.next hpc
      rw [hfd]
      simpa [hfd] using heq
    · rintro c fds rfl hpc hready task hpending haway
      apply pointsAway_refill haway
      exact hl.2 hpc fds hready task hpending
  refine ⟨h.ss ▸ hpointing, ?_⟩
  cases h with
  | goAdd hpc hfd hfull =>
    intro _ heq
    have hss := Option.some.inj (hfd.symm.trans heq)
    exact absurd (hl.1 hpc heq) (Nat.not_lt.mpr (hfull hss))
  | adding hpc =>
    intro hpc'
    rw [hpc] at hpc'
    cases hpc'
  | recv => exact ha.next
  | send => exact ha.next
  | exit => exact ha.next
  | ret => exact ha.next
  | worker => exact ha.next
  | admin => exact ha.next
  | wakeWorker => exact ha.next
  | wakeProducer => exact ha.next
  | _ => exact MainPc.noConfusion

theorem start_apart (c : Start) : Apart (start c) where
  pointing := start_pointing _ c
  next := MainPc.noConfusion

theorem Apart.notOnListener {s s' : State} {l : Label} (ha : Apart s) : NotOnListener s l s' := by
  cases l with
  | worker w size =>
    intro t hw hrun hpc heq
    obtain ⟨j, hj, hfd⟩ := Option.bind_eq_some_iff.mp heq
    obtain ⟨task, htask, harg⟩ := Option.bind_eq_some_iff.mp hj
    have hinHand : t.inHand = some task := by
      rw [Worker.inHand, hrun]
      exact htask
    have htoRead : toRead (s.handler w) t = some task := by
      rcases hpc with hpc | hpc <;> rw [hpc] <;> exact hinHand
    apply ha.pointing.hands w t hw task htoRead
    rw [harg]
    exact hfd
  | _ => trivial

theorem connections_worker {s s' : State} {w : Nat} {size : Int}
    (hl : Steady s (.worker w size) s') : connections s (.worker w size) s' = [] := by
  simp only [connections]
  split
  · rfl
  · next t hw =>
    apply if_neg
    rintro ⟨hrun, hpc, hsize⟩
    exact absurd (hl t hw hrun hpc) (Int.not_lt.mpr hsize)

theorem connections_main {s s' : State} {c : MainChoice} {pc : MainPc} (hpc : s.pc = pc)
    (hne : pc ≠ .accept) : connections s (.main c) s' = [] :=
  if_neg (hpc ▸ hne)

/-- As long as nobody leaves, `cur_fd` and the clients grow together. -/
theorem Step.curFd {s s' : State} {l : Label} (h : Step s l s') (hl : Steady s l s')
    {events : List Event} (hcount : s.curFd = 1 + (clients events).length) :
    s'.curFd = 1 + (clients (events ++ connections s l s')).length := by
  have hquiet : connections s l s' = [] → s'.curFd = s.curFd →
      s'.curFd = 1 + (clients (events ++ connections s l s')).length := by
    intro hnone hsame
    rw [hnone, List.append_nil, hsame, hcount]
  cases h with
  | waitFailed hpc => exact hquiet (connections_main hpc (by decide)) rfl
  | waited hpc => exact hquiet (connections_main hpc (by decide)) rfl
  | goTest hpc => exact hquiet (connections_main hpc (by decide)) rfl
  | leaveFor hpc => exact hquiet (connections_main hpc (by decide)) rfl
  | goAccept hpc => exact hquiet (connections_main hpc (by decide)) rfl
  | goAdd hpc => exact hquiet (connections_main hpc (by decide)) rfl
  | acceptFailed hpc hnone => exact hquiet (by simp [connections, hnone]) rfl
  | @accepted c cs hpc hsome =>
    simp only [connections, hpc, hsome, clients, List.foldl_append, if_true, Option.map_some,
      Option.toList_some, List.foldl_cons, List.foldl_nil, List.length_append]
    rw [hcount, clients]
    rfl
  | call hpc => exact hquiet (connections_main hpc (by decide)) rfl
  | added hpc => exact hquiet (connections_main hpc (by decide)) rfl
  | adding hpc => exact hquiet (connections_main hpc (by decide)) rfl
  | recv => exact hquiet (connections_worker hl) rfl
  | send => exact hquiet (connections_worker hl) rfl
  | exit => exact hquiet (connections_worker hl) rfl
  | ret => exact hquiet (connections_worker hl) rfl
  | worker => exact hquiet (connections_worker hl) rfl
  | admin => exact hquiet rfl rfl
  | wakeWorker => exact hquiet rfl rfl
  | wakeProducer => exact hquiet rfl rfl

section Runs

variable {c : Start} {ls : List Label} {s : State}

theorem exec_curFd (hrun : Run.exec step (start c) ls = some s)
    (hsteady : Run.Always step Steady (start c) ls) :
    s.curFd = 1 + (clients (Run.trace step connections (start c) ls)).length :=
  Run.trace_invariant (I := fun events m => m.curFd = 1 + (clients events).length) connections
    (fun _ _ _ _ hcount hs hl => (step_cases hs).curFd hl hcount) [] rfl hsteady hrun

theorem notOnListener (hsteady : Run.Always step Steady (start c) ls) :
    Run.Always step NotOnListener (start c) ls :=
  hsteady.of_invariant (fun _ _ _ ha hs hl => ha.step (step_cases hs) hl)
    (fun _ _ _ ha _ _ => ha.notOnListener) (start_apart c)

end Runs

/-- The two event loops, without and with the pool. -/
theorem curFd_counts_clients (ss : Fd) (cs : List IoModel.Epoll.Choice) (c : Start)
    (ls : List Label) :
    (Run.Always IoModel.Epoll.step IoModel.Epoll.CountsClients (IoModel.Epoll.start ss) cs ↔
      Run.Always IoModel.Epoll.step IoModel.Epoll.Steady (IoModel.Epoll.start ss) cs) ∧
    ∀ s, Run.exec step (start c) ls = some s → Run.Always step Steady (start c) ls →
      s.curFd = 1 + (clients (Run.trace step connections (start c) ls)).length ∧
        Run.Always step NotOnListener (start c) ls :=
  ⟨IoModel.Epoll.counts_clients_iff ss cs, fun _ hrun hsteady =>
    ⟨exec_curFd hrun hsteady, notOnListener hsteady⟩⟩

theorem curFd_counts_clients_served :
    ∃ s, Run.exec step (start server) (clientRun 18) = some s ∧
      s.curFd = 1 + (clients (Run.trace step connections (start server) (clientRun 18))).length ∧
      Run.Always step NotOnListener (start server) (clientRun 18) := by
  obtain ⟨s, hs⟩ : ∃ s, Run.exec step (start server) (clientRun 18) = some s :=
    Option.isSome_iff_exists.mp (by decide +kernel)
  exact ⟨s, hs, (curFd_counts_clients 3 [] server (clientRun 18)).2 s hs (by decide +kernel)⟩

def crowdedRun : List Label :=
  (List.range 9).flatMap (fun n => round [3] (some (5 + n)) 4) ++ round [3] none 12 ++
    List.replicate 9 (.worker 0 1)

/-- In `epoll.c` client 5 connects and leaves and is still counted; with the pool, worker 0 is at
its `recv` on the listening socket 3. -/
theorem count_drifts_and_listener_served :
    (∃ s, Run.exec IoModel.Epoll.step (IoModel.Epoll.start 3)
        [⟨some [3], none, 0, []⟩, ⟨none, some 5, 0, []⟩, ⟨none, none, 0, []⟩,
          ⟨some [5], none, 0, []⟩, ⟨none, none, 0, []⟩] = some s ∧
      s.curFd = 2 ∧ s.connected = []) ∧
    ∃ s t, Run.exec step (start server) crowdedRun = some s ∧ s.pool.workers[0]? = some t ∧
      t.pc = .run ∧ s.handler 0 = .recv ∧ pointee s t = some 3 ∧ s.ss = 3 := by
  constructor
  · obtain ⟨s, hs, hcond⟩ : ∃ s, Run.exec IoModel.Epoll.step (IoModel.Epoll.start 3)
        [⟨some [3], none, 0, []⟩, ⟨none, some 5, 0, []⟩, ⟨none, none, 0, []⟩,
          ⟨some [5], none, 0, []⟩, ⟨none, none, 0, []⟩] = some s ∧
        decide (s.curFd = 2 ∧ s.connected = []) = true :=
      (Option.any_eq_true _ _).mp (by decide +kernel)
    exact ⟨s, hs, of_decide_eq_true hcond⟩
  · obtain ⟨s, hs, hcond⟩ : ∃ s, Run.exec step (start server) crowdedRun = some s ∧
        decide (∃ t ∈ s.pool.workers[0]?, t.pc = .run ∧ s.handler 0 = .recv ∧
          pointee s t = some 3 ∧ s.ss = 3) = true :=
      (Option.any_eq_true _ _).mp (by decide +kernel)
    obtain ⟨t, hw, hrest⟩ := of_decide_eq_true hcond
    exact ⟨s, t, hs, hw, hrest⟩

end LearnCLinux.EpollThreadModel
