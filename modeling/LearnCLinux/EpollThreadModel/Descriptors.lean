import LearnCLinux.EpollThreadModel.Steps
import LearnCLinux.ThreadPool.Ownership

/-! Which descriptor a worker serves.  A task points into `events`, so it keeps its descriptor as
long as no `epoll_wait` stores another one over it. -/

namespace LearnCLinux.EpollThreadModel

open ThreadPool (Worker QueueInv ThreadpoolTask threadpoolCreate)

abbrev Task := ThreadpoolTask ServerHandle PFd

/-- The entry the task points to holds the descriptor the task was queued for. -/
def PointsHome (events : List Fd) (task : Task) : Prop :=
  (task.arg.bind fun j => events[j]?) = some task.function.queuedFor

/-- The task a worker runs, or is about to run, while `server_handle` has a read of `*cs` to
come. -/
def toRead : HandlerPc → Worker ServerHandle PFd → Option Task
  | .recv, t | .send, t => t.inHand
  | .exit, _ | .ret, _ => none

def pending (s : State) : List Task :=
  s.pool.pool.ring.contents ++
    s.pool.workers.zipIdx.filterMap fun (t, w) => toRead (s.handler w) t

theorem mem_pending_of_toRead {s : State} {w : Nat} {t : Worker ServerHandle PFd} {task : Task}
    (hw : s.pool.workers[w]? = some t) (htask : toRead (s.handler w) t = some task) :
    task ∈ pending s := by
  apply List.mem_append_right
  apply List.mem_filterMap.mpr
  exact ⟨(t, w), List.mem_zipIdx_iff_getElem?.mpr hw, htask⟩

/-- `epoll_wait` stores no other descriptor over an entry that a pending task points to. -/
def KeepsPending (s : State) : Label → State → Prop
  | .main c, _ => s.pc = .epollWait → ∀ fds ∈ c.ready, ∀ task ∈ pending s, ∀ j ∈ task.arg,
      ∀ fd ∈ fds[j]?, s.events[j]? = some fd
  | _, _ => True

instance (s : State) (l : Label) (s' : State) : Decidable (KeepsPending s l s') :=
  match l with
  | .main c => inferInstanceAs (Decidable (s.pc = .epollWait → ∀ fds ∈ c.ready,
      ∀ task ∈ pending s, ∀ j ∈ task.arg, ∀ fd ∈ fds[j]?, s.events[j]? = some fd))
  | .worker _ _ | .admin _ | .wakeWorker _ | .wakeProducer _ => isTrue trivial

/-- Whenever `server_handle` reads `*cs`, at its `recv` or its `send`, it reads the descriptor
its task was queued for. -/
def ReadsQueuedDescriptor (s : State) : Label → State → Prop
  | .worker w _, _ => ∀ t, s.pool.workers[w]? = some t → t.pc = .run →
      s.handler w = .recv ∨ s.handler w = .send → ∀ task, t.task = some task →
        pointee s t = some task.function.queuedFor
  | _, _ => True

/-- What is true of the entry a task points to, from the call that offers the task to the last
read through its argument. -/
structure Pointing (P : List Fd → Task → Prop) (s : State) : Prop where
  single : s.pool.producers.length = 1
  queue : ∃ q, QueueInv s.pool q ∧ ∀ task ∈ q, P s.events task
  offers : ∀ t ∈ s.pool.producers, ∀ task, t.offer = some task → s.pc = .adding ∧ P s.events task
  hands : ∀ (w : Nat) (t : Worker ServerHandle PFd), s.pool.workers[w]? = some t → ∀ task,
    toRead (s.handler w) t = some task → P s.events task

abbrev Serves (s : State) : Prop := Pointing PointsHome s

theorem inHand_of_toRead {h : HandlerPc} {t : Worker ServerHandle PFd} {task : Task}
    (htask : toRead h t = some task) : t.inHand = some task := by
  cases h <;> first | exact htask | cases htask

theorem producers_length {s s' : ThreadPool.State ServerHandle PFd}
    {l : ThreadPool.Label ServerHandle PFd} (h : ThreadPool.Step s l s') :
    s'.producers.length = s.producers.length := by
  cases h <;> first | rfl | exact List.length_set ..

theorem inHand_of_taskReturn {s s' : ThreadPool.State ServerHandle PFd} {w : Nat}
    {t t' : Worker ServerHandle PFd} (h : ThreadPool.Step s (.worker w false) s')
    (hw : s.workers[w]? = some t) (hrun : t.pc = .run) (hw' : s'.workers[w]? = some t') :
    t'.inHand = none := by
  cases h with
  | @worker _ _ u σ' u' hu h =>
    rw [Threads.getElem?_set_of_some hu u'] at hw'
    rw [hw] at hu
    cases hw'
    cases hu
    cases h <;> first | rfl | cases hrun

section Pointing

variable {P : List Fd → Task → Prop} {s s' : State}

theorem Pointing.pool (hs : Pointing P s) {l : ThreadPool.Label ServerHandle PFd}
    (h : ThreadPool.Step s.pool l s'.pool)
    (hcall : ∀ p task, l = .call p task → s'.pc = .adding ∧ P s.events task)
    (hevents : s'.events = s.events) (hpc : s.pc = .adding → s'.pc = .adding)
    (hhandler : ∀ (w : Nat) (t : Worker ServerHandle PFd) task, s'.pool.workers[w]? = some t →
      t.inHand = some task → s'.handler w = s.handler w) : Pointing P s' := by
  obtain ⟨hsingle, ⟨q, hq, hqueue⟩, hoffers, hhands⟩ := hs
  obtain ⟨q', hq', hprovenance⟩ := hq.provenance h
  have hfrom : ∀ task, (task ∈ q ∨ ∃ t ∈ s.pool.producers, t.offer = some task) →
      P s.events task := by
    rintro task (hold | ⟨t, ht, hoffer⟩)
    · exact hqueue task hold
    · exact (hoffers t ht task hoffer).2
  refine ⟨(producers_length h).trans hsingle, ⟨q', hq', fun task htask => ?_⟩,
    fun t' ht' task htask => ?_, fun w t' hw' task htask => ?_⟩ <;> rw [hevents]
  · exact hfrom task (hprovenance task (.inr htask))
  · rcases h.offer_of ht' htask with ⟨t, ht, hoffer⟩ | ⟨p, rfl⟩
    · obtain ⟨hadding, hhome⟩ := hoffers t ht task hoffer
      exact ⟨hpc hadding, hhome⟩
    · exact hcall p task rfl
  · have hinHand := inHand_of_toRead htask
    rw [hhandler w t' task hw' hinHand] at htask
    rcases h.inHand_of hw' hinHand with htaken | ⟨t, hw, hold⟩
    · exact hfrom task (hprovenance task (.inl htaken))
    · refine hhands w t hw task ?_
      revert htask
      cases s.handler w <;> simp [toRead, hold]

theorem Pointing.poolStep (hs : Pointing P s) {pool : ThreadPool.State ServerHandle PFd}
    {l : ThreadPool.Label ServerHandle PFd} (h : ThreadPool.Step s.pool l pool)
    (hl : ∀ p task, l ≠ .call p task) : Pointing P { s with pool := pool } := by
  refine hs.pool h (fun p task heq => ?_) rfl id fun _ _ _ _ _ => rfl
  exact absurd heq (hl p task)

theorem Pointing.no_offer (hs : Pointing P s) (hpc : s.pc ≠ .adding) :
    ∀ t ∈ s.pool.producers, ∀ task, t.offer ≠ some task :=
  fun t ht task htask => hpc (hs.offers t ht task htask).1

theorem Pointing.idle {pc : MainPc} (hs : Pointing P s) (hpc : s.pc = pc)
    (hne : pc ≠ .adding) (hpool : s'.pool = s.pool) (hevents : s'.events = s.events)
    (hhandler : s'.handler = s.handler) : Pointing P s' := by
  refine ⟨?_, ?_, fun t ht task htask => ?_, ?_⟩
  · rw [hpool]
    exact hs.single
  · rw [hpool, hevents]
    exact hs.queue
  · rw [hpool] at ht
    exact absurd htask (hs.no_offer (hpc ▸ hne) t ht task)
  · rw [hpool, hevents, hhandler]
    exact hs.hands

theorem Pointing.handle (hs : Pointing P s) {w : Nat} {h : HandlerPc}
    (hnext : ∀ t task, toRead h t = some task → toRead (s.handler w) t = some task) :
    Pointing P { s with handler := Function.update s.handler w h } := by
  refine ⟨hs.single, hs.queue, hs.offers, fun v t hv task htask => ?_⟩
  dsimp only at htask
  by_cases hvw : v = w
  · subst hvw
    rw [Function.update_self] at htask
    exact hs.hands v t hv task (hnext t task htask)
  · rw [Function.update_of_ne hvw] at htask
    exact hs.hands v t hv task htask

/-- A step keeps `P` if it is true of the task that `main` offers, and if a refill of `events` keeps
it for the pending tasks. -/
theorem Pointing.step (hs : Pointing P s) {l : Label} (h : Step s l s')
    (hoffer : s.pc = .addTask → ∀ fd, s.events[s.i]? = some fd → P s.events ⟨⟨fd⟩, some s.i⟩)
    (hrefill : ∀ c fds, l = .main c → s.pc = .epollWait → c.ready = some fds →
      ∀ task ∈ pending s, P s.events task → P (fds ++ s.events.drop fds.length) task) :
    Pointing P s' := by
  cases h with
  | waitFailed hpc => exact hs.idle hpc (by decide) rfl rfl rfl
  | @waited c fds hpc hready hreports =>
    have hkeep := hrefill c fds rfl hpc hready
    obtain ⟨q, hq, hqueue⟩ := hs.queue
    refine ⟨hs.single, ⟨q, hq, fun task htask => ?_⟩, fun t ht task htask => ?_,
      fun w t hw task htask => ?_⟩
    · exact hkeep task (List.mem_append_left _ (hq.ring.mem_contents.mpr htask)) (hqueue task htask)
    · exact absurd htask (hs.no_offer (hpc ▸ by decide) t ht task)
    · exact hkeep task (mem_pending_of_toRead hw htask) (hs.hands w t hw task htask)
  | goTest hpc => exact hs.idle hpc (by decide) rfl rfl rfl
  | leaveFor hpc => exact hs.idle hpc (by decide) rfl rfl rfl
  | goAccept hpc => exact hs.idle hpc (by decide) rfl rfl rfl
  | goAdd hpc => exact hs.idle hpc (by decide) rfl rfl rfl
  | acceptFailed hpc => exact hs.idle hpc (by decide) rfl rfl rfl
  | accepted hpc => exact hs.idle hpc (by decide) rfl rfl rfl
  | call hpc hfd h =>
    refine hs.pool h ?_ rfl (fun _ => rfl) (fun _ _ _ _ _ => rfl)
    rintro p task heq
    cases heq
    exact ⟨rfl, hoffer hpc _ hfd⟩
  | added hpc hret =>
    refine ⟨hs.single, hs.queue, fun t ht task htask => ?_, hs.hands⟩
    -- The only caller of the pool is `main`, and its call has returned.
    obtain ⟨u, hu, hreturned⟩ := (Option.any_eq_true _ _).mp hret
    obtain ⟨v, hv⟩ := List.length_eq_one_iff.mp hs.single
    rw [hv, List.mem_singleton] at ht
    rw [hv] at hu
    cases hu
    subst ht
    simp only [ThreadPool.Producer.offer] at htask
    split at hreturned
    · next hpc => rw [hpc] at htask; cases htask
    · cases hreturned
  | adding hpc h => exact hs.poolStep h (by rintro _ _ ⟨⟩)
  | recv hw hrun hpc =>
    refine hs.handle fun t task htask => ?_
    rw [hpc]
    exact inHand_of_toRead htask
  | send hw hrun hpc =>
    refine hs.handle fun t task htask => ?_
    cases htask
  | exit hpc h => exact hs.poolStep h (by rintro _ _ ⟨⟩)
  | @ret w size t pool hw hrun hpc h =>
    refine hs.pool h (by rintro _ _ ⟨⟩) rfl id fun v u task hv htask => ?_
    -- The worker that returned has nothing in hand, so its next `recv` has no reader yet.
    have hne : v ≠ w := by
      intro heq
      subst heq
      rw [inHand_of_taskReturn h hw hrun hv] at htask
      cases htask
    exact Function.update_of_ne hne _ _
  | worker hw hrun h => exact hs.poolStep h (by rintro _ _ ⟨⟩)
  | admin h => exact hs.poolStep h (by rintro _ _ ⟨⟩)
  | wakeWorker h => exact hs.poolStep h (by rintro _ _ ⟨⟩)
  | wakeProducer h => exact hs.poolStep h (by rintro _ _ ⟨⟩)

end Pointing

theorem pointsHome_refill {events fds : List Fd} {task : Task} (h : PointsHome events task)
    (hkeep : ∀ j ∈ task.arg, ∀ fd ∈ fds[j]?, events[j]? = some fd) :
    PointsHome (fds ++ events.drop fds.length) task := by
  rw [PointsHome] at h ⊢
  obtain ⟨j, hj, hfd⟩ := Option.bind_eq_some_iff.mp h
  rw [hj, Option.bind_some]
  by_cases hlt : j < fds.length
  · rw [List.getElem?_append_left hlt, List.getElem?_eq_getElem hlt]
    rw [← hfd, hkeep j hj _ (List.getElem?_eq_getElem hlt)]
  · have hle : fds.length ≤ j := Nat.le_of_not_lt hlt
    rw [List.getElem?_append_right hle, List.getElem?_drop, Nat.add_sub_cancel' hle, hfd]

theorem Serves.step {s s' : State} {l : Label} (hs : Serves s) (h : Step s l s')
    (hl : KeepsPending s l s') : Serves s' := by
  refine Pointing.step hs h (fun _ fd hfd => hfd) ?_
  rintro c fds rfl hpc hready task hpending hhome
  apply pointsHome_refill hhome
  exact hl hpc fds hready task hpending

theorem start_pointing (P : List Fd → Task → Prop) (c : Start) : Pointing P (start c) where
  single := by simp [start, threadpoolCreate, c.callers_eq]
  queue := ⟨[], ThreadPool.create_queueInv c.pool, nofun⟩
  offers t ht task htask := by
    rw [List.eq_of_mem_replicate ht] at htask
    cases htask
  hands w t hw task htask := by
    obtain ⟨tid, -, rfl⟩ := List.mem_map.mp (List.mem_of_getElem? hw)
    cases htask

theorem Serves.reads {s s' : State} {l : Label} (hs : Serves s) :
    ReadsQueuedDescriptor s l s' := by
  cases l with
  | worker w size =>
    intro t hw hrun hpc task htask
    have hinHand : t.inHand = some task := by
      rw [Worker.inHand, hrun]
      exact htask
    have htoRead : toRead (s.handler w) t = some task := by
      rcases hpc with hpc | hpc <;> rw [hpc] <;> exact hinHand
    rw [pointee, htask]
    exact hs.hands w t hw task htoRead
  | _ => trivial

theorem reads_queued_descriptor (c : Start) {ls : List Label}
    (hkeeps : Run.Always step KeepsPending (start c) ls) :
    Run.Always step ReadsQueuedDescriptor (start c) ls :=
  Run.Always.of_invariant (fun _ _ _ hs h hl => Serves.step hs (step_cases h) hl)
    (fun _ _ _ hs _ _ => Serves.reads hs) (start_pointing PointsHome c) hkeeps

def server : Start where
  pool :=
    { minThrNum := 10
      maxThrNum := 20
      queueMaxSize := 15
      slots := List.replicate 15 ⟨⟨0⟩, none⟩
      started := (List.range 10).map fun n => .created (100 + n)
      callers := 1
      slots_length := rfl
      started_length := rfl
      tids_nodup := by decide
      tids_ne_zero := by decide }
  ss := 3
  events := List.replicate 1024 0
  min_eq := rfl
  max_eq := rfl
  queue_eq := rfl
  callers_eq := rfl
  length_events := List.length_replicate

def round (fds : List Fd) (cs : Option Fd) (n : Nat) : List Label :=
  .main ⟨some fds, none, none⟩ :: List.replicate n (.main ⟨none, cs, none⟩)

def clientRun (n : Nat) : List Label :=
  round [3] (some 5) 4 ++ round [3] (some 6) 4 ++ round [5] none 12 ++
    List.replicate n (.worker 0 7)

/-- `epoll_wait` reports client 5 once more before its task has been taken. -/
theorem reads_queued_descriptor_reported_twice :
    (Run.exec step (start server) (clientRun 0 ++ round [5] none 12 ++
      List.replicate 24 (.worker 0 7))).isSome ∧
    Run.Always step ReadsQueuedDescriptor (start server)
      (clientRun 0 ++ round [5] none 12 ++ List.replicate 24 (.worker 0 7)) :=
  ⟨by decide +kernel, reads_queued_descriptor server (by decide +kernel)⟩

/-- Worker 0 has received from client 5; `epoll_wait` then reports client 6, and the answer
goes there. -/
theorem answer_sent_to_other_client :
    ∃ s s' t, Run.exec step (start server) (clientRun 10 ++ round [6] none 0) = some s ∧
      s.pool.workers[0]? = some t ∧ t.pc = .run ∧ s.handler 0 = .send ∧
      t.task = some ⟨⟨5⟩, some 0⟩ ∧ pointee s t = some 6 ∧ step s (.worker 0 7) = some s' ∧
      ¬ ReadsQueuedDescriptor s (.worker 0 7) s' := by
  obtain ⟨s, hs, hcond⟩ : ∃ s, Run.exec step (start server) (clientRun 10 ++ round [6] none 0) =
      some s ∧ (s.pool.workers[0]?.any fun t => (step s (.worker 0 7)).isSome && decide
        (t.pc = .run ∧ s.handler 0 = .send ∧ t.task = some ⟨⟨5⟩, some 0⟩ ∧
          pointee s t = some 6)) = true :=
    (Option.any_eq_true _ _).mp (by decide +kernel)
  obtain ⟨t, hw, hcond⟩ := (Option.any_eq_true _ _).mp hcond
  obtain ⟨hsome, hcond⟩ := Bool.and_eq_true_iff.mp hcond
  obtain ⟨s', hs'⟩ := Option.isSome_iff_exists.mp hsome
  obtain ⟨hrun, hpc, htask, hpointee⟩ := of_decide_eq_true hcond
  refine ⟨s, s', t, hs, hw, hrun, hpc, htask, hpointee, hs', fun hreads => ?_⟩
  have h5 := hreads t hw hrun (.inr hpc) _ htask
  rw [hpointee] at h5
  cases h5

end LearnCLinux.EpollThreadModel
