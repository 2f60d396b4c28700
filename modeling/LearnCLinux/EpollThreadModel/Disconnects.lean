import LearnCLinux.EpollThreadModel.Descriptors
import LearnCLinux.ThreadPool.Terminated

/-! What a disconnecting client does to the pool.  Seen from the pool, a run of the server is one
of its own runs, in which the end of a connection ends a worker inside its task. -/

namespace LearnCLinux.EpollThreadModel

open ThreadPool (Setup AdminChoice NobodyEndedInTask NotShutDown threadpoolCreate)

def poolLabel (s : State) : Label → Option (ThreadPool.Label ServerHandle PFd)
  | .main c => match s.pc with
    | .addTask => s.events[s.i]?.map fun fd => .call 0 ⟨⟨fd⟩, some s.i⟩
    | .adding => if hasReturned s.pool then none else some (.producer 0 c.wake)
    | _ => none
  | .worker w _ => s.pool.workers[w]?.bind fun t =>
    if t.pc = .run then match s.handler w with
      | .recv | .send => none
      | .exit => some (.worker w true)
      | .ret => some (.worker w false)
    else some (.worker w false)
  | .admin c => some (.admin c)
  | .wakeWorker w => some (.wakeWorker w)
  | .wakeProducer p => some (.wakeProducer p)

def poolLabels (s : State) (l : Label) (_ : State) : List (ThreadPool.Label ServerHandle PFd) :=
  (poolLabel s l).toList

theorem exec_map_pool {s s' : State} {k : ThreadPool.Label ServerHandle PFd}
    {f : ThreadPool.State ServerHandle PFd → State} (hf : ∀ pool, (f pool).pool = pool)
    (h : (ThreadPool.step s.pool k).map f = some s') :
    Run.exec ThreadPool.step s.pool [k] = some s'.pool := by
  obtain ⟨pool, hpool, rfl⟩ := Option.map_eq_some_iff.mp h
  rw [hf]
  exact Run.exec_cons.mpr ⟨pool, hpool, rfl⟩

theorem main_pool {s s' : State} {c : MainChoice} (h : main s c = some s') :
    Run.exec ThreadPool.step s.pool (poolLabels s (.main c) s') = some s'.pool := by
  rw [main] at h
  simp only [poolLabels, poolLabel]
  split at h
  case h_1 hpc =>
    unfold epollWait at h
    rw [hpc]
    split at h
    · cases h; rfl
    · split at h <;> cases h
      rfl
  case h_2 hpc =>
    rw [hpc]
    split at h <;> cases h <;> rfl
  case h_3 hpc =>
    rw [hpc]
    split at h
    · cases h
    · split at h <;> cases h <;> rfl
  case h_4 hpc =>
    unfold accept at h
    rw [hpc]
    split at h
    · cases h; rfl
    · split at h <;> cases h
      rfl
  case h_5 hpc =>
    rw [hpc]
    split at h
    · cases h
    · next hfd =>
      rw [hfd]
      exact exec_map_pool (fun _ => rfl) h
  case h_6 hpc =>
    rw [hpc]
    dsimp only
    split at h
    · next hret =>
      cases h
      rw [if_pos hret]
      rfl
    · next hret =>
      rw [if_neg hret]
      exact exec_map_pool (fun _ => rfl) h
  case h_7 => cases h

theorem worker_pool {s s' : State} {w : Nat} {size : Int} (h : worker s w size = some s') :
    Run.exec ThreadPool.step s.pool (poolLabels s (.worker w size) s') = some s'.pool := by
  rw [worker] at h
  simp only [poolLabels, poolLabel]
  split at h
  · cases h
  · next t hw =>
    rw [hw, Option.bind_some]
    split at h
    · next hrun =>
      rw [if_pos hrun]
      cases hpc : s.handler w with
      | recv =>
        simp only [hpc] at h
        obtain ⟨fd, -, rfl⟩ := Option.map_eq_some_iff.mp h
        rfl
      | send =>
        simp only [hpc] at h
        obtain ⟨fd, -, rfl⟩ := Option.map_eq_some_iff.mp h
        rfl
      | exit =>
        simp only [hpc] at h
        exact exec_map_pool (fun _ => rfl) h
      | ret =>
        simp only [hpc] at h
        exact exec_map_pool (fun _ => rfl) h
    · next hrun =>
      rw [if_neg hrun]
      exact exec_map_pool (fun _ => rfl) h

theorem step_pool {s s' : State} {l : Label} (h : step s l = some s') :
    Run.exec ThreadPool.step s.pool (poolLabels s l s') = some s'.pool := by
  unfold step at h
  split at h
  · cases h
  cases l with
  | main c => exact main_pool h
  | worker w size => exact worker_pool h
  | admin c => exact exec_map_pool (fun _ => rfl) h
  | wakeWorker w => exact exec_map_pool (fun _ => rfl) h
  | wakeProducer p => exact exec_map_pool (fun _ => rfl) h

theorem pool_cases {s s' : State} {l : Label} (h : step s l = some s') :
    poolLabel s l = none ∧ s'.pool = s.pool ∨
      ∃ k, poolLabel s l = some k ∧ ThreadPool.Step s.pool k s'.pool := by
  have hpool := step_pool h
  rw [poolLabels] at hpool
  cases hk : poolLabel s l with
  | none =>
    rw [hk] at hpool
    exact .inl ⟨rfl, (Option.some.inj hpool).symm⟩
  | some k =>
    rw [hk] at hpool
    obtain ⟨pool, hstep, hend⟩ := Run.exec_cons.mp hpool
    cases hend
    exact .inr ⟨k, rfl, ThreadPool.step_cases hstep⟩

theorem poolLabel_ne_destroy (s : State) (l : Label) : poolLabel s l ≠ some .destroy := by
  intro h
  cases l with
  | main c =>
    simp only [poolLabel] at h
    split at h
    · obtain ⟨fd, -, hfd⟩ := Option.map_eq_some_iff.mp h
      cases hfd
    · split at h <;> cases h
    · cases h
  | worker w size =>
    obtain ⟨t, -, ht⟩ := Option.bind_eq_some_iff.mp h
    split at ht
    · split at ht <;> cases ht
    · cases ht
  | _ => cases h

theorem poolLabel_ends_task {s : State} {l : Label} {w : Nat}
    (h : poolLabel s l = some (.worker w true)) :
    ∃ size t, l = .worker w size ∧ s.pool.workers[w]? = some t ∧ t.pc = .run ∧
      s.handler w = .exit := by
  cases l with
  | main c =>
    simp only [poolLabel] at h
    split at h
    · obtain ⟨fd, -, hfd⟩ := Option.map_eq_some_iff.mp h
      cases hfd
    · split at h <;> cases h
    · cases h
  | worker v size =>
    obtain ⟨t, hw, ht⟩ := Option.bind_eq_some_iff.mp h
    split at ht
    · next hrun =>
      split at ht <;> cases ht
      exact ⟨size, t, rfl, hw, hrun, ‹_›⟩
    · cases ht
  | _ => cases h

section Runs

variable {c : Start} {ls : List Label} {s : State}

/-- Seen from the pool, a run of the server is a run of the pool. -/
theorem exec_pool (hrun : Run.exec step (start c) ls = some s) :
    Run.exec ThreadPool.step (threadpoolCreate c.pool) (Run.trace step poolLabels (start c) ls) =
      some s.pool := by
  obtain ⟨pool, hpool, rfl⟩ := Run.simulation (R := fun m pool => m.pool = pool)
    (fun m l m' pool hm hs => ⟨m'.pool, hm ▸ step_pool hs, rfl⟩) rfl hrun
  exact hpool

theorem exec_notShutDown (hrun : Run.exec step (start c) ls = some s) : NotShutDown s.pool := by
  apply Run.invariant (I := fun m => NotShutDown m.pool) _ (ThreadPool.create_notShutDown c.pool)
    hrun
  intro m l m' hm hs
  rcases pool_cases hs with ⟨-, hsame⟩ | ⟨k, hk, hstep⟩
  · rw [hsame]
    exact hm
  · apply hm.step hstep
    rintro rfl
    exact poolLabel_ne_destroy m l hk

/-- The step is not the `pthread_exit` of `server_handle`, which follows a `recv` that reported
the end of the connection or an error. -/
def StaysInPool (s : State) : Label → State → Prop
  | .worker w _, _ => ∀ t ∈ s.pool.workers[w]?, t.pc = .run → s.handler w ≠ .exit
  | _, _ => True

instance (s : State) (l : Label) (s' : State) : Decidable (StaysInPool s l s') :=
  match l with
  | .worker w _ =>
    inferInstanceAs (Decidable (∀ t ∈ s.pool.workers[w]?, t.pc = .run → s.handler w ≠ .exit))
  | .main _ | .admin _ | .wakeWorker _ | .wakeProducer _ => isTrue trivial

theorem exec_nobodyEndedInTask_iff (hrun : Run.exec step (start c) ls = some s) :
    NobodyEndedInTask s.pool ↔ Run.Always step StaysInPool (start c) ls := by
  constructor
  · intro hn
    refine (Run.Always.of_final (F := fun m => NobodyEndedInTask m.pool) ?_ hrun hn).2
    intro m l m' hs hn'
    rcases pool_cases hs with ⟨hk, hsame⟩ | ⟨k, hk, hstep⟩
    · refine ⟨hsame ▸ hn', ?_⟩
      cases l with
      | worker w size =>
        intro t hw hrun hexit
        rw [poolLabel, Option.mem_def.mp hw, Option.bind_some, if_pos hrun, hexit] at hk
        cases hk
      | _ => trivial
    · refine ⟨hn'.back hstep, ?_⟩
      cases l with
      | worker w size =>
        intro t hw hrun hexit
        rw [poolLabel, Option.mem_def.mp hw, Option.bind_some, if_pos hrun, hexit] at hk
        cases hk
        exact hn'.not_exit hw hrun hstep
      | _ => trivial
  · intro hstays
    refine Run.invariant_of_always (I := fun m => NobodyEndedInTask m.pool) ?_
      (ThreadPool.create_nobodyEndedInTask c.pool) hstays hrun
    intro m l m' hm hs hstay
    rcases pool_cases hs with ⟨-, hsame⟩ | ⟨k, hk, hstep⟩
    · rw [hsame]
      exact hm
    · apply hm.step hstep
      rintro w t rfl hw hrun
      obtain ⟨size, u, rfl, hu, -, hexit⟩ := poolLabel_ends_task hk
      exact hstay t hw hrun hexit

def failedCreates (s : State) (l : Label) (s' : State) :
    List (ThreadPool.Label ServerHandle PFd) :=
  (poolLabels s l s').filter (ThreadPool.CreateFails s.pool)

/-- How many calls of `pthread_create` have failed, in `threadpool_create` and since. -/
def failures (c : Start) (ls : List Label) : Nat :=
  c.pool.started.countP (fun r => r.tid?.isNone) +
    (Run.trace step failedCreates (start c) ls).length

theorem exec_surplus (hrun : Run.exec step (start c) ls = some s) :
    s.pool.surplus = failures c ls := by
  have hinv := Run.trace_invariant (P := fun _ _ _ => True)
    (I := fun tr m => m.pool.surplus =
      ((c.pool.started.countP (fun r => r.tid?.isNone) + tr.length : Nat) : Int))
    failedCreates ?_ [] (ThreadPool.create_surplus_eq c.pool) (Run.always_true _ _) hrun
  · exact hinv
  · intro tr m l m' hm hs _
    rw [failedCreates, poolLabels]
    rcases pool_cases hs with ⟨hk, hsame⟩ | ⟨k, hk, hstep⟩
    · rw [hk, hsame, hm]
      simp
    · rw [hk, hstep.surplus, hm]
      cases hfails : ThreadPool.CreateFails m.pool k <;> simp [hfails]
      omega

theorem pool_counts_clients_iff (hrun : Run.exec step (start c) ls = some s)
    (hlock : s.pool.pool.lock = none) (hcounter : s.pool.pool.threadCounter = none) :
    (s.pool.pool.liveThrNum = s.pool.runningWorkers ∧
      s.pool.pool.busyThrNum = s.pool.workersInTask ∧
      c.pool.minThrNum ≤ s.pool.runningWorkers) ↔
    Run.Always step StaysInPool (start c) ls ∧
      (∀ t ∈ s.pool.workers, t.pc ≠ .lockIdle) ∧ failures c ls = s.pool.leavingWorkers := by
  have hpool := exec_pool hrun
  have hbounds : c.pool.minThrNum ≤ c.pool.maxThrNum := by
    rw [c.min_eq, c.max_eq]
    decide
  have hiff := ThreadPool.counters_exact_iff (ThreadPool.exec_bounded hbounds hpool)
    (ThreadPool.exec_busyCounted hpool) (exec_notShutDown hrun) hlock hcounter
  rw [exec_nobodyEndedInTask_iff hrun, exec_surplus hrun,
    (ThreadPool.exec_constants hpool).2.1] at hiff
  rw [Int.natCast_inj] at hiff
  exact hiff

/-- Client 5 sends, and worker 0 answers and goes back to sleep. -/
theorem pool_counts_clients_after_answer :
    ∃ s, Run.exec step (start server) (clientRun 18) = some s ∧
      s.pool.pool.liveThrNum = s.pool.runningWorkers ∧
      s.pool.pool.busyThrNum = s.pool.workersInTask ∧ 10 ≤ s.pool.runningWorkers := by
  obtain ⟨s, hs, hcond⟩ : ∃ s, Run.exec step (start server) (clientRun 18) = some s ∧
      decide (s.pool.pool.lock = none ∧ s.pool.pool.threadCounter = none ∧
        (∀ t ∈ s.pool.workers, t.pc ≠ .lockIdle) ∧ s.pool.leavingWorkers = 0) = true :=
    (Option.any_eq_true _ _).mp (by decide +kernel)
  obtain ⟨hlock, hcounter, hidle, hleaving⟩ := of_decide_eq_true hcond
  have hfailures : failures server (clientRun 18) = s.pool.leavingWorkers := by
    rw [hleaving]
    decide +kernel
  have hstays : Run.Always step StaysInPool (start server) (clientRun 18) := by
    decide +kernel
  exact ⟨s, hs, (pool_counts_clients_iff hs hlock hcounter).mpr ⟨hstays, hidle, hfailures⟩⟩

/-- Client 5 connects and hangs up; the worker that notices it is gone, and counted as live and
busy all the same. -/
def hangUpRun : List Label :=
  round [3] (some 5) 4 ++ round [5] none 12 ++ List.replicate 11 (.worker 0 0)

theorem disconnect_consumes_worker :
    ∃ s, Run.exec step (start server) hangUpRun = some s ∧
      s.pool.pool.lock = none ∧ s.pool.pool.threadCounter = none ∧
      s.pool.pool.liveThrNum = 10 ∧ s.pool.runningWorkers = 9 ∧
      s.pool.pool.busyThrNum = 1 ∧ s.pool.workersInTask = 0 := by
  obtain ⟨s, hs, hcond⟩ : ∃ s, Run.exec step (start server) hangUpRun = some s ∧
      decide (s.pool.pool.lock = none ∧ s.pool.pool.threadCounter = none ∧
        s.pool.pool.liveThrNum = 10 ∧ s.pool.runningWorkers = 9 ∧
        s.pool.pool.busyThrNum = 1 ∧ s.pool.workersInTask = 0) = true :=
    (Option.any_eq_true _ _).mp (by decide +kernel)
  exact ⟨s, hs, of_decide_eq_true hcond⟩

end Runs

end LearnCLinux.EpollThreadModel
