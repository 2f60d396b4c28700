import LearnCLinux.ThreadPool.State

/-! The functions of `practise/thread_pool.c`, one definition per thread function.  Each gives
the next step of one thread: what it does to the pool and to the thread's own locals, `none`
where the thread has to wait or has ended.  A step touches at most one thing that some thread
uses without holding a mutex (`shutdown`, `live_thr_num`, the condition variables), so no
interleaving the C program has is lost. -/

universe u v

namespace LearnCLinux.ThreadPool

variable {Fn : Type u} {Arg : Type v}

/-- `pthread_cond_signal`: moves one waiter, if there is any, out of the list. -/
def condSignal (waiters : List Nat) : Option Nat → Option (List Nat)
  | none => if waiters = [] then some [] else none
  | some t => if t ∈ waiters then some (waiters.filter (· ≠ t)) else none

/-- `threadpool_thread` run by worker `w`.  `ends` says whether a task function that finishes
does so by `pthread_exit` rather than by returning; no other statement reads it. -/
def threadpoolThread (w : Nat) (ends : Bool) (σ : Threadpool Fn Arg) (t : Worker Fn Arg) :
    Option (Threadpool Fn Arg × Worker Fn Arg) :=
  match t.pc with
  | .lock =>
    if σ.lock = none then some ({ σ with lock := some (.worker w) }, { t with pc := .testEmpty })
    else none
  | .testEmpty =>
    if σ.queueSize = 0 ∧ σ.shutdown = false then some (σ, { t with pc := .wait })
    else some (σ, { t with pc := .testShutdown })
  | .wait =>
    some ({ σ with lock := none, queueNotEmpty := w :: σ.queueNotEmpty }, { t with pc := .waiting })
  | .waiting =>
    if w ∉ σ.queueNotEmpty ∧ σ.lock = none then
      some ({ σ with lock := some (.worker w) }, { t with pc := .testExit })
    else none
  | .testExit =>
    if σ.waitExitThrNum > 0 then
      if σ.liveThrNum > σ.minThrNum then
        some ({ σ with waitExitThrNum := σ.waitExitThrNum - 1, liveThrNum := σ.liveThrNum - 1 },
          { t with pc := .unlockExit .self })
      else some ({ σ with waitExitThrNum := σ.waitExitThrNum - 1 }, { t with pc := .testEmpty })
    else some (σ, { t with pc := .testEmpty })
  | .testShutdown =>
    if σ.shutdown = true then some (σ, { t with pc := .unlockExit .shutdown })
    else some (σ, { t with pc := .take })
  | .unlockExit why => some ({ σ with lock := none }, { t with pc := .exit why })
  | .exit why => some (σ, { t with pc := .exited why })
  | .exited _ => none
  | .take =>
    match σ.taskQueue[σ.queueFront]? with
    | none => none
    | some task =>
      if σ.allocated = true then
        some
          ({ σ with
              queueFront := (σ.queueFront + 1) % σ.queueMaxSize
              queueSize := σ.queueSize - 1 },
            { t with task := some task, pc := .broadcastNotFull })
      else none
  | .broadcastNotFull => some ({ σ with queueNotFull := [] }, { t with pc := .unlock })
  | .unlock => some ({ σ with lock := none }, { t with pc := .lockBusy })
  | .lockBusy =>
    if σ.threadCounter = none then
      some ({ σ with threadCounter := some (.worker w) }, { t with pc := .incBusy })
    else none
  | .incBusy => some ({ σ with busyThrNum := σ.busyThrNum + 1 }, { t with pc := .unlockBusy })
  | .unlockBusy => some ({ σ with threadCounter := none }, { t with pc := .run })
  | .run =>
    if ends = true then some (σ, { t with pc := .exited .task })
    else some (σ, { t with pc := .lockIdle })
  | .lockIdle =>
    if σ.threadCounter = none then
      some ({ σ with threadCounter := some (.worker w) }, { t with pc := .decBusy })
    else none
  | .decBusy => some ({ σ with busyThrNum := σ.busyThrNum - 1 }, { t with pc := .unlockIdle })
  | .unlockIdle => some ({ σ with threadCounter := none }, { t with pc := .lock })

/-- The call `threadpool_add_task(pool, task.function, task.arg)` by a thread outside it. -/
def callAddTask (task : ThreadpoolTask Fn Arg) (t : Producer Fn Arg) : Option (Producer Fn Arg) :=
  match t.pc with
  | .idle | .returned _ => some ⟨.lock, some task⟩
  | _ => none

/-- `threadpool_add_task` run by producer `p`.  `wake` is the worker its signal reaches. -/
def threadpoolAddTask (p : Nat) (wake : Option Nat) (σ : Threadpool Fn Arg)
    (t : Producer Fn Arg) : Option (Threadpool Fn Arg × Producer Fn Arg) :=
  match t.pc with
  | .idle | .returned _ => none
  | .lock =>
    if σ.lock = none then some ({ σ with lock := some (.producer p) }, { t with pc := .testFull })
    else none
  | .testFull =>
    if σ.queueSize = σ.queueMaxSize ∧ σ.shutdown = false then some (σ, { t with pc := .wait })
    else some (σ, { t with pc := .testShutdown })
  | .wait =>
    some ({ σ with lock := none, queueNotFull := p :: σ.queueNotFull }, { t with pc := .waiting })
  | .waiting =>
    if p ∉ σ.queueNotFull ∧ σ.lock = none then
      some ({ σ with lock := some (.producer p) }, { t with pc := .testFull })
    else none
  | .testShutdown =>
    if σ.shutdown = true then some (σ, { t with pc := .unlockShutdown })
    else some (σ, { t with pc := .clearArg })
  | .unlockShutdown => some ({ σ with lock := none }, { t with pc := .returned (-1) })
  | .clearArg =>
    match σ.taskQueue[σ.queueRear]? with
    | none => none
    | some slot =>
      if σ.allocated = true then
        -- `free(slot.arg)` is visible as the event `Event.release`
        if slot.arg.isSome then
          some ({ σ with taskQueue := σ.taskQueue.set σ.queueRear { slot with arg := none } },
            { t with pc := .put })
        else some (σ, { t with pc := .put })
      else none
  | .put =>
    match t.task with
    | none => none
    | some task =>
      if σ.allocated = true then
        some
          ({ σ with
              taskQueue := σ.taskQueue.set σ.queueRear task
              queueRear := (σ.queueRear + 1) % σ.queueMaxSize
              queueSize := σ.queueSize + 1 },
            { t with pc := .signalNotEmpty })
      else none
  | .signalNotEmpty =>
    match condSignal σ.queueNotEmpty wake with
    | none => none
    | some waiters => some ({ σ with queueNotEmpty := waiters }, { t with pc := .unlock })
  | .unlock => some ({ σ with lock := none }, { t with pc := .returned 0 })

def Worker.running (t : Worker Fn Arg) : Bool :=
  match t.pc with
  | .exited _ => false
  | _ => true

/-- `is_thread_alive`.  `pthread_kill` succeeds for a thread that has not terminated; `esrch`
says whether it reports `ESRCH` for any other id. -/
def isThreadAlive (workers : List (Worker Fn Arg)) (esrch : Bool) (tid : PthreadT) : Bool :=
  workers.any (fun t => t.running && t.tid == tid) || !esrch

/-- What the surroundings decide in a step of `admin_thread`: the worker a signal reaches,
whether `pthread_kill` reports `ESRCH` for a thread that is not running, and how a call of
`pthread_create` ends. -/
structure AdminChoice where
  wake : Option Nat
  esrch : Bool
  create : PthreadCreate
  deriving DecidableEq

def fresh (workers : List (Worker Fn Arg)) (tid : PthreadT) : Bool :=
  tid != 0 && workers.all (fun t => t.tid != tid)

/-- `admin_thread`.  The last component lists the worker a step creates. -/
def adminThread (c : AdminChoice) (workers : List (Worker Fn Arg)) (σ : Threadpool Fn Arg)
    (a : Admin) : Option (Threadpool Fn Arg × Admin × List (Worker Fn Arg)) :=
  match a.pc with
  | .loop =>
    if σ.shutdown = true then some (σ, { a with pc := .returned }, [])
    else some (σ, { a with pc := .sleep }, [])
  | .sleep => some (σ, { a with pc := .lockStat }, [])
  | .lockStat =>
    if σ.lock = none then some ({ σ with lock := some .admin }, { a with pc := .readStat }, [])
    else none
  | .readStat =>
    some (σ, { a with
      queueSize := σ.queueSize, liveThrNum := σ.liveThrNum, pc := .unlockStat }, [])
  | .unlockStat => some ({ σ with lock := none }, { a with pc := .lockBusy }, [])
  | .lockBusy =>
    if σ.threadCounter = none then
      some ({ σ with threadCounter := some .admin }, { a with pc := .readBusy }, [])
    else none
  | .readBusy => some (σ, { a with busyThrNum := σ.busyThrNum, pc := .unlockBusy }, [])
  | .unlockBusy => some ({ σ with threadCounter := none }, { a with pc := .testGrow }, [])
  | .testGrow =>
    if a.queueSize ≥ minWaitTaskNum ∧ a.liveThrNum ≤ σ.maxThrNum then
      some (σ, { a with pc := .lockGrow }, [])
    else some (σ, { a with pc := .testShrink }, [])
  | .lockGrow =>
    if σ.lock = none then
      some ({ σ with lock := some .admin }, { a with add := 0, i := 0, pc := .growLoop }, [])
    else none
  | .growLoop =>
    if a.i < σ.maxThrNum ∧ a.add < defaultThreadNum ∧ σ.liveThrNum < σ.maxThrNum then
      some (σ, { a with pc := .testSlot }, [])
    else some (σ, { a with pc := .unlockGrow }, [])
  | .testSlot =>
    match σ.threads[a.i]? with
    | none => none
    | some tid =>
      if tid = 0 ∨ isThreadAlive workers c.esrch tid = false then
        some (σ, { a with pc := .create }, [])
      else some (σ, { a with i := a.i + 1, pc := .growLoop }, [])
  | .create =>
    match c.create with
    | .created tid =>
      if fresh workers tid = true then
        some ({ σ with threads := σ.threads.set a.i tid, liveThrNum := σ.liveThrNum + 1 },
          { a with add := a.add + 1, i := a.i + 1, pc := .growLoop }, [Worker.start tid])
      else none
    | .failed junk =>
      -- the result of `pthread_create` is not looked at
      some ({ σ with threads := σ.threads.set a.i junk, liveThrNum := σ.liveThrNum + 1 },
        { a with add := a.add + 1, i := a.i + 1, pc := .growLoop }, [])
  | .unlockGrow => some ({ σ with lock := none }, { a with pc := .testShrink }, [])
  | .testShrink =>
    if a.busyThrNum * 2 < a.liveThrNum ∧ a.liveThrNum > σ.minThrNum then
      some (σ, { a with pc := .lockShrink }, [])
    else some (σ, { a with pc := .loop }, [])
  | .lockShrink =>
    if σ.lock = none then some ({ σ with lock := some .admin }, { a with pc := .setExit }, [])
    else none
  | .setExit =>
    some ({ σ with waitExitThrNum := defaultThreadNum }, { a with pc := .unlockShrink }, [])
  | .unlockShrink => some ({ σ with lock := none }, { a with i := 0, pc := .signalLoop }, [])
  | .signalLoop =>
    if a.i < defaultThreadNum then
      match condSignal σ.queueNotEmpty c.wake with
      | none => none
      | some waiters => some ({ σ with queueNotEmpty := waiters }, { a with i := a.i + 1 }, [])
    else some (σ, { a with pc := .loop }, [])
  | .returned => none

/-- `threadpool_destroy` and, from `free` on, the `threadpool_free` it calls.  Joining an id
that no running worker has returns at once. -/
def threadpoolDestroy (workers : List (Worker Fn Arg)) (admin : Admin) (σ : Threadpool Fn Arg)
    (d : Destroyer) : Option (Threadpool Fn Arg × Destroyer) :=
  match d.pc with
  | .idle => some ({ σ with shutdown := true }, { d with pc := .joinAdmin })
  | .joinAdmin => if admin.pc = .returned then some (σ, ⟨.testBroadcast, 0⟩) else none
  | .testBroadcast =>
    if (d.i : Int) < σ.liveThrNum then some (σ, { d with pc := .broadcast })
    else some (σ, ⟨.testJoin, 0⟩)
  | .broadcast => some ({ σ with queueNotEmpty := [] }, ⟨.testBroadcast, d.i + 1⟩)
  | .testJoin =>
    if (d.i : Int) < σ.liveThrNum then some (σ, { d with pc := .join })
    else some (σ, { d with pc := .free })
  | .join =>
    match σ.threads[d.i]? with
    | none => none
    | some tid =>
      if workers.any (fun t => t.running && t.tid == tid) then none
      else some (σ, ⟨.testJoin, d.i + 1⟩)
  | .free => some ({ σ with allocated := false }, { d with pc := .lockLock })
  | .lockLock =>
    if σ.lock = none then some ({ σ with lock := some .destroyer }, { d with pc := .lockCounter })
    else none
  | .lockCounter =>
    if σ.threadCounter = none then
      some ({ σ with threadCounter := some .destroyer }, { d with pc := .freePool })
    else none
  -- `pthread_cond_destroy` does not return while a thread is blocked; the mutexes are destroyed while
  -- held, and nobody gets them again
  | .freePool =>
    if σ.queueNotEmpty = [] ∧ σ.queueNotFull = [] then some (σ, { d with pc := .returned })
    else none
  | .returned => none

/-- One step of the whole program.  The last two are the spurious wakeups that
`pthread_cond_wait` allows. -/
inductive Label (Fn : Type u) (Arg : Type v) : Type (max u v)
  | worker (w : Nat) (ends : Bool)
  | call (p : Nat) (task : ThreadpoolTask Fn Arg)
  | producer (p : Nat) (wake : Option Nat)
  | admin (c : AdminChoice)
  | destroy
  | wakeWorker (w : Nat)
  | wakeProducer (p : Nat)
  deriving DecidableEq

def step (s : State Fn Arg) : Label Fn Arg → Option (State Fn Arg)
  | .worker w ends =>
    match s.workers[w]? with
    | none => none
    | some t => (threadpoolThread w ends s.pool t).map fun r =>
      { s with pool := r.1, workers := s.workers.set w r.2 }
  | .call p task =>
    match s.producers[p]? with
    | none => none
    | some t => (callAddTask task t).map fun t' =>
      { s with producers := s.producers.set p t' }
  | .producer p wake =>
    match s.producers[p]? with
    | none => none
    | some t => (threadpoolAddTask p wake s.pool t).map fun r =>
      { s with pool := r.1, producers := s.producers.set p r.2 }
  | .admin c => (adminThread c s.workers s.pool s.admin).map fun r =>
    { s with pool := r.1, admin := r.2.1, workers := s.workers ++ r.2.2 }
  | .destroy => (threadpoolDestroy s.workers s.admin s.pool s.destroyer).map fun r =>
    { s with pool := r.1, destroyer := r.2 }
  | .wakeWorker w =>
    if w ∈ s.pool.queueNotEmpty then
      some { s with pool := { s.pool with
        queueNotEmpty := s.pool.queueNotEmpty.filter (· ≠ w) } }
    else none
  | .wakeProducer p =>
    if p ∈ s.pool.queueNotFull then
      some { s with pool := { s.pool with
        queueNotFull := s.pool.queueNotFull.filter (· ≠ p) } }
    else none

end LearnCLinux.ThreadPool
