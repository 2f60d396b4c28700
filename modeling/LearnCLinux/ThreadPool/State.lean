/-! The data of `practise/thread_pool.c`: the pool, the threads that share it, and where each
thread stands in its function.  A program counter names the statement the thread runs next. -/

universe u v

namespace LearnCLinux.ThreadPool

def defaultThreadNum : Nat := 4
def minWaitTaskNum : Nat := 4

/-- `pthread_t`; 0 marks an unused entry of `threads`. -/
abbrev PthreadT := Nat

/-- Who takes a step.  Workers are numbered in the order of their creation, producers are the
callers of `threadpool_add_task`. -/
inductive Tid : Type
  | worker : Nat → Tid
  | producer : Nat → Tid
  | admin : Tid
  | destroyer : Tid
  deriving DecidableEq

structure ThreadpoolTask (Fn : Type u) (Arg : Type v) where
  function : Fn
  arg : Option Arg
  deriving DecidableEq

/-- The mutexes are their owners, the condition variables the threads blocked on them: a
thread inside `pthread_cond_wait` that is in neither list has a wakeup pending. -/
structure Threadpool (Fn : Type u) (Arg : Type v) where
  lock : Option Tid
  threadCounter : Option Tid
  queueNotFull : List Nat
  queueNotEmpty : List Nat
  threads : List PthreadT
  taskQueue : List (ThreadpoolTask Fn Arg)
  minThrNum : Nat
  maxThrNum : Nat
  liveThrNum : Int
  busyThrNum : Int
  waitExitThrNum : Int
  queueFront : Nat
  queueRear : Nat
  queueSize : Int
  queueMaxSize : Nat
  shutdown : Bool
  /-- `task_queue` and `threads` have not been freed. -/
  allocated : Bool
  deriving DecidableEq

/-- Why a worker ends: the self-exit branch, the shutdown branch, or a task function that calls
`pthread_exit`. -/
inductive Exit : Type
  | self
  | shutdown
  | task
  deriving DecidableEq

inductive WorkerPc : Type
  | lock
  | testEmpty
  | wait
  | waiting
  | testExit
  | testShutdown
  | unlockExit : Exit → WorkerPc
  | exit : Exit → WorkerPc
  | exited : Exit → WorkerPc
  | take
  | broadcastNotFull
  | unlock
  | lockBusy
  | incBusy
  | unlockBusy
  | run
  | lockIdle
  | decBusy
  | unlockIdle
  deriving DecidableEq

structure Worker (Fn : Type u) (Arg : Type v) where
  tid : PthreadT
  pc : WorkerPc
  task : Option (ThreadpoolTask Fn Arg)
  deriving DecidableEq

inductive ProducerPc : Type
  | idle
  | lock
  | testFull
  | wait
  | waiting
  | testShutdown
  | unlockShutdown
  | clearArg
  | put
  | signalNotEmpty
  | unlock
  | returned : Int → ProducerPc
  deriving DecidableEq

structure Producer (Fn : Type u) (Arg : Type v) where
  pc : ProducerPc
  task : Option (ThreadpoolTask Fn Arg)
  deriving DecidableEq

inductive AdminPc : Type
  | loop
  | sleep
  | lockStat
  | readStat
  | unlockStat
  | lockBusy
  | readBusy
  | unlockBusy
  | testGrow
  | lockGrow
  | growLoop
  | testSlot
  | create
  | unlockGrow
  | testShrink
  | lockShrink
  | setExit
  | unlockShrink
  | signalLoop
  | returned
  deriving DecidableEq

structure Admin where
  pc : AdminPc
  i : Nat
  add : Nat
  queueSize : Int
  liveThrNum : Int
  busyThrNum : Int
  deriving DecidableEq

inductive DestroyerPc : Type
  | idle
  | joinAdmin
  | testBroadcast
  | broadcast
  | testJoin
  | join
  | free
  | lockLock
  | lockCounter
  | freePool
  | returned
  deriving DecidableEq

structure Destroyer where
  pc : DestroyerPc
  i : Nat
  deriving DecidableEq

structure State (Fn : Type u) (Arg : Type v) where
  pool : Threadpool Fn Arg
  workers : List (Worker Fn Arg)
  producers : List (Producer Fn Arg)
  admin : Admin
  destroyer : Destroyer
  deriving DecidableEq

/-- How a call of `pthread_create` ends.  When it fails, what `*thread` holds is unspecified. -/
inductive PthreadCreate : Type
  | created : PthreadT → PthreadCreate
  | failed : PthreadT → PthreadCreate
  deriving DecidableEq

def PthreadCreate.slot : PthreadCreate → PthreadT
  | .created tid => tid
  | .failed junk => junk

def PthreadCreate.tid? : PthreadCreate → Option PthreadT
  | .created tid => some tid
  | .failed _ => none

/-- The arguments of `threadpool_create`, what `malloc` left in `task_queue`, how each
`pthread_create` ended, and the number of threads that may call `threadpool_add_task`. -/
structure Setup (Fn : Type u) (Arg : Type v) where
  minThrNum : Nat
  maxThrNum : Nat
  queueMaxSize : Nat
  slots : List (ThreadpoolTask Fn Arg)
  started : List PthreadCreate
  callers : Nat
  slots_length : slots.length = queueMaxSize
  started_length : started.length = minThrNum
  tids_nodup : (started.filterMap PthreadCreate.tid?).Nodup
  tids_ne_zero : 0 ∉ started.filterMap PthreadCreate.tid?

variable {Fn : Type u} {Arg : Type v}

def Worker.start (tid : PthreadT) : Worker Fn Arg := ⟨tid, .lock, none⟩

/-- The pool `threadpool_create` returns when every `malloc` and `init` in it succeeds. -/
def threadpoolCreate (c : Setup Fn Arg) : State Fn Arg where
  pool :=
    { lock := none
      threadCounter := none
      queueNotFull := []
      queueNotEmpty := []
      threads := c.started.map PthreadCreate.slot ++ List.replicate (c.maxThrNum - c.minThrNum) 0
      taskQueue := c.slots
      minThrNum := c.minThrNum
      maxThrNum := c.maxThrNum
      liveThrNum := c.minThrNum
      busyThrNum := 0
      waitExitThrNum := 0
      queueFront := 0
      queueRear := 0
      queueSize := 0
      queueMaxSize := c.queueMaxSize
      shutdown := false
      allocated := true }
  workers := (c.started.filterMap PthreadCreate.tid?).map Worker.start
  producers := List.replicate c.callers ⟨.idle, none⟩
  admin := ⟨.loop, 0, 0, 0, 0, 0⟩
  destroyer := ⟨.idle, 0⟩

end LearnCLinux.ThreadPool
