import Mathlib.Logic.Function.Basic
import LearnCLinux.ThreadPool.Code

/-! `practise/epoll_thread_model.c`: the main loop, which hands pointers into `events` to the
thread pool, and `server_handle`, which the workers run on them. -/

namespace LearnCLinux.EpollThreadModel

open ThreadPool (Setup Worker WorkerPc ThreadpoolTask AdminChoice ProducerPc threadpoolCreate)

abbrev Fd := Int

def maxEvent : Nat := 1024
def maxClient : Nat := 10

/-- The function of every task is `server_handle`.  `queuedFor` is a history variable, the
value of `events[i].data.fd` when the task was added; no step reads it. -/
structure ServerHandle where
  queuedFor : Fd
  deriving DecidableEq

/-- An argument is a pointer; `j` with `j < maxEvent` is `&events[j].data.fd`.  The pool calls
`free` on such a pointer when it reuses a slot; a run goes on after it with `events` unchanged. -/
abbrev PFd := Nat

inductive HandlerPc : Type
  | recv
  | send
  | exit
  | ret
  deriving DecidableEq

inductive MainPc : Type
  | epollWait
  | testFor
  | testListen
  | accept
  | addTask
  | adding
  | returned
  deriving DecidableEq

structure State where
  pool : ThreadPool.State ServerHandle PFd
  ss : Fd
  registered : List Fd
  /-- `events[j].data.fd`. -/
  events : List Fd
  curFd : Nat
  i : Nat
  waitFds : Nat
  pc : MainPc
  handler : Nat → HandlerPc

/-- How the calls before the loop ended: the pool `threadpool_create(10, 20, 15)` made, the
listening socket, and what the array `events` held before the first `epoll_wait`. -/
structure Start where
  pool : Setup ServerHandle PFd
  ss : Fd
  events : List Fd
  min_eq : pool.minThrNum = 10
  max_eq : pool.maxThrNum = 20
  queue_eq : pool.queueMaxSize = 15
  callers_eq : pool.callers = 1
  length_events : events.length = maxEvent

def start (c : Start) : State where
  pool := threadpoolCreate c.pool
  ss := c.ss
  registered := [c.ss]
  events := c.events
  curFd := 1
  i := 0
  waitFds := 0
  pc := .epollWait
  handler := fun _ => .recv

def reports (s : State) (fds : List Fd) : Bool :=
  fds.length ≤ s.curFd && fds.Nodup && fds.all (· ∈ s.registered)

def epollWait (s : State) : Option (List Fd) → Option State
  | none => some { s with pc := .returned }
  | some fds =>
    if reports s fds then
      some { s with
        events := fds ++ s.events.drop fds.length
        waitFds := fds.length
        i := 0
        pc := .testFor }
    else none

def accept (s : State) : Option Fd → Option State
  | none => some { s with i := s.i + 1, pc := .testFor }
  | some cs =>
    if cs ∉ s.registered then
      some { s with
        registered := s.registered ++ [cs]
        curFd := s.curFd + 1
        i := s.i + 1
        pc := .testFor }
    else none

def callAddTask (s : State) (fd : Fd) : Option State :=
  (ThreadPool.step s.pool (.call 0 ⟨⟨fd⟩, some s.i⟩)).map fun pool =>
    { s with pool := pool, pc := .adding }

def hasReturned (pool : ThreadPool.State ServerHandle PFd) : Bool :=
  pool.producers[0]?.any fun t => match t.pc with
    | .returned _ => true
    | _ => false

/-- What the surroundings decide in a step of `main`: what `epoll_wait` and `accept` deliver and
which worker the signal of `threadpool_add_task` wakes. -/
structure MainChoice where
  ready : Option (List Fd)
  accepted : Option Fd
  wake : Option Nat
  deriving DecidableEq

def main (s : State) (c : MainChoice) : Option State :=
  match s.pc with
  | .epollWait => epollWait s c.ready
  | .testFor =>
    if s.i < s.waitFds then some { s with pc := .testListen }
    else some { s with pc := .epollWait }
  | .testListen =>
    match s.events[s.i]? with
    | none => none
    | some fd =>
      if fd = s.ss ∧ s.curFd < maxClient then some { s with pc := .accept }
      else some { s with pc := .addTask }
  | .accept => accept s c.accepted
  | .addTask =>
    match s.events[s.i]? with
    | none => none
    | some fd => callAddTask s fd
  | .adding =>
    if hasReturned s.pool then some { s with i := s.i + 1, pc := .testFor }
    else (ThreadPool.step s.pool (.producer 0 c.wake)).map fun pool => { s with pool := pool }
  | .returned => none

/-- `*cs` in `server_handle`. -/
def pointee (s : State) (t : Worker ServerHandle PFd) : Option Fd :=
  (t.task.bind ThreadpoolTask.arg).bind fun j => s.events[j]?

/-- A step of worker `w`: one of `server_handle` while it runs a task, else one of
`threadpool_thread`.  `size` is what `recv` returns. -/
def worker (s : State) (w : Nat) (size : Int) : Option State :=
  match s.pool.workers[w]? with
  | none => none
  | some t =>
    if t.pc = .run then
      match s.handler w with
      | .recv => (pointee s t).map fun _ =>
        { s with handler := Function.update s.handler w (if size ≤ 0 then .exit else .send) }
      | .send => (pointee s t).map fun _ =>
        { s with handler := Function.update s.handler w .ret }
      | .exit => (ThreadPool.step s.pool (.worker w true)).map fun pool => { s with pool := pool }
      | .ret => (ThreadPool.step s.pool (.worker w false)).map fun pool =>
        { s with pool := pool, handler := Function.update s.handler w .recv }
    else (ThreadPool.step s.pool (.worker w false)).map fun pool => { s with pool := pool }

inductive Label : Type
  | main (c : MainChoice)
  | worker (w : Nat) (size : Int)
  | admin (c : AdminChoice)
  | wakeWorker (w : Nat)
  | wakeProducer (p : Nat)
  deriving DecidableEq

/-- One step of the server.  `threadpool_destroy` stands behind an endless loop, and a `main` that
returns ends the process. -/
def step (s : State) (l : Label) : Option State :=
  if s.pc = .returned then none
  else match l with
  | .main c => main s c
  | .worker w size => worker s w size
  | .admin c => (ThreadPool.step s.pool (.admin c)).map fun pool => { s with pool := pool }
  | .wakeWorker w =>
    (ThreadPool.step s.pool (.wakeWorker w)).map fun pool => { s with pool := pool }
  | .wakeProducer p =>
    (ThreadPool.step s.pool (.wakeProducer p)).map fun pool => { s with pool := pool }

end LearnCLinux.EpollThreadModel
