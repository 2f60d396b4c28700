import LearnCLinux.Library.Threads
import LearnCLinux.ThreadPool.Code

/-! Inversion: everything a step of each thread can do.  The invariants of the following
modules are proved from these lists and never unfold the thread functions again. -/

universe u v

namespace LearnCLinux.ThreadPool

variable {Fn : Type u} {Arg : Type v}

inductive WorkerStep (w : Nat) (σ : Threadpool Fn Arg) :
    Bool → Worker Fn Arg → Threadpool Fn Arg → Worker Fn Arg → Prop
  | lock {e tid task} : σ.lock = none →
      WorkerStep w σ e ⟨tid, .lock, task⟩ { σ with lock := some (.worker w) }
        ⟨tid, .testEmpty, task⟩
  | sleep {e tid task} : σ.queueSize = 0 → σ.shutdown = false →
      WorkerStep w σ e ⟨tid, .testEmpty, task⟩ σ ⟨tid, .wait, task⟩
  | leaveLoop {e tid task} : (σ.queueSize = 0 → σ.shutdown = true) →
      WorkerStep w σ e ⟨tid, .testEmpty, task⟩ σ ⟨tid, .testShutdown, task⟩
  | wait {e tid task} :
      WorkerStep w σ e ⟨tid, .wait, task⟩
        { σ with lock := none, queueNotEmpty := w :: σ.queueNotEmpty } ⟨tid, .waiting, task⟩
  | awake {e tid task} : w ∉ σ.queueNotEmpty → σ.lock = none →
      WorkerStep w σ e ⟨tid, .waiting, task⟩ { σ with lock := some (.worker w) }
        ⟨tid, .testExit, task⟩
  | selfExit {e tid task} : σ.waitExitThrNum > 0 → σ.liveThrNum > σ.minThrNum →
      WorkerStep w σ e ⟨tid, .testExit, task⟩
        { σ with waitExitThrNum := σ.waitExitThrNum - 1, liveThrNum := σ.liveThrNum - 1 }
        ⟨tid, .unlockExit .self, task⟩
  | spendToken {e tid task} : σ.waitExitThrNum > 0 → σ.liveThrNum ≤ σ.minThrNum →
      WorkerStep w σ e ⟨tid, .testExit, task⟩ { σ with waitExitThrNum := σ.waitExitThrNum - 1 }
        ⟨tid, .testEmpty, task⟩
  | noToken {e tid task} : σ.waitExitThrNum ≤ 0 →
      WorkerStep w σ e ⟨tid, .testExit, task⟩ σ ⟨tid, .testEmpty, task⟩
  | seeShutdown {e tid task} : σ.shutdown = true →
      WorkerStep w σ e ⟨tid, .testShutdown, task⟩ σ ⟨tid, .unlockExit .shutdown, task⟩
  | goTake {e tid task} : σ.shutdown = false →
      WorkerStep w σ e ⟨tid, .testShutdown, task⟩ σ ⟨tid, .take, task⟩
  | unlockExit {e tid task why} :
      WorkerStep w σ e ⟨tid, .unlockExit why, task⟩ { σ with lock := none } ⟨tid, .exit why, task⟩
  | exit {e tid task why} :
      WorkerStep w σ e ⟨tid, .exit why, task⟩ σ ⟨tid, .exited why, task⟩
  | take {e tid task new} : σ.taskQueue[σ.queueFront]? = some new → σ.allocated = true →
      WorkerStep w σ e ⟨tid, .take, task⟩
        { σ with
          queueFront := (σ.queueFront + 1) % σ.queueMaxSize
          queueSize := σ.queueSize - 1 } ⟨tid, .broadcastNotFull, some new⟩
  | broadcastNotFull {e tid task} :
      WorkerStep w σ e ⟨tid, .broadcastNotFull, task⟩ { σ with queueNotFull := [] }
        ⟨tid, .unlock, task⟩
  | unlock {e tid task} :
      WorkerStep w σ e ⟨tid, .unlock, task⟩ { σ with lock := none } ⟨tid, .lockBusy, task⟩
  | lockBusy {e tid task} : σ.threadCounter = none →
      WorkerStep w σ e ⟨tid, .lockBusy, task⟩ { σ with threadCounter := some (.worker w) }
        ⟨tid, .incBusy, task⟩
  | incBusy {e tid task} :
      WorkerStep w σ e ⟨tid, .incBusy, task⟩ { σ with busyThrNum := σ.busyThrNum + 1 }
        ⟨tid, .unlockBusy, task⟩
  | unlockBusy {e tid task} :
      WorkerStep w σ e ⟨tid, .unlockBusy, task⟩ { σ with threadCounter := none } ⟨tid, .run, task⟩
  | taskExit {tid task} :
      WorkerStep w σ true ⟨tid, .run, task⟩ σ ⟨tid, .exited .task, task⟩
  | taskReturn {tid task} :
      WorkerStep w σ false ⟨tid, .run, task⟩ σ ⟨tid, .lockIdle, task⟩
  | lockIdle {e tid task} : σ.threadCounter = none →
      WorkerStep w σ e ⟨tid, .lockIdle, task⟩ { σ with threadCounter := some (.worker w) }
        ⟨tid, .decBusy, task⟩
  | decBusy {e tid task} :
      WorkerStep w σ e ⟨tid, .decBusy, task⟩ { σ with busyThrNum := σ.busyThrNum - 1 }
        ⟨tid, .unlockIdle, task⟩
  | unlockIdle {e tid task} :
      WorkerStep w σ e ⟨tid, .unlockIdle, task⟩ { σ with threadCounter := none } ⟨tid, .lock, task⟩

theorem threadpoolThread_cases {w : Nat} {e : Bool} {σ σ' : Threadpool Fn Arg}
    {t t' : Worker Fn Arg} (h : threadpoolThread w e σ t = some (σ', t')) :
    WorkerStep w σ e t σ' t' := by
  obtain ⟨tid, pc, task⟩ := t
  cases pc <;> simp only [threadpoolThread] at h
  case lock => split at h <;> cases h; exact .lock ‹_›
  case testEmpty =>
    split at h <;> cases h
    case isTrue hcond => exact .sleep hcond.1 hcond.2
    case isFalse hcond => exact .leaveLoop (by simpa using hcond)
  case wait => cases h; exact .wait
  case waiting =>
    split at h <;> cases h
    next hcond => exact .awake hcond.1 hcond.2
  case testExit =>
    split at h
    · next htoken =>
      split at h <;> cases h
      case isTrue hlive => exact .selfExit htoken hlive
      case isFalse hlive => exact .spendToken htoken (Int.not_lt.mp hlive)
    · next htoken => cases h; exact .noToken (Int.not_lt.mp htoken)
  case testShutdown =>
    split at h <;> cases h
    case isTrue hsh => exact .seeShutdown hsh
    case isFalse hsh => exact .goTake (by simpa using hsh)
  case unlockExit => cases h; exact .unlockExit
  case exit => cases h; exact .exit
  case exited => cases h
  case take =>
    split at h
    · cases h
    · next hslot => split at h <;> cases h; exact .take hslot ‹_›
  case broadcastNotFull => cases h; exact .broadcastNotFull
  case unlock => cases h; exact .unlock
  case lockBusy => split at h <;> cases h; exact .lockBusy ‹_›
  case incBusy => cases h; exact .incBusy
  case unlockBusy => cases h; exact .unlockBusy
  case run =>
    cases e <;> cases h
    case true => exact .taskExit
    case false => exact .taskReturn
  case lockIdle => split at h <;> cases h; exact .lockIdle ‹_›
  case decBusy => cases h; exact .decBusy
  case unlockIdle => cases h; exact .unlockIdle

inductive ProducerStep (p : Nat) (wake : Option Nat) (σ : Threadpool Fn Arg) :
    Producer Fn Arg → Threadpool Fn Arg → Producer Fn Arg → Prop
  | lock {task} : σ.lock = none →
      ProducerStep p wake σ ⟨.lock, task⟩ { σ with lock := some (.producer p) } ⟨.testFull, task⟩
  | sleep {task} : σ.queueSize = σ.queueMaxSize → σ.shutdown = false →
      ProducerStep p wake σ ⟨.testFull, task⟩ σ ⟨.wait, task⟩
  | leaveLoop {task} : (σ.queueSize = σ.queueMaxSize → σ.shutdown = true) →
      ProducerStep p wake σ ⟨.testFull, task⟩ σ ⟨.testShutdown, task⟩
  | wait {task} :
      ProducerStep p wake σ ⟨.wait, task⟩
        { σ with lock := none, queueNotFull := p :: σ.queueNotFull } ⟨.waiting, task⟩
  | awake {task} : p ∉ σ.queueNotFull → σ.lock = none →
      ProducerStep p wake σ ⟨.waiting, task⟩ { σ with lock := some (.producer p) }
        ⟨.testFull, task⟩
  | seeShutdown {task} : σ.shutdown = true →
      ProducerStep p wake σ ⟨.testShutdown, task⟩ σ ⟨.unlockShutdown, task⟩
  | goClear {task} : σ.shutdown = false →
      ProducerStep p wake σ ⟨.testShutdown, task⟩ σ ⟨.clearArg, task⟩
  | unlockShutdown {task} :
      ProducerStep p wake σ ⟨.unlockShutdown, task⟩ { σ with lock := none } ⟨.returned (-1), task⟩
  | release {task slot arg} : σ.taskQueue[σ.queueRear]? = some slot → σ.allocated = true →
      slot.arg = some arg →
      ProducerStep p wake σ ⟨.clearArg, task⟩
        { σ with taskQueue := σ.taskQueue.set σ.queueRear { slot with arg := none } } ⟨.put, task⟩
  | keepNull {task slot} : σ.taskQueue[σ.queueRear]? = some slot → σ.allocated = true →
      slot.arg = none →
      ProducerStep p wake σ ⟨.clearArg, task⟩ σ ⟨.put, task⟩
  | put {new} : σ.allocated = true →
      ProducerStep p wake σ ⟨.put, some new⟩
        { σ with
          taskQueue := σ.taskQueue.set σ.queueRear new
          queueRear := (σ.queueRear + 1) % σ.queueMaxSize
          queueSize := σ.queueSize + 1 } ⟨.signalNotEmpty, some new⟩
  | signalNotEmpty {task waiters} : condSignal σ.queueNotEmpty wake = some waiters →
      ProducerStep p wake σ ⟨.signalNotEmpty, task⟩ { σ with queueNotEmpty := waiters }
        ⟨.unlock, task⟩
  | unlock {task} :
      ProducerStep p wake σ ⟨.unlock, task⟩ { σ with lock := none } ⟨.returned 0, task⟩

theorem threadpoolAddTask_cases {p : Nat} {wake : Option Nat} {σ σ' : Threadpool Fn Arg}
    {t t' : Producer Fn Arg} (h : threadpoolAddTask p wake σ t = some (σ', t')) :
    ProducerStep p wake σ t σ' t' := by
  obtain ⟨pc, task⟩ := t
  cases pc <;> simp only [threadpoolAddTask] at h
  case idle => cases h
  case returned => cases h
  case lock => split at h <;> cases h; exact .lock ‹_›
  case testFull =>
    split at h <;> cases h
    case isTrue hcond => exact .sleep hcond.1 hcond.2
    case isFalse hcond => exact .leaveLoop (by simpa using hcond)
  case wait => cases h; exact .wait
  case waiting =>
    split at h <;> cases h
    next hcond => exact .awake hcond.1 hcond.2
  case testShutdown =>
    split at h <;> cases h
    case isTrue hsh => exact .seeShutdown hsh
    case isFalse hsh => exact .goClear (by simpa using hsh)
  case unlockShutdown => cases h; exact .unlockShutdown
  case clearArg =>
    split at h
    · cases h
    · next slot hslot =>
      split at h
      · next halloc =>
        cases harg : slot.arg with
        | none => simp only [harg] at h; cases h; exact .keepNull hslot halloc harg
        | some arg => simp only [harg] at h; cases h; exact .release hslot halloc harg
      · cases h
  case put =>
    split at h
    · cases h
    · split at h <;> cases h
      next halloc => exact .put halloc
  case signalNotEmpty =>
    split at h
    · cases h
    · next hwake => cases h; exact .signalNotEmpty hwake
  case unlock => cases h; exact .unlock

inductive AdminStep (c : AdminChoice) (ws : List (Worker Fn Arg)) (σ : Threadpool Fn Arg) :
    Admin → Threadpool Fn Arg → Admin → List (Worker Fn Arg) → Prop
  | seeShutdown {i n : Nat} {q l b : Int} : σ.shutdown = true →
      AdminStep c ws σ ⟨.loop, i, n, q, l, b⟩ σ ⟨.returned, i, n, q, l, b⟩ []
  | goSleep {i n : Nat} {q l b : Int} : σ.shutdown = false →
      AdminStep c ws σ ⟨.loop, i, n, q, l, b⟩ σ ⟨.sleep, i, n, q, l, b⟩ []
  | sleep {i n : Nat} {q l b : Int} :
      AdminStep c ws σ ⟨.sleep, i, n, q, l, b⟩ σ ⟨.lockStat, i, n, q, l, b⟩ []
  | lockStat {i n : Nat} {q l b : Int} : σ.lock = none →
      AdminStep c ws σ ⟨.lockStat, i, n, q, l, b⟩ { σ with lock := some .admin }
        ⟨.readStat, i, n, q, l, b⟩ []
  | readStat {i n : Nat} {q l b : Int} :
      AdminStep c ws σ ⟨.readStat, i, n, q, l, b⟩ σ
        ⟨.unlockStat, i, n, σ.queueSize, σ.liveThrNum, b⟩ []
  | unlockStat {i n : Nat} {q l b : Int} :
      AdminStep c ws σ ⟨.unlockStat, i, n, q, l, b⟩ { σ with lock := none }
        ⟨.lockBusy, i, n, q, l, b⟩ []
  | lockBusy {i n : Nat} {q l b : Int} : σ.threadCounter = none →
      AdminStep c ws σ ⟨.lockBusy, i, n, q, l, b⟩ { σ with threadCounter := some .admin }
        ⟨.readBusy, i, n, q, l, b⟩ []
  | readBusy {i n : Nat} {q l b : Int} :
      AdminStep c ws σ ⟨.readBusy, i, n, q, l, b⟩ σ ⟨.unlockBusy, i, n, q, l, σ.busyThrNum⟩ []
  | unlockBusy {i n : Nat} {q l b : Int} :
      AdminStep c ws σ ⟨.unlockBusy, i, n, q, l, b⟩ { σ with threadCounter := none }
        ⟨.testGrow, i, n, q, l, b⟩ []
  | goGrow {i n : Nat} {q l b : Int} : q ≥ minWaitTaskNum → l ≤ σ.maxThrNum →
      AdminStep c ws σ ⟨.testGrow, i, n, q, l, b⟩ σ ⟨.lockGrow, i, n, q, l, b⟩ []
  | skipGrow {i n : Nat} {q l b : Int} :
      AdminStep c ws σ ⟨.testGrow, i, n, q, l, b⟩ σ ⟨.testShrink, i, n, q, l, b⟩ []
  | lockGrow {i n : Nat} {q l b : Int} : σ.lock = none →
      AdminStep c ws σ ⟨.lockGrow, i, n, q, l, b⟩ { σ with lock := some .admin }
        ⟨.growLoop, 0, 0, q, l, b⟩ []
  | goSlot {i n : Nat} {q l b : Int} : i < σ.maxThrNum → n < defaultThreadNum →
      σ.liveThrNum < σ.maxThrNum →
      AdminStep c ws σ ⟨.growLoop, i, n, q, l, b⟩ σ ⟨.testSlot, i, n, q, l, b⟩ []
  | leaveGrow {i n : Nat} {q l b : Int} :
      AdminStep c ws σ ⟨.growLoop, i, n, q, l, b⟩ σ ⟨.unlockGrow, i, n, q, l, b⟩ []
  | goCreate {i n : Nat} {q l b : Int} {tid} : σ.threads[i]? = some tid →
      (tid = 0 ∨ isThreadAlive ws c.esrch tid = false) →
      AdminStep c ws σ ⟨.testSlot, i, n, q, l, b⟩ σ ⟨.create, i, n, q, l, b⟩ []
  | skipSlot {i n : Nat} {q l b : Int} :
      AdminStep c ws σ ⟨.testSlot, i, n, q, l, b⟩ σ ⟨.growLoop, i + 1, n, q, l, b⟩ []
  | create {i n : Nat} {q l b : Int} {tid} : c.create = .created tid → fresh ws tid = true →
      AdminStep c ws σ ⟨.create, i, n, q, l, b⟩
        { σ with threads := σ.threads.set i tid, liveThrNum := σ.liveThrNum + 1 }
        ⟨.growLoop, i + 1, n + 1, q, l, b⟩ [Worker.start tid]
  | createFailed {i n : Nat} {q l b : Int} {junk} : c.create = .failed junk →
      AdminStep c ws σ ⟨.create, i, n, q, l, b⟩
        { σ with threads := σ.threads.set i junk, liveThrNum := σ.liveThrNum + 1 }
        ⟨.growLoop, i + 1, n + 1, q, l, b⟩ []
  | unlockGrow {i n : Nat} {q l b : Int} :
      AdminStep c ws σ ⟨.unlockGrow, i, n, q, l, b⟩ { σ with lock := none }
        ⟨.testShrink, i, n, q, l, b⟩ []
  | goShrink {i n : Nat} {q l b : Int} : b * 2 < l → l > σ.minThrNum →
      AdminStep c ws σ ⟨.testShrink, i, n, q, l, b⟩ σ ⟨.lockShrink, i, n, q, l, b⟩ []
  | skipShrink {i n : Nat} {q l b : Int} :
      AdminStep c ws σ ⟨.testShrink, i, n, q, l, b⟩ σ ⟨.loop, i, n, q, l, b⟩ []
  | lockShrink {i n : Nat} {q l b : Int} : σ.lock = none →
      AdminStep c ws σ ⟨.lockShrink, i, n, q, l, b⟩ { σ with lock := some .admin }
        ⟨.setExit, i, n, q, l, b⟩ []
  | setExit {i n : Nat} {q l b : Int} :
      AdminStep c ws σ ⟨.setExit, i, n, q, l, b⟩ { σ with waitExitThrNum := defaultThreadNum }
        ⟨.unlockShrink, i, n, q, l, b⟩ []
  | unlockShrink {i n : Nat} {q l b : Int} :
      AdminStep c ws σ ⟨.unlockShrink, i, n, q, l, b⟩ { σ with lock := none }
        ⟨.signalLoop, 0, n, q, l, b⟩ []
  | signal {i n : Nat} {q l b : Int} {waiters} : i < defaultThreadNum →
      condSignal σ.queueNotEmpty c.wake = some waiters →
      AdminStep c ws σ ⟨.signalLoop, i, n, q, l, b⟩ { σ with queueNotEmpty := waiters }
        ⟨.signalLoop, i + 1, n, q, l, b⟩ []
  | leaveSignal {i n : Nat} {q l b : Int} :
      AdminStep c ws σ ⟨.signalLoop, i, n, q, l, b⟩ σ ⟨.loop, i, n, q, l, b⟩ []

theorem adminThread_cases {c : AdminChoice} {ws new : List (Worker Fn Arg)}
    {σ σ' : Threadpool Fn Arg} {a a' : Admin}
    (h : adminThread c ws σ a = some (σ', a', new)) : AdminStep c ws σ a σ' a' new := by
  obtain ⟨pc, i, n, q, l, b⟩ := a
  cases pc <;> simp only [adminThread] at h
  case loop =>
    split at h <;> cases h
    case isTrue hsh => exact .seeShutdown hsh
    case isFalse hsh => exact .goSleep (by simpa using hsh)
  case sleep => cases h; exact .sleep
  case lockStat => split at h <;> cases h; exact .lockStat ‹_›
  case readStat => cases h; exact .readStat
  case unlockStat => cases h; exact .unlockStat
  case lockBusy => split at h <;> cases h; exact .lockBusy ‹_›
  case readBusy => cases h; exact .readBusy
  case unlockBusy => cases h; exact .unlockBusy
  case testGrow =>
    split at h <;> cases h
    case isTrue hcond => exact .goGrow hcond.1 hcond.2
    case isFalse => exact .skipGrow
  case lockGrow => split at h <;> cases h; exact .lockGrow ‹_›
  case growLoop =>
    split at h <;> cases h
    case isTrue hcond => exact .goSlot hcond.1 hcond.2.1 hcond.2.2
    case isFalse => exact .leaveGrow
  case testSlot =>
    split at h
    · cases h
    · next hslot =>
      split at h <;> cases h
      case isTrue hdead => exact .goCreate hslot hdead
      case isFalse => exact .skipSlot
  case create =>
    split at h
    · next hcreate => split at h <;> cases h; exact .create hcreate ‹_›
    · next hcreate => cases h; exact .createFailed hcreate
  case unlockGrow => cases h; exact .unlockGrow
  case testShrink =>
    split at h <;> cases h
    case isTrue hcond => exact .goShrink hcond.1 hcond.2
    case isFalse => exact .skipShrink
  case lockShrink => split at h <;> cases h; exact .lockShrink ‹_›
  case setExit => cases h; exact .setExit
  case unlockShrink => cases h; exact .unlockShrink
  case signalLoop =>
    split at h
    · next hi =>
      split at h
      · cases h
      · next hwake => cases h; exact .signal hi hwake
    · cases h; exact .leaveSignal
  case returned => cases h

inductive DestroyerStep (ws : List (Worker Fn Arg)) (admin : Admin) (σ : Threadpool Fn Arg) :
    Destroyer → Threadpool Fn Arg → Destroyer → Prop
  | setShutdown {i : Nat} :
      DestroyerStep ws admin σ ⟨.idle, i⟩ { σ with shutdown := true } ⟨.joinAdmin, i⟩
  | joinAdmin {i : Nat} : admin.pc = .returned →
      DestroyerStep ws admin σ ⟨.joinAdmin, i⟩ σ ⟨.testBroadcast, 0⟩
  | goBroadcast {i : Nat} : (i : Int) < σ.liveThrNum →
      DestroyerStep ws admin σ ⟨.testBroadcast, i⟩ σ ⟨.broadcast, i⟩
  | leaveBroadcast {i : Nat} : σ.liveThrNum ≤ (i : Int) →
      DestroyerStep ws admin σ ⟨.testBroadcast, i⟩ σ ⟨.testJoin, 0⟩
  | broadcast {i : Nat} :
      DestroyerStep ws admin σ ⟨.broadcast, i⟩ { σ with queueNotEmpty := [] }
        ⟨.testBroadcast, i + 1⟩
  | goJoin {i : Nat} : (i : Int) < σ.liveThrNum →
      DestroyerStep ws admin σ ⟨.testJoin, i⟩ σ ⟨.join, i⟩
  | leaveJoin {i : Nat} : σ.liveThrNum ≤ (i : Int) →
      DestroyerStep ws admin σ ⟨.testJoin, i⟩ σ ⟨.free, i⟩
  | join {i : Nat} {tid} : σ.threads[i]? = some tid →
      (∀ t ∈ ws, t.running = true → t.tid ≠ tid) →
      DestroyerStep ws admin σ ⟨.join, i⟩ σ ⟨.testJoin, i + 1⟩
  | free {i : Nat} :
      DestroyerStep ws admin σ ⟨.free, i⟩ { σ with allocated := false } ⟨.lockLock, i⟩
  | lockLock {i : Nat} : σ.lock = none →
      DestroyerStep ws admin σ ⟨.lockLock, i⟩ { σ with lock := some .destroyer } ⟨.lockCounter, i⟩
  | lockCounter {i : Nat} : σ.threadCounter = none →
      DestroyerStep ws admin σ ⟨.lockCounter, i⟩ { σ with threadCounter := some .destroyer }
        ⟨.freePool, i⟩
  | freePool {i : Nat} : σ.queueNotEmpty = [] → σ.queueNotFull = [] →
      DestroyerStep ws admin σ ⟨.freePool, i⟩ σ ⟨.returned, i⟩

theorem threadpoolDestroy_cases {ws : List (Worker Fn Arg)} {admin : Admin}
    {σ σ' : Threadpool Fn Arg} {d d' : Destroyer}
    (h : threadpoolDestroy ws admin σ d = some (σ', d')) :
    DestroyerStep ws admin σ d σ' d' := by
  obtain ⟨pc, i⟩ := d
  cases pc <;> simp only [threadpoolDestroy] at h
  case idle => cases h; exact .setShutdown
  case joinAdmin => split at h <;> cases h; exact .joinAdmin ‹_›
  case testBroadcast =>
    split at h <;> cases h
    case isTrue hi => exact .goBroadcast hi
    case isFalse hi => exact .leaveBroadcast (Int.not_lt.mp hi)
  case broadcast => cases h; exact .broadcast
  case testJoin =>
    split at h <;> cases h
    case isTrue hi => exact .goJoin hi
    case isFalse hi => exact .leaveJoin (Int.not_lt.mp hi)
  case join =>
    split at h
    · cases h
    · next hslot =>
      split at h <;> cases h
      next hrunning => exact .join hslot (by simpa using hrunning)
  case free => cases h; exact .free
  case lockLock => split at h <;> cases h; exact .lockLock ‹_›
  case lockCounter => split at h <;> cases h; exact .lockCounter ‹_›
  case freePool =>
    split at h <;> cases h
    next hnobody => exact .freePool hnobody.1 hnobody.2
  case returned => cases h

inductive Step (s : State Fn Arg) : Label Fn Arg → State Fn Arg → Prop
  | worker {w e t σ' t'} : s.workers[w]? = some t → WorkerStep w s.pool e t σ' t' →
      Step s (.worker w e) { s with pool := σ', workers := s.workers.set w t' }
  | call {p task t} : s.producers[p]? = some t → (t.pc = .idle ∨ ∃ n, t.pc = .returned n) →
      Step s (.call p task) { s with producers := s.producers.set p ⟨.lock, some task⟩ }
  | producer {p wake t σ' t'} : s.producers[p]? = some t → ProducerStep p wake s.pool t σ' t' →
      Step s (.producer p wake) { s with pool := σ', producers := s.producers.set p t' }
  | admin {c a σ' a' new} : s.admin = a → AdminStep c s.workers s.pool a σ' a' new →
      Step s (.admin c) { s with pool := σ', admin := a', workers := s.workers ++ new }
  | destroy {d σ' d'} : s.destroyer = d → DestroyerStep s.workers s.admin s.pool d σ' d' →
      Step s .destroy { s with pool := σ', destroyer := d' }
  | wakeWorker {w} : w ∈ s.pool.queueNotEmpty →
      Step s (.wakeWorker w) { s with pool := { s.pool with
        queueNotEmpty := s.pool.queueNotEmpty.filter (· ≠ w) } }
  | wakeProducer {p} : p ∈ s.pool.queueNotFull →
      Step s (.wakeProducer p) { s with pool := { s.pool with
        queueNotFull := s.pool.queueNotFull.filter (· ≠ p) } }

theorem step_cases {s s' : State Fn Arg} {l : Label Fn Arg} (h : step s l = some s') :
    Step s l s' := by
  cases l <;> simp only [step] at h
  case worker w e =>
    split at h
    · cases h
    · next hw =>
      obtain ⟨⟨σ', t'⟩, hr, rfl⟩ := Option.map_eq_some_iff.mp h
      exact .worker hw (threadpoolThread_cases hr)
  case call p task =>
    split at h
    · cases h
    · next t hp =>
      obtain ⟨t', hr, rfl⟩ := Option.map_eq_some_iff.mp h
      unfold callAddTask at hr
      split at hr <;> cases hr
      case h_1 hpc => exact .call hp (.inl hpc)
      case h_2 hpc => exact .call hp (.inr ⟨_, hpc⟩)
  case producer p wake =>
    split at h
    · cases h
    · next hp =>
      obtain ⟨⟨σ', t'⟩, hr, rfl⟩ := Option.map_eq_some_iff.mp h
      exact .producer hp (threadpoolAddTask_cases hr)
  case admin c =>
    obtain ⟨⟨σ', a', new⟩, hr, rfl⟩ := Option.map_eq_some_iff.mp h
    exact .admin rfl (adminThread_cases hr)
  case destroy =>
    obtain ⟨⟨σ', d'⟩, hr, rfl⟩ := Option.map_eq_some_iff.mp h
    exact .destroy rfl (threadpoolDestroy_cases hr)
  case wakeWorker w => split at h <;> cases h; exact .wakeWorker ‹_›
  case wakeProducer p => split at h <;> cases h; exact .wakeProducer ‹_›

end LearnCLinux.ThreadPool
