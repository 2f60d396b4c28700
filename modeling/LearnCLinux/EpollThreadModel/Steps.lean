import LearnCLinux.EpollThreadModel.Code
import LearnCLinux.ThreadPool.Steps

/-! Inversion: everything a step of the server can do. -/

namespace LearnCLinux.EpollThreadModel

inductive Step (s : State) : Label → State → Prop
  | waitFailed {c} : s.pc = .epollWait → c.ready = none →
      Step s (.main c) { s with pc := .returned }
  | waited {c fds} : s.pc = .epollWait → c.ready = some fds → reports s fds = true →
      Step s (.main c) { s with
        events := fds ++ s.events.drop fds.length, waitFds := fds.length, i := 0, pc := .testFor }
  | goTest {c} : s.pc = .testFor → s.i < s.waitFds →
      Step s (.main c) { s with pc := .testListen }
  | leaveFor {c} : s.pc = .testFor → Step s (.main c) { s with pc := .epollWait }
  | goAccept {c} : s.pc = .testListen → s.events[s.i]? = some s.ss → s.curFd < maxClient →
      Step s (.main c) { s with pc := .accept }
  | goAdd {c fd} : s.pc = .testListen → s.events[s.i]? = some fd →
      (fd = s.ss → maxClient ≤ s.curFd) → Step s (.main c) { s with pc := .addTask }
  | acceptFailed {c} : s.pc = .accept → c.accepted = none →
      Step s (.main c) { s with i := s.i + 1, pc := .testFor }
  | accepted {c cs} : s.pc = .accept → c.accepted = some cs → cs ∉ s.registered →
      Step s (.main c) { s with
        registered := s.registered ++ [cs], curFd := s.curFd + 1, i := s.i + 1, pc := .testFor }
  | call {c fd pool} : s.pc = .addTask → s.events[s.i]? = some fd →
      ThreadPool.Step s.pool (.call 0 ⟨⟨fd⟩, some s.i⟩) pool →
      Step s (.main c) { s with pool := pool, pc := .adding }
  | added {c} : s.pc = .adding → hasReturned s.pool = true →
      Step s (.main c) { s with i := s.i + 1, pc := .testFor }
  | adding {c pool} : s.pc = .adding → ThreadPool.Step s.pool (.producer 0 c.wake) pool →
      Step s (.main c) { s with pool := pool }
  | recv {w size t fd} : s.pool.workers[w]? = some t → t.pc = .run → s.handler w = .recv →
      pointee s t = some fd →
      Step s (.worker w size)
        { s with handler := Function.update s.handler w (if size ≤ 0 then .exit else .send) }
  | send {w size t fd} : s.pool.workers[w]? = some t → t.pc = .run → s.handler w = .send →
      pointee s t = some fd →
      Step s (.worker w size) { s with handler := Function.update s.handler w .ret }
  | exit {w size pool} : s.handler w = .exit → ThreadPool.Step s.pool (.worker w true) pool →
      Step s (.worker w size) { s with pool := pool }
  | ret {w size t pool} : s.pool.workers[w]? = some t → t.pc = .run → s.handler w = .ret →
      ThreadPool.Step s.pool (.worker w false) pool →
      Step s (.worker w size)
        { s with pool := pool, handler := Function.update s.handler w .recv }
  | worker {w size t pool} : s.pool.workers[w]? = some t → t.pc ≠ .run →
      ThreadPool.Step s.pool (.worker w false) pool →
      Step s (.worker w size) { s with pool := pool }
  | admin {c pool} : ThreadPool.Step s.pool (.admin c) pool →
      Step s (.admin c) { s with pool := pool }
  | wakeWorker {w pool} : ThreadPool.Step s.pool (.wakeWorker w) pool →
      Step s (.wakeWorker w) { s with pool := pool }
  | wakeProducer {p pool} : ThreadPool.Step s.pool (.wakeProducer p) pool →
      Step s (.wakeProducer p) { s with pool := pool }

theorem main_cases {s s' : State} {c : MainChoice} (h : main s c = some s') :
    Step s (.main c) s' := by
  rw [main] at h
  split at h
  case h_1 hpc =>
    unfold epollWait at h
    split at h
    · next hready => cases h; exact .waitFailed hpc hready
    · next hready =>
      split at h <;> cases h
      exact .waited hpc hready ‹_›
  case h_2 hpc =>
    split at h <;> cases h
    case isTrue hlt => exact .goTest hpc hlt
    case isFalse => exact .leaveFor hpc
  case h_3 hpc =>
    split at h
    · cases h
    · next fd hfd =>
      split at h <;> cases h
      case isTrue hcond => exact .goAccept hpc (hcond.1 ▸ hfd) hcond.2
      case isFalse hcond => exact .goAdd hpc hfd (by simpa using hcond)
  case h_4 hpc =>
    unfold accept at h
    split at h
    · next haccepted => cases h; exact .acceptFailed hpc haccepted
    · next haccepted =>
      split at h <;> cases h
      exact .accepted hpc haccepted ‹_›
  case h_5 hpc =>
    split at h
    · cases h
    · next hfd =>
      obtain ⟨pool, hpool, rfl⟩ := Option.map_eq_some_iff.mp h
      exact .call hpc hfd (ThreadPool.step_cases hpool)
  case h_6 hpc =>
    split at h
    · next hret => cases h; exact .added hpc hret
    · obtain ⟨pool, hpool, rfl⟩ := Option.map_eq_some_iff.mp h
      exact .adding hpc (ThreadPool.step_cases hpool)
  case h_7 => cases h

theorem worker_cases {s s' : State} {w : Nat} {size : Int} (h : worker s w size = some s') :
    Step s (.worker w size) s' := by
  rw [worker] at h
  split at h
  · cases h
  · next t hw =>
    split at h
    · next hrun =>
      split at h <;> obtain ⟨x, hx, rfl⟩ := Option.map_eq_some_iff.mp h
      case h_1 hpc => exact .recv hw hrun hpc hx
      case h_2 hpc => exact .send hw hrun hpc hx
      case h_3 hpc => exact .exit hpc (ThreadPool.step_cases hx)
      case h_4 hpc => exact .ret hw hrun hpc (ThreadPool.step_cases hx)
    · next hrun =>
      obtain ⟨pool, hpool, rfl⟩ := Option.map_eq_some_iff.mp h
      exact .worker hw hrun (ThreadPool.step_cases hpool)

theorem step_cases {s s' : State} {l : Label} (h : step s l = some s') : Step s l s' := by
  unfold step at h
  split at h
  · cases h
  cases l with
  | main c => exact main_cases h
  | worker w size => exact worker_cases h
  | admin c =>
    obtain ⟨pool, hpool, rfl⟩ := Option.map_eq_some_iff.mp h
    exact .admin (ThreadPool.step_cases hpool)
  | wakeWorker w =>
    obtain ⟨pool, hpool, rfl⟩ := Option.map_eq_some_iff.mp h
    exact .wakeWorker (ThreadPool.step_cases hpool)
  | wakeProducer p =>
    obtain ⟨pool, hpool, rfl⟩ := Option.map_eq_some_iff.mp h
    exact .wakeProducer (ThreadPool.step_cases hpool)

end LearnCLinux.EpollThreadModel
