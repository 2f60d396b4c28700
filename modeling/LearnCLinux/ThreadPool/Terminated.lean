import LearnCLinux.ThreadPool.Wakeups
import LearnCLinux.ThreadPool.Accounting

/-! What the counters say about the workers that have not terminated, as long as nobody shuts the
pool down.  A worker that a task function has ended stays in both counters for ever. -/

universe u v

namespace LearnCLinux.ThreadPool

open Threads

variable {Fn : Type u} {Arg : Type v}

/-- The worker has given up its place in `live_thr_num` and not yet called `pthread_exit`. -/
def WorkerPc.leaving : WorkerPc → Bool
  | .exit why => why = .self
  | _ => false

def WorkerPc.insideTask : WorkerPc → Bool
  | .run => true
  | _ => false

/-- The worker is counted busy although it is not inside a task. -/
def WorkerPc.outsideTask : WorkerPc → Bool
  | .lockIdle => true
  | pc => pc.endedInTask

def State.runningWorkers (s : State Fn Arg) : Nat := s.workers.countP Worker.running

def State.leavingWorkers (s : State Fn Arg) : Nat := s.workers.countP fun t => t.pc.leaving

def State.workersInTask (s : State Fn Arg) : Nat := s.workers.countP fun t => t.pc.insideTask

section Ended

variable {s s' : State Fn Arg} {l : Label Fn Arg}

theorem WorkerStep.endedInTask_of {w : Nat} {e : Bool} {σ σ' : Threadpool Fn Arg}
    {t t' : Worker Fn Arg} (h : WorkerStep w σ e t σ' t') (ht' : t'.pc.endedInTask = false) :
    t.pc.endedInTask = false := by
  cases h <;> first | rfl | exact ht'

theorem NobodyEndedInTask.back (hn : NobodyEndedInTask s') (h : Step s l s') :
    NobodyEndedInTask s := by
  cases h with
  | @worker w e t σ' t' hw h =>
    intro u hu
    obtain ⟨j, hj⟩ := List.mem_iff_getElem?.mp hu
    by_cases hwj : w = j
    · subst hwj
      rw [hw] at hj
      cases hj
      apply h.endedInTask_of
      apply hn
      exact List.mem_of_getElem? (getElem?_set_of_some hw t')
    · apply hn
      rw [← List.getElem?_set_ne (a := t') hwj] at hj
      exact List.mem_of_getElem? hj
  | call => exact hn
  | producer => exact hn
  | admin ha h => exact fun u hu => hn u (List.mem_append_left _ hu)
  | destroy => exact hn
  | wakeWorker => exact hn
  | wakeProducer => exact hn

theorem NobodyEndedInTask.not_exit (hn : NobodyEndedInTask s') {w : Nat} {t : Worker Fn Arg}
    (hw : s.workers[w]? = some t) (hrun : t.pc = .run) : ¬ Step s (.worker w true) s' := by
  intro h
  cases h with
  | @worker _ _ u σ' u' hu h =>
    rw [hw] at hu
    cases hu
    have hended := hn u' (List.mem_of_getElem? (getElem?_set_of_some hw u'))
    cases h <;> cases hrun
    cases hended

end Ended

def WorkerPc.exitsOpen : WorkerPc → Bool
  | .unlockExit why | .exit why => why = .self
  | .exited why => why ≠ .shutdown
  | _ => true

structure NotShutDown (s : State Fn Arg) : Prop where
  shutdown : s.pool.shutdown = false
  exits : ∀ t ∈ s.workers, t.pc.exitsOpen = true

theorem WorkerStep.exitsOpen {w : Nat} {e : Bool} {σ σ' : Threadpool Fn Arg}
    {t t' : Worker Fn Arg} (h : WorkerStep w σ e t σ' t') (hopen : σ.shutdown = false)
    (ht : t.pc.exitsOpen = true) : σ'.shutdown = false ∧ t'.pc.exitsOpen = true := by
  cases h with
  | seeShutdown hshutdown =>
    rw [hopen] at hshutdown
    cases hshutdown
  | @exit _ _ _ why =>
    have hself : why = .self := of_decide_eq_true ht
    subst hself
    exact ⟨hopen, rfl⟩
  | unlockExit => exact ⟨hopen, ht⟩
  | _ => exact ⟨hopen, rfl⟩

theorem NotShutDown.step {s s' : State Fn Arg} {l : Label Fn Arg} (hn : NotShutDown s)
    (h : Step s l s') (hl : l ≠ .destroy) : NotShutDown s' := by
  obtain ⟨hopen, hexits⟩ := hn
  cases h with
  | @worker w e t σ' t' hw h =>
    obtain ⟨hopen', ht'⟩ := h.exitsOpen hopen (hexits t (List.mem_of_getElem? hw))
    refine ⟨hopen', fun u hu => ?_⟩
    rcases List.mem_or_eq_of_mem_set hu with hold | rfl
    · exact hexits u hold
    · exact ht'
  | call => exact ⟨hopen, hexits⟩
  | producer hp h => cases h <;> exact ⟨hopen, hexits⟩
  | @admin c a σ' a' new ha h =>
    have hopen' : σ'.shutdown = false := by
      cases h <;> exact hopen
    refine ⟨hopen', fun u hu => ?_⟩
    rcases List.mem_append.mp hu with hold | hnew
    · exact hexits u hold
    · obtain ⟨tid, rfl⟩ := h.new_start u hnew
      rfl
  | destroy => exact absurd rfl hl
  | wakeWorker => exact ⟨hopen, hexits⟩
  | wakeProducer => exact ⟨hopen, hexits⟩

theorem create_notShutDown (c : Setup Fn Arg) : NotShutDown (threadpoolCreate c) where
  shutdown := rfl
  exits t ht := by
    obtain ⟨tid, rfl⟩ := create_workers_start c ht
    rfl

section Quiet

variable {s : State Fn Arg}

theorem Locks.worker_outside_lock (hl : Locks s) (hlock : s.pool.lock = none) {t : Worker Fn Arg}
    (ht : t ∈ s.workers) : t.pc.holdsLock = false := by
  obtain ⟨w, hw⟩ := List.mem_iff_getElem?.mp ht
  rw [← Bool.not_eq_true]
  intro hholds
  have howner := hl.lock (.worker w) (.worker t) (by simp [State.thread, hw]) hholds
  rw [hlock] at howner
  cases howner

theorem Locks.worker_outside_counter (hl : Locks s) (hcounter : s.pool.threadCounter = none)
    {t : Worker Fn Arg} (ht : t ∈ s.workers) : t.pc.holdsCounter = false := by
  obtain ⟨w, hw⟩ := List.mem_iff_getElem?.mp ht
  rw [← Bool.not_eq_true]
  intro hholds
  have howner := hl.counter (.worker w) (.worker t) (by simp [State.thread, hw]) hholds
  rw [hcounter] at howner
  cases howner

/-- With `pool->lock` free, a worker is running unless it has left by itself or was ended. -/
theorem runningWorkers_add (hl : Locks s) (hn : NotShutDown s) (hlock : s.pool.lock = none) :
    s.runningWorkers + s.workers.countP (fun t => t.pc.endedInTask) =
      s.liveWorkers + s.leavingWorkers := by
  apply countP_add_countP
  intro t ht
  have hlocked := hl.worker_outside_lock hlock ht
  have hopen := hn.exits t ht
  obtain ⟨tid, pc, task⟩ := t
  cases pc with
  | unlockExit => cases hlocked
  | exit why => cases why <;> first | rfl | cases hopen
  | exited why => cases why <;> first | rfl | cases hopen
  | _ => rfl

/-- With both mutexes free, a worker is counted busy inside a task and in two other places. -/
theorem busyThrNum_eq (hl : Locks s) (hb : BusyCounted s) (hcounter : s.pool.threadCounter = none) :
    s.pool.busyThrNum = s.workersInTask + s.workers.countP fun t => t.pc.outsideTask := by
  have hsplit : s.workersInTask + s.workers.countP (fun t => t.pc.outsideTask) =
      s.workers.countP (fun t => t.pc.countsBusy) + s.workers.countP fun _ => false := by
    apply countP_add_countP
    intro t ht
    have hcounted := hl.worker_outside_counter hcounter ht
    obtain ⟨tid, pc, task⟩ := t
    cases pc with
    | unlockExit why => cases why <;> rfl
    | exit why => cases why <;> rfl
    | exited why => cases why <;> rfl
    | unlockBusy => cases hcounted
    | decBusy => cases hcounted
    | _ => rfl
  have hnone : s.workers.countP (fun _ => false) = 0 := List.countP_eq_zero.mpr (by simp)
  rw [hnone, Nat.add_zero] at hsplit
  rw [hb, ← hsplit]
  exact Int.natCast_add _ _

theorem endedInTask_le_outsideTask (s : State Fn Arg) :
    s.workers.countP (fun t => t.pc.endedInTask) ≤ s.workers.countP fun t => t.pc.outsideTask := by
  apply List.countP_mono_left
  intro t _ ht
  obtain ⟨tid, pc, task⟩ := t
  cases pc <;> first | exact ht | rfl

theorem outsideTask_eq_zero_iff :
    s.workers.countP (fun t => t.pc.outsideTask) = 0 ↔
      NobodyEndedInTask s ∧ ∀ t ∈ s.workers, t.pc ≠ .lockIdle := by
  rw [List.countP_eq_zero]
  constructor
  · refine fun h => ⟨fun t ht => ?_, fun t ht hpc => ?_⟩
    · have hout := h t ht
      obtain ⟨tid, pc, task⟩ := t
      cases pc <;> first | rfl | simpa [WorkerPc.outsideTask] using hout
    · exact h t ht (by rw [hpc]; rfl)
  · rintro ⟨hn, hidle⟩ t ht hout
    have hended := hn t ht
    have hpc := hidle t ht
    obtain ⟨tid, pc, task⟩ := t
    cases pc <;> first | exact hpc rfl | exact absurd (hended.symm.trans hout) Bool.false_ne_true

/-- The counters are the numbers of running workers and of workers inside a task exactly when no
task function has ended a worker and no worker is on its way between a counter and its act. -/
theorem counters_exact_iff (hb : Bounded s) (hbusy : BusyCounted s) (hn : NotShutDown s)
    (hlock : s.pool.lock = none) (hcounter : s.pool.threadCounter = none) :
    (s.pool.liveThrNum = s.runningWorkers ∧ s.pool.busyThrNum = s.workersInTask ∧
      s.pool.minThrNum ≤ s.runningWorkers) ↔
    NobodyEndedInTask s ∧ (∀ t ∈ s.workers, t.pc ≠ .lockIdle) ∧
      s.surplus = s.leavingWorkers := by
  have hrunning := runningWorkers_add hb.locks hn hlock
  have hcount := busyThrNum_eq hb.locks hbusy hcounter
  have hle := endedInTask_le_outsideTask s
  have hmin := hb.live_ge
  rw [← and_assoc (b := ∀ t ∈ s.workers, t.pc ≠ .lockIdle), ← outsideTask_eq_zero_iff]
  simp only [State.surplus]
  constructor
  · rintro ⟨hlive, hinside, -⟩
    constructor <;> omega
  · rintro ⟨hzero, hsurplus⟩
    refine ⟨?_, ?_, ?_⟩ <;> omega

end Quiet

end LearnCLinux.ThreadPool
