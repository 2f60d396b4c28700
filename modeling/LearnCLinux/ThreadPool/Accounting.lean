import LearnCLinux.ThreadPool.Queue

/-! The counters.  `live_thr_num` counts the workers outside the self-exit branch, up to the
calls of `pthread_create` that failed unnoticed, and `busy_thr_num` counts the workers inside a
task, up to those a task function has ended. -/

universe u v

namespace LearnCLinux.ThreadPool

open Threads

variable {Fn : Type u} {Arg : Type v}

def WorkerPc.selfExited : WorkerPc → Bool
  | .unlockExit why | .exit why | .exited why => why = .self
  | _ => false

def WorkerPc.endedInTask : WorkerPc → Bool
  | .unlockExit why | .exit why | .exited why => why = .task
  | _ => false

def WorkerPc.busy : WorkerPc → Bool
  | .unlockBusy | .run | .lockIdle | .decBusy => true
  | _ => false

def State.liveWorkers (s : State Fn Arg) : Nat := s.workers.countP fun t => !t.pc.selfExited

def State.busyWorkers (s : State Fn Arg) : Nat := s.workers.countP fun t => t.pc.busy

/-- Threads `live_thr_num` counts although `pthread_create` did not create them. -/
def State.surplus (s : State Fn Arg) : Int := s.pool.liveThrNum - s.liveWorkers

def PthreadCreateSucceeds (s : State Fn Arg) (l : Label Fn Arg) (_ : State Fn Arg) : Prop :=
  ∀ c, l = .admin c → s.admin.pc = .create → c.create.tid?.isSome

def TaskReturns (s : State Fn Arg) (l : Label Fn Arg) (_ : State Fn Arg) : Prop :=
  ∀ w t, l = .worker w true → s.workers[w]? = some t → t.pc ≠ .run

def createFails (c : AdminChoice) (a : Admin) : Bool :=
  decide (a.pc = .create) && c.create.tid?.isNone

def CreateFails (s : State Fn Arg) : Label Fn Arg → Bool
  | .admin c => createFails c s.admin
  | _ => false

theorem PthreadCreateSucceeds.not_fails {s s' : State Fn Arg} {l : Label Fn Arg}
    (h : PthreadCreateSucceeds s l s') : CreateFails s l = false := by
  cases l with
  | admin c =>
    simpa [CreateFails, createFails] using h c rfl
  | _ => rfl

def Setup.AllCreated (c : Setup Fn Arg) : Prop := ∀ r ∈ c.started, r.tid?.isSome

instance (c : Setup Fn Arg) : Decidable c.AllCreated :=
  inferInstanceAs (Decidable (∀ r ∈ c.started, r.tid?.isSome))

theorem WorkerStep.live {w : Nat} {e : Bool} {σ σ' : Threadpool Fn Arg} {t t' : Worker Fn Arg}
    (h : WorkerStep w σ e t σ' t') :
    σ'.liveThrNum - (if !t'.pc.selfExited then 1 else 0) =
      σ.liveThrNum - (if !t.pc.selfExited then 1 else 0) := by
  cases h <;> simp [WorkerPc.selfExited]

theorem AdminStep.live {c : AdminChoice} {ws new : List (Worker Fn Arg)}
    {σ σ' : Threadpool Fn Arg} {a a' : Admin} (h : AdminStep c ws σ a σ' a' new) :
    σ'.liveThrNum = σ.liveThrNum + new.countP (fun t => !t.pc.selfExited) +
      (createFails c a).toNat := by
  cases h with
  | create hc => simp [createFails, Worker.start, WorkerPc.selfExited, hc, PthreadCreate.tid?]
  | createFailed hc => simp [createFails, hc, PthreadCreate.tid?]
  | _ => simp [createFails]

theorem ProducerStep.counters {p : Nat} {wake : Option Nat} {σ σ' : Threadpool Fn Arg}
    {t t' : Producer Fn Arg} (h : ProducerStep p wake σ t σ' t') :
    σ'.liveThrNum = σ.liveThrNum ∧ σ'.busyThrNum = σ.busyThrNum ∧
      σ'.waitExitThrNum = σ.waitExitThrNum := by
  cases h <;> exact ⟨rfl, rfl, rfl⟩

theorem DestroyerStep.counters {ws : List (Worker Fn Arg)} {admin : Admin}
    {σ σ' : Threadpool Fn Arg} {d d' : Destroyer} (h : DestroyerStep ws admin σ d σ' d') :
    σ'.liveThrNum = σ.liveThrNum ∧ σ'.busyThrNum = σ.busyThrNum ∧
      σ'.waitExitThrNum = σ.waitExitThrNum := by
  cases h <;> exact ⟨rfl, rfl, rfl⟩

/-- The surplus grows in one place: a failed `pthread_create` is counted all the same. -/
theorem Step.surplus {s s' : State Fn Arg} {l : Label Fn Arg} (h : Step s l s') :
    s'.surplus = s.surplus + (CreateFails s l).toNat := by
  cases h with
  | worker hw h =>
    have hcount := countP_set_eq (fun t => !t.pc.selfExited) hw
    have hlive := h.live
    simp only [State.surplus, State.liveWorkers, CreateFails, Bool.toNat_false, hcount]
    omega
  | call => exact (Int.add_zero _).symm
  | producer hp h =>
    simp only [State.surplus, State.liveWorkers, CreateFails, Bool.toNat_false, h.counters.1]
    omega
  | admin ha h =>
    have hlive := h.live
    simp only [State.surplus, State.liveWorkers, CreateFails, List.countP_append, ha]
    omega
  | destroy hd h =>
    simp only [State.surplus, State.liveWorkers, CreateFails, Bool.toNat_false, h.counters.1]
    omega
  | wakeWorker => exact (Int.add_zero _).symm
  | wakeProducer => exact (Int.add_zero _).symm

def WorkerPc.countsBusy (pc : WorkerPc) : Bool := pc.busy || pc.endedInTask

theorem WorkerStep.busyCount {w : Nat} {e : Bool} {σ σ' : Threadpool Fn Arg}
    {t t' : Worker Fn Arg} (h : WorkerStep w σ e t σ' t') :
    σ'.busyThrNum - (if t'.pc.countsBusy then 1 else 0) =
      σ.busyThrNum - (if t.pc.countsBusy then 1 else 0) := by
  cases h <;> simp [WorkerPc.countsBusy, WorkerPc.busy, WorkerPc.endedInTask]

theorem AdminStep.busyCount {c : AdminChoice} {ws new : List (Worker Fn Arg)}
    {σ σ' : Threadpool Fn Arg} {a a' : Admin} (h : AdminStep c ws σ a σ' a' new) :
    σ'.busyThrNum = σ.busyThrNum ∧ new.countP (fun t => t.pc.countsBusy) = 0 := by
  cases h <;> exact ⟨rfl, rfl⟩

def BusyCounted (s : State Fn Arg) : Prop :=
  s.pool.busyThrNum = s.workers.countP fun t => t.pc.countsBusy

theorem BusyCounted.step {s s' : State Fn Arg} {l : Label Fn Arg} (hb : BusyCounted s)
    (h : Step s l s') : BusyCounted s' := by
  cases h with
  | worker hw h =>
    have hcount := countP_set_eq (fun t => t.pc.countsBusy) hw
    have hbusy := h.busyCount
    simp only [BusyCounted, hcount] at hb ⊢
    omega
  | call => exact hb
  | producer hp h => simpa only [BusyCounted, h.counters.2.1] using hb
  | admin ha h =>
    obtain ⟨hbusy, hnew⟩ := h.busyCount
    simpa only [BusyCounted, hbusy, List.countP_append, hnew, Nat.add_zero] using hb
  | destroy hd h => simpa only [BusyCounted, h.counters.2.1] using hb
  | wakeWorker => exact hb
  | wakeProducer => exact hb

/-- What the growth loop knows while it holds `pool->lock`. -/
def Local.growAssert (g : Guarded Fn Arg) : Local Fn Arg → Prop
  | .admin a => match a.pc with
    | .testSlot | .create => a.i < g.maxThrNum ∧ g.liveThrNum < g.maxThrNum
    | _ => True
  | _ => True

theorem Turn.growAssert {s : State Fn Arg} {t : Tid} {b b' : Local Fn Arg}
    {σ' : Threadpool Fn Arg} (h : Turn s t b σ' b') (hb : b.growAssert s.pool.guarded) :
    b'.growAssert σ'.guarded := by
  cases h with
  | worker => trivial
  | call => trivial
  | producer => trivial
  | admin _ h => cases h <;> simp_all [Local.growAssert, Threadpool.guarded]
  | destroy => trivial

theorem growAssert_of_not_holds (g : Guarded Fn Arg) (b : Local Fn Arg)
    (hb : b.holdsLock = false) : b.growAssert g := by
  cases b with
  | admin a =>
    obtain ⟨pc, i, n, q, l, b⟩ := a
    cases pc <;> trivial
  | _ => trivial

/-- The bounds that every change of a counter tests for under the lock, whatever the snapshots
the admin decided on. -/
structure Bounded (s : State Fn Arg) : Prop where
  locks : Locks s
  asserts : ∀ t b, s.thread t = some b → b.growAssert s.pool.guarded
  live_ge : s.pool.minThrNum ≤ s.pool.liveThrNum
  live_le : s.pool.liveThrNum ≤ s.pool.maxThrNum
  wait_nonneg : 0 ≤ s.pool.waitExitThrNum
  wait_le : s.pool.waitExitThrNum ≤ defaultThreadNum

theorem Bounded.step {s s' : State Fn Arg} {l : Label Fn Arg} (hb : Bounded s)
    (h : Step s l s') : Bounded s' := by
  have hlocks : Locks s' := hb.locks.step h
  have hasserts : ∀ t b, s'.thread t = some b → b.growAssert s'.pool.guarded :=
    hb.locks.assertions (A := fun g _ b => b.growAssert g) (fun g _ => growAssert_of_not_holds g)
      (fun _ _ hA => hA) (fun t b b' ht => ht.growAssert) hb.asserts h
  have hge := hb.live_ge
  have hle := hb.live_le
  have hnonneg := hb.wait_nonneg
  have hwait := hb.wait_le
  cases h with
  | worker hw h =>
    cases h with
    | selfExit htoken hlive =>
      exact ⟨hlocks, hasserts, Int.le_sub_one_of_lt hlive, by dsimp only; omega,
        Int.le_sub_one_of_lt htoken, by dsimp only; omega⟩
    | spendToken htoken =>
      exact ⟨hlocks, hasserts, hge, hle, Int.le_sub_one_of_lt htoken, by dsimp only; omega⟩
    | _ => exact ⟨hlocks, hasserts, hge, hle, hnonneg, hwait⟩
  | call => exact ⟨hlocks, hasserts, hge, hle, hnonneg, hwait⟩
  | producer hp h => cases h <;> exact ⟨hlocks, hasserts, hge, hle, hnonneg, hwait⟩
  | @admin c a σ' a' new ha h =>
    have hassert := hb.asserts .admin (.admin a) (by rw [← ha]; rfl)
    cases h with
    | create =>
      have hlt : s.pool.liveThrNum < s.pool.maxThrNum := hassert.2
      exact ⟨hlocks, hasserts, by dsimp only; omega, hlt, hnonneg, hwait⟩
    | createFailed =>
      have hlt : s.pool.liveThrNum < s.pool.maxThrNum := hassert.2
      exact ⟨hlocks, hasserts, by dsimp only; omega, hlt, hnonneg, hwait⟩
    | setExit => exact ⟨hlocks, hasserts, hge, hle, Int.natCast_nonneg _, Int.le_refl _⟩
    | _ => exact ⟨hlocks, hasserts, hge, hle, hnonneg, hwait⟩
  | destroy hd h => cases h <;> exact ⟨hlocks, hasserts, hge, hle, hnonneg, hwait⟩
  | wakeWorker => exact ⟨hlocks, hasserts, hge, hle, hnonneg, hwait⟩
  | wakeProducer => exact ⟨hlocks, hasserts, hge, hle, hnonneg, hwait⟩

def NobodyEndedInTask (s : State Fn Arg) : Prop := ∀ t ∈ s.workers, t.pc.endedInTask = false

theorem WorkerStep.endedInTask {w : Nat} {e : Bool} {σ σ' : Threadpool Fn Arg}
    {t t' : Worker Fn Arg} (h : WorkerStep w σ e t σ' t') (he : e = true → t.pc ≠ .run)
    (ht : t.pc.endedInTask = false) : t'.pc.endedInTask = false := by
  cases h <;> first | rfl | exact ht | exact absurd rfl (he rfl)

theorem NobodyEndedInTask.step {s s' : State Fn Arg} {l : Label Fn Arg}
    (hn : NobodyEndedInTask s) (h : Step s l s') (hl : TaskReturns s l s') :
    NobodyEndedInTask s' := by
  cases h with
  | @worker w e t σ' t' hw h =>
    intro u hu
    rcases List.mem_or_eq_of_mem_set hu with hold | rfl
    · exact hn u hold
    · exact h.endedInTask (fun he => hl w t (by rw [he]) hw) (hn t (List.mem_of_getElem? hw))
  | call => exact hn
  | producer => exact hn
  | admin ha h =>
    intro u hu
    rcases List.mem_append.mp hu with hold | hnew
    · exact hn u hold
    · obtain ⟨tid, rfl⟩ := h.new_start u hnew
      rfl
  | destroy => exact hn
  | wakeWorker => exact hn
  | wakeProducer => exact hn

section Create

variable (c : Setup Fn Arg)

theorem create_workers_start {t : Worker Fn Arg} (h : t ∈ (threadpoolCreate c).workers) :
    ∃ tid, t = Worker.start tid := by
  obtain ⟨tid, -, rfl⟩ := List.mem_map.mp h
  exact ⟨tid, rfl⟩

theorem create_liveWorkers :
    (threadpoolCreate c).liveWorkers = (c.started.filterMap PthreadCreate.tid?).length := by
  rw [State.liveWorkers, List.countP_eq_length.mpr]
  · simp [threadpoolCreate]
  · intro t ht
    obtain ⟨tid, rfl⟩ := create_workers_start c ht
    rfl

theorem create_surplus_eq :
    (threadpoolCreate c).surplus = c.started.countP fun r => r.tid?.isNone := by
  have hlen : c.started.length = (c.started.filterMap PthreadCreate.tid?).length +
      c.started.countP fun r => r.tid?.isNone := by
    rw [List.length_filterMap_eq_countP]
    rw [List.length_eq_countP_add_countP (fun r : PthreadCreate => r.tid?.isSome)]
    congr 2
    funext r
    cases r.tid? <;> rfl
  have hlive : (threadpoolCreate c).pool.liveThrNum = c.started.length := by
    rw [c.started_length]
    rfl
  rw [State.surplus, create_liveWorkers, hlive]
  omega

theorem create_surplus_nonneg : 0 ≤ (threadpoolCreate c).surplus := by
  rw [create_surplus_eq]
  exact Int.natCast_nonneg _

theorem create_surplus (h : c.AllCreated) : (threadpoolCreate c).surplus = 0 := by
  have hzero : c.started.countP (fun r => r.tid?.isNone) = 0 := by
    rw [List.countP_eq_zero]
    intro r hr
    simpa [Option.isSome_iff_ne_none] using h r hr
  rw [create_surplus_eq, hzero]
  rfl

theorem create_busyCounted : BusyCounted (threadpoolCreate c) := by
  have hzero : (threadpoolCreate c).workers.countP (fun t => t.pc.countsBusy) = 0 := by
    rw [List.countP_eq_zero]
    intro t ht
    obtain ⟨tid, rfl⟩ := create_workers_start c ht
    exact Bool.false_ne_true
  rw [BusyCounted, hzero]
  rfl

theorem create_bounded (h : c.minThrNum ≤ c.maxThrNum) : Bounded (threadpoolCreate c) where
  locks := create_locks c
  asserts := by
    intro t b ht
    rcases create_thread c ht with ⟨tid, rfl⟩ | rfl | rfl | rfl <;> trivial
  live_ge := Int.le_refl _
  live_le := Int.ofNat_le.mpr h
  wait_nonneg := Int.le_refl _
  wait_le := Int.natCast_nonneg _

theorem create_nobodyEndedInTask : NobodyEndedInTask (threadpoolCreate c) := by
  intro t ht
  obtain ⟨tid, rfl⟩ := create_workers_start c ht
  rfl

end Create

section Runs

variable {c : Setup Fn Arg} {ls : List (Label Fn Arg)} {s : State Fn Arg}

theorem exec_surplus (hall : c.AllCreated)
    (hok : Run.Always step PthreadCreateSucceeds (threadpoolCreate c) ls)
    (hrun : Run.exec step (threadpoolCreate c) ls = some s) : s.surplus = 0 :=
  Run.invariant_of_always (I := fun m => m.surplus = 0)
    (fun m l m' hm hs hok => by
      rw [(step_cases hs).surplus, hm, hok.not_fails]
      rfl)
    (create_surplus c hall) hok hrun

theorem exec_busyCounted (hrun : Run.exec step (threadpoolCreate c) ls = some s) :
    BusyCounted s :=
  Run.invariant (fun _ _ _ hm hs => hm.step (step_cases hs)) (create_busyCounted c) hrun

theorem exec_bounded (hmin : c.minThrNum ≤ c.maxThrNum)
    (hrun : Run.exec step (threadpoolCreate c) ls = some s) : Bounded s :=
  Run.invariant (fun _ _ _ hm hs => hm.step (step_cases hs)) (create_bounded c hmin) hrun

theorem exec_nobodyEndedInTask (hok : Run.Always step TaskReturns (threadpoolCreate c) ls)
    (hrun : Run.exec step (threadpoolCreate c) ls = some s) : NobodyEndedInTask s :=
  Run.invariant_of_always (fun _ _ _ hm hs hok => hm.step (step_cases hs) hok)
    (create_nobodyEndedInTask c) hok hrun

theorem busyWorkers_le_liveWorkers (s : State Fn Arg) : s.busyWorkers ≤ s.liveWorkers := by
  refine List.countP_mono_left fun t _ ht => ?_
  obtain ⟨tid, pc, task⟩ := t
  cases pc <;> first | rfl | cases ht

theorem NobodyEndedInTask.busyThrNum (hn : NobodyEndedInTask s) (hb : BusyCounted s) :
    s.pool.busyThrNum = s.busyWorkers := by
  rw [hb, State.busyWorkers]
  congr 1
  refine List.countP_congr fun t ht => ?_
  simp [WorkerPc.countsBusy, hn t ht]

theorem thread_accounting (hmin : c.minThrNum ≤ c.maxThrNum) (hall : c.AllCreated)
    (hcreate : Run.Always step PthreadCreateSucceeds (threadpoolCreate c) ls)
    (hreturn : Run.Always step TaskReturns (threadpoolCreate c) ls)
    (hrun : Run.exec step (threadpoolCreate c) ls = some s) :
    s.pool.liveThrNum = s.liveWorkers ∧
    (c.minThrNum ≤ s.pool.liveThrNum ∧ s.pool.liveThrNum ≤ c.maxThrNum) ∧
    (0 ≤ s.pool.waitExitThrNum ∧ s.pool.waitExitThrNum ≤ defaultThreadNum) ∧
    s.pool.busyThrNum = s.busyWorkers ∧
    (0 ≤ s.pool.busyThrNum ∧ s.pool.busyThrNum ≤ s.pool.liveThrNum) := by
  have hbounded : Bounded s := exec_bounded hmin hrun
  have hsurplus : s.surplus = 0 := exec_surplus hall hcreate hrun
  have hlive : s.pool.liveThrNum = s.liveWorkers := by
    simp only [State.surplus] at hsurplus
    omega
  have hbusy : s.pool.busyThrNum = s.busyWorkers :=
    (exec_nobodyEndedInTask hreturn hrun).busyThrNum (exec_busyCounted hrun)
  have hle := busyWorkers_le_liveWorkers s
  obtain ⟨-, hmins, hmaxs⟩ := exec_constants hrun
  have hge := hbounded.live_ge
  have hlem := hbounded.live_le
  rw [hmins] at hge
  rw [hmaxs] at hlem
  exact ⟨hlive, ⟨hge, hlem⟩, ⟨hbounded.wait_nonneg, hbounded.wait_le⟩, hbusy,
    by omega, by omega⟩

def growPool : Setup Nat Nat :=
  { smallPool with
    maxThrNum := 2
    queueMaxSize := 4
    slots := List.replicate 4 ⟨0, none⟩
    callers := 1
    slots_length := rfl }

def adminSteps (n : Nat) : List (Label Nat Nat) :=
  List.replicate n (.admin ⟨none, true, .created 101⟩)

def growRun : List (Label Nat Nat) :=
  addTask 0 ⟨0, some 1⟩ none ++ addTask 0 ⟨0, some 2⟩ none ++ addTask 0 ⟨0, some 3⟩ none ++
    addTask 0 ⟨0, some 4⟩ none ++ adminSteps 18

theorem thread_accounting_after_growth :
    ∃ s, Run.exec step (threadpoolCreate growPool) (growRun ++ workerSteps 1 9) = some s ∧
      s.pool.liveThrNum = s.liveWorkers ∧ s.pool.busyThrNum = s.busyWorkers ∧
      s.pool.liveThrNum = 2 ∧ s.pool.busyThrNum = 1 := by
  obtain ⟨s, hs, hcounts⟩ : ∃ s, Run.exec step (threadpoolCreate growPool)
      (growRun ++ workerSteps 1 9) = some s ∧
        decide (s.pool.liveThrNum = 2 ∧ s.pool.busyThrNum = 1) = true :=
    (Option.any_eq_true _ _).mp (by decide +kernel)
  have haccounting := thread_accounting (by decide) (by decide) ?_ ?_ hs
  · exact ⟨s, hs, haccounting.1, haccounting.2.2.2.1, of_decide_eq_true hcounts⟩
  all_goals
    apply Run.always_of_mem
    simp [growRun, adminSteps, addTask, workerSteps, PthreadCreateSucceeds, TaskReturns,
      PthreadCreate.tid?]

end Runs

end LearnCLinux.ThreadPool
