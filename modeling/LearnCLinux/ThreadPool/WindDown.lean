import LearnCLinux.ThreadPool.Progress

/-! What is left to do once `shutdown` is set.  Every thread is on its way out: a step of any of
them brings the whole program nearer to its end, and only new calls of `threadpool_add_task` add
to what is left. -/

universe u v

namespace LearnCLinux.ThreadPool

open Threads

variable {Fn : Type u} {Arg : Type v}

def Label.calls : Label Fn Arg → Bool
  | .call _ _ => true
  | _ => false

section Remaining

/-- The statements a worker still executes at most, with the flag set. -/
def WorkerPc.remaining : WorkerPc → Nat
  | .exited _ => 0
  | .exit _ => 1
  | .unlockExit _ => 2
  | .testShutdown => 3
  | .testEmpty => 4
  | .lock | .testExit => 5
  | .waiting | .unlockIdle => 6
  | .wait | .decBusy => 7
  | .lockIdle => 8
  | .run => 9
  | .unlockBusy => 10
  | .incBusy => 11
  | .lockBusy => 12
  | .unlock => 13
  | .broadcastNotFull => 14
  | .take => 15

def ProducerPc.remaining : ProducerPc → Nat
  | .idle | .returned _ => 0
  | .unlock | .unlockShutdown => 1
  | .signalNotEmpty | .testShutdown => 2
  | .put | .testFull => 3
  | .clearArg | .lock | .waiting => 4
  | .wait => 5

/-- The admin thread may still be in its growth loop over `n` slots; each slot costs it three
statements, and five for the worker it creates. -/
def Admin.remaining (n : Nat) (a : Admin) : Nat :=
  match a.pc with
  | .returned => 0
  | .loop => 1
  | .signalLoop => defaultThreadNum - a.i + 2
  | .unlockShrink => 7
  | .setExit => 8
  | .lockShrink => 9
  | .testShrink => 10
  | .unlockGrow => 11
  | .growLoop => 8 * (n - a.i) + 12
  | .testSlot => 8 * (n - (a.i + 1)) + 19
  | .create => 8 * (n - (a.i + 1)) + 18
  | .lockGrow => 8 * n + 13
  | .testGrow => 8 * n + 14
  | .unlockBusy => 8 * n + 15
  | .readBusy => 8 * n + 16
  | .lockBusy => 8 * n + 17
  | .unlockStat => 8 * n + 18
  | .readStat => 8 * n + 19
  | .lockStat => 8 * n + 20
  | .sleep => 8 * n + 21

/-- Both loops of `threadpool_destroy` go up to `live_thr_num`, which is `n` at most. -/
def Destroyer.remaining (n : Nat) (d : Destroyer) : Nat :=
  match d.pc with
  | .returned => 0
  | .freePool => 1
  | .lockCounter => 2
  | .lockLock => 3
  | .free => 4
  | .testJoin => 2 * (n - d.i) + 5
  | .join => 2 * (n - (d.i + 1)) + 6
  | .testBroadcast => 2 * (n - d.i) + 2 * n + 6
  | .broadcast => 2 * (n - (d.i + 1)) + 2 * n + 7
  | .joinAdmin => 4 * n + 7
  | .idle => 4 * n + 8

def State.remaining (s : State Fn Arg) : Nat :=
  (s.workers.map fun t => t.pc.remaining).sum + (s.producers.map fun t => t.pc.remaining).sum +
    s.admin.remaining s.pool.maxThrNum + s.destroyer.remaining s.pool.maxThrNum

theorem WorkerStep.remaining {w : Nat} {e : Bool} {σ σ' : Threadpool Fn Arg}
    {t t' : Worker Fn Arg} (h : WorkerStep w σ e t σ' t') (hflag : σ.shutdown = true) :
    t'.pc.remaining + 1 ≤ t.pc.remaining := by
  cases h with
  | sleep _ hopen => exact absurd hflag (by simp [hopen])
  | goTake hopen => exact absurd hflag (by simp [hopen])
  | _ => simp [WorkerPc.remaining]

theorem ProducerStep.remaining {p : Nat} {wake : Option Nat} {σ σ' : Threadpool Fn Arg}
    {t t' : Producer Fn Arg} (h : ProducerStep p wake σ t σ' t') (hflag : σ.shutdown = true) :
    t'.pc.remaining + 1 ≤ t.pc.remaining := by
  cases h with
  | sleep _ hopen => exact absurd hflag (by simp [hopen])
  | goClear hopen => exact absurd hflag (by simp [hopen])
  | _ => simp [ProducerPc.remaining]

theorem AdminStep.remaining {c : AdminChoice} {ws new : List (Worker Fn Arg)}
    {σ σ' : Threadpool Fn Arg} {a a' : Admin} (h : AdminStep c ws σ a σ' a' new)
    (hflag : σ.shutdown = true) : a'.remaining σ.maxThrNum +
      (new.map fun t => t.pc.remaining).sum + 1 ≤ a.remaining σ.maxThrNum := by
  cases h with
  | goSleep hopen => exact absurd hflag (by simp [hopen])
  | goSlot hi =>
    simp only [Admin.remaining, List.map_nil, List.sum_nil]
    omega
  | signal hi =>
    simp only [Admin.remaining, List.map_nil, List.sum_nil]
    omega
  | _ => simp [Admin.remaining, Worker.start, WorkerPc.remaining, defaultThreadNum]

theorem DestroyerStep.remaining {ws : List (Worker Fn Arg)} {admin : Admin}
    {σ σ' : Threadpool Fn Arg} {d d' : Destroyer} (h : DestroyerStep ws admin σ d σ' d')
    (hlive : σ.liveThrNum ≤ σ.maxThrNum) :
    d'.remaining σ.maxThrNum + 1 ≤ d.remaining σ.maxThrNum := by
  cases h with
  | goBroadcast hi =>
    simp only [Destroyer.remaining]
    omega
  | goJoin hi =>
    simp only [Destroyer.remaining]
    omega
  | joinAdmin =>
    simp only [Destroyer.remaining]
    omega
  | _ => simp [Destroyer.remaining]

end Remaining

section Runs

variable {s s' : State Fn Arg} {l : Label Fn Arg}

/-- A statement of any thread lowers what is left; a call adds the four statements of a call that
finds the flag set. -/
theorem Step.remaining (h : Step s l s') (hflag : s.pool.shutdown = true)
    (hlive : s.pool.liveThrNum ≤ s.pool.maxThrNum) :
    s'.remaining + (if l.mover.isSome then 1 else 0) ≤
      s.remaining + if l.calls then 4 else 0 := by
  have hmax := h.constants.2.2
  simp only [State.remaining, hmax]
  cases h with
  | @worker w e t σ' t' hw h =>
    have hsum := sum_set_add (fun t => t.pc.remaining) hw t'
    have hless := h.remaining hflag
    simp only [Label.mover, Label.calls, Option.isSome_some, if_true]
    omega
  | @call p task t hp hpc =>
    have hsum := sum_set_add (fun t => t.pc.remaining) hp ⟨.lock, some task⟩
    have hlock : (Producer.mk .lock (some task)).pc.remaining = 4 := rfl
    simp only [Label.mover, Label.calls, Option.isSome_none, Bool.false_eq_true, if_false, if_true]
    omega
  | @producer p wake t σ' t' hp h =>
    have hsum := sum_set_add (fun t => t.pc.remaining) hp t'
    have hless := h.remaining hflag
    simp only [Label.mover, Label.calls, Option.isSome_some, if_true]
    omega
  | admin ha h =>
    have hless := h.remaining hflag
    simp only [ha, Label.mover, Label.calls, Option.isSome_some, if_true, List.map_append,
      List.sum_append]
    omega
  | destroy hd h =>
    have hless := h.remaining hlive
    simp only [hd, Label.mover, Label.calls, Option.isSome_some, if_true]
    omega
  | wakeWorker => simp [Label.mover, Label.calls]
  | wakeProducer => simp [Label.mover, Label.calls]

theorem remaining_le (s : State Fn Arg) : s.remaining ≤
    15 * s.workers.length + 5 * s.producers.length + 12 * s.pool.maxThrNum + 29 := by
  have hworkers : (s.workers.map fun t => t.pc.remaining).sum ≤ 15 * s.workers.length := by
    refine sum_le_mul fun t _ => ?_
    cases t.pc <;> simp [WorkerPc.remaining]
  have hproducers : (s.producers.map fun t => t.pc.remaining).sum ≤ 5 * s.producers.length := by
    refine sum_le_mul fun t _ => ?_
    cases t.pc <;> simp [ProducerPc.remaining]
  have hadmin : s.admin.remaining s.pool.maxThrNum ≤ 8 * s.pool.maxThrNum + 21 := by
    simp only [Admin.remaining]
    cases s.admin.pc <;> simp only [defaultThreadNum] <;> omega
  have hdestroyer : s.destroyer.remaining s.pool.maxThrNum ≤ 4 * s.pool.maxThrNum + 8 := by
    simp only [Destroyer.remaining]
    cases s.destroyer.pc <;> simp only [] <;> omega
  rw [State.remaining]
  omega

variable {c : Setup Fn Arg} {ls ks : List (Label Fn Arg)}

/-- Once the flag is set the threads take a bounded number of steps, whatever their order and
however often `pthread_cond_wait` wakes up by itself; a later call of `threadpool_add_task` adds
four. -/
theorem winds_down (hmin : c.minThrNum ≤ c.maxThrNum)
    (hrun : Run.exec step (threadpoolCreate c) ls = some s) (hflag : s.pool.shutdown = true)
    (hks : Run.exec step s ks = some s') :
    ks.countP (fun l => l.mover.isSome) ≤ 15 * s.workers.length + 5 * s.producers.length +
      12 * c.maxThrNum + 29 + 4 * ks.countP Label.calls := by
  have hmax : s.pool.maxThrNum = c.maxThrNum := (exec_constants hrun).2.2
  have hcount : ks.countP (fun l => l.mover.isSome) + s'.remaining ≤
      s.remaining + 4 * ks.countP Label.calls := by
    refine Run.countP_add_le (I := fun m => Bounded m ∧ m.pool.shutdown = true) ?_
      ⟨exec_bounded hmin hrun, hflag⟩ (Run.always_true s ks) hks
    rintro m l m' ⟨hb, hflag⟩ hm -
    have hstep := step_cases hm
    exact ⟨⟨hb.step hstep, hstep.shutdown hflag⟩, hstep.remaining hflag hb.live_le⟩
  have hstart := remaining_le s
  omega

def windDownRun : List (Label Nat Nat) :=
  adminSteps 1 ++ destroySteps 4 ++ workerSteps 0 5 ++ destroySteps 7

theorem winds_down_small :
    ∃ s s', Run.exec step (threadpoolCreate smallPool) (destroySteps 1) = some s ∧
      Run.exec step s windDownRun = some s' ∧
      windDownRun.countP (fun l => l.mover.isSome) ≤ 66 := by
  obtain ⟨s, hs, hcond⟩ : ∃ s, Run.exec step (threadpoolCreate smallPool) (destroySteps 1) =
      some s ∧ (decide (s.pool.shutdown = true ∧ s.workers.length = 1 ∧ s.producers.length = 2) &&
        (Run.exec step s windDownRun).isSome) = true :=
    (Option.any_eq_true _ _).mp (by decide +kernel)
  obtain ⟨hstart, hend⟩ := Bool.and_eq_true_iff.mp hcond
  obtain ⟨hflag, hworkers, hproducers⟩ := of_decide_eq_true hstart
  obtain ⟨s', hs'⟩ := Option.isSome_iff_exists.mp hend
  have hbound := winds_down (Nat.le_refl 1) hs hflag hs'
  rw [hworkers, hproducers] at hbound
  exact ⟨s, s', hs, hs', hbound⟩

/-- Once the flag is set and no worker sleeps or is about to, `threadpool_destroy` gets through its
joins: where the program rests it has freed the arrays, or it joins a worker whose task has not
returned. -/
theorem destroy_gets_through (hmin : c.minThrNum ≤ c.maxThrNum)
    (hrun : Run.exec step (threadpoolCreate c) ls = some s) (hawake : AllAwake s)
    (hks : Run.exec step s ks = some s') (hrest : Rests s') :
    s'.pool.allocated = false ∨ s'.destroyer.pc = .join ∧ ∃ (w : Nat) (t : Worker Fn Arg),
      s'.workers[w]? = some t ∧ s'.pool.threads[s'.destroyer.i]? = some t.tid ∧ t.pc = .run := by
  have hlater : AllAwake s' := Run.invariant (fun _ _ _ hm hs => hm.step (step_cases hs)) hawake hks
  rw [or_iff_not_imp_left]
  intro halloc
  have hrun' := Run.exec_append.mpr ⟨s, hrun, hks⟩
  obtain ⟨hjoin, w, t, hw, hslot, hrests⟩ :=
    (exec_sound hmin hrun').destroyer_rests (by simpa using halloc) hrest
  refine ⟨hjoin, w, t, hw, hslot, hrests.resolve_left fun hasleep => ?_⟩
  have hmem := hasleep.2
  rw [hlater.empty] at hmem
  exact List.not_mem_nil hmem

theorem destroy_gets_through_small :
    ∃ s s', Run.exec step (threadpoolCreate smallPool) (destroySteps 1) = some s ∧
      Run.exec step s windDownRun = some s' ∧ Rests s' ∧ s'.destroyer.pc = .returned ∧
      s'.pool.allocated = false := by
  obtain ⟨s, hs, hcond⟩ : ∃ s, Run.exec step (threadpoolCreate smallPool) (destroySteps 1) =
      some s ∧ (decide (s.pool.shutdown = true ∧ s.pool.queueNotEmpty = [] ∧
        s.workers = [⟨100, .lock, none⟩]) && (Run.exec step s windDownRun).any fun s' =>
          decide (s'.workers = [⟨100, .exited .shutdown, none⟩] ∧ s'.producers =
            [⟨.idle, none⟩, ⟨.idle, none⟩] ∧ s'.admin.pc = .returned ∧
            s'.destroyer.pc = .returned)) = true :=
    (Option.any_eq_true _ _).mp (by decide +kernel)
  obtain ⟨hstart, hend⟩ := Bool.and_eq_true_iff.mp hcond
  obtain ⟨hflag, hempty, hworkers⟩ := of_decide_eq_true hstart
  obtain ⟨s', hs', hcond'⟩ := (Option.any_eq_true _ _).mp hend
  obtain ⟨hworkers', hproducers', hadmin', hdestroyer'⟩ := of_decide_eq_true hcond'
  have hawake : AllAwake s := by
    refine ⟨hflag, hempty, fun w t hw => ?_⟩
    have ht : t = ⟨100, .lock, none⟩ := by simpa [hworkers] using List.mem_of_getElem? hw
    rw [ht]
    exact nofun
  have hrest : Rests s' := by
    refine rests_of_waits (fun w t hw => ?_) (fun p t hp => ?_) ?_ ?_
    · have ht : t = ⟨100, .exited .shutdown, none⟩ := by
        simpa [hworkers'] using List.mem_of_getElem? hw
      rw [ht]
      trivial
    · have ht : t = ⟨.idle, none⟩ := by simpa [hproducers'] using List.mem_of_getElem? hp
      rw [ht]
      trivial
    · simp [State.Waits, hadmin']
    · simp [State.Waits, hdestroyer']
  refine ⟨s, s', hs, hs', hrest, hdestroyer',
    (destroy_gets_through (Nat.le_refl 1) hs hawake hs' hrest).resolve_right ?_⟩
  rintro ⟨hjoin, -⟩
  cases hjoin.symm.trans hdestroyer'

end Runs

end LearnCLinux.ThreadPool
