import LearnCLinux.Library.SlotTable
import LearnCLinux.ThreadPool.Accounting

/-! The table of threads.  Every worker that has not terminated sits in one slot of `threads`,
and the growth loop reuses a slot only after the worker in it has terminated. -/

universe u v

namespace LearnCLinux.ThreadPool

open Threads

variable {Fn : Type u} {Arg : Type v}

def IsAlive (workers : List (Worker Fn Arg)) (tid : PthreadT) : Prop :=
  ∃ t ∈ workers, t.running = true ∧ t.tid = tid

/-- The table has a slot for each running worker, even if some `pthread_create` failed. -/
structure Seated (s : State Fn Arg) : Prop where
  seats : Seats 0 s.pool.threads (IsAlive s.workers)
  reuse : s.admin.pc = .create → s.admin.i < s.pool.threads.length ∧
    ∀ tid, IsAlive s.workers tid → s.pool.threads[s.admin.i]? ≠ some tid

/-- While every `pthread_create` succeeds, the slot is the only one with its id. -/
structure ThreadTable (s : State Fn Arg) : Prop where
  length : s.pool.threads.length = s.pool.maxThrNum
  table : SlotTable 0 s.pool.threads (s.workers.map Worker.tid)

theorem WorkerStep.identity {w : Nat} {e : Bool} {σ σ' : Threadpool Fn Arg}
    {t t' : Worker Fn Arg} (h : WorkerStep w σ e t σ' t') :
    σ'.threads = σ.threads ∧ t'.tid = t.tid ∧ (t'.running = true → t.running = true) := by
  cases h with
  | exit => exact ⟨rfl, rfl, fun _ => rfl⟩
  | taskExit => exact ⟨rfl, rfl, fun _ => rfl⟩
  | _ => exact ⟨rfl, rfl, id⟩

theorem WorkerStep.isAlive {s : State Fn Arg} {w : Nat} {e : Bool} {σ' : Threadpool Fn Arg}
    {t t' : Worker Fn Arg} (hw : s.workers[w]? = some t) (h : WorkerStep w s.pool e t σ' t')
    {tid : PthreadT} (halive : IsAlive (s.workers.set w t') tid) : IsAlive s.workers tid := by
  obtain ⟨-, htid, hrunning⟩ := h.identity
  obtain ⟨u, hu, hrun, rfl⟩ := halive
  rcases List.mem_or_eq_of_mem_set hu with hold | rfl
  · exact ⟨u, hold, hrun, rfl⟩
  · exact ⟨t, List.mem_of_getElem? hw, hrunning hrun, htid.symm⟩

theorem ProducerStep.threads {p : Nat} {wake : Option Nat} {σ σ' : Threadpool Fn Arg}
    {t t' : Producer Fn Arg} (h : ProducerStep p wake σ t σ' t') : σ'.threads = σ.threads := by
  cases h <;> rfl

theorem DestroyerStep.threads {ws : List (Worker Fn Arg)} {admin : Admin}
    {σ σ' : Threadpool Fn Arg} {d d' : Destroyer} (h : DestroyerStep ws admin σ d σ' d') :
    σ'.threads = σ.threads := by
  cases h <;> rfl

theorem isThreadAlive_of_isAlive {workers : List (Worker Fn Arg)} {tid : PthreadT}
    (h : IsAlive workers tid) (esrch : Bool) : isThreadAlive workers esrch tid = true := by
  obtain ⟨t, ht, hrunning, rfl⟩ := h
  have hany : (workers.any fun u => u.running && u.tid == t.tid) = true :=
    List.any_eq_true.mpr ⟨t, ht, by simp [hrunning]⟩
  simp [isThreadAlive, hany]

/-- The admin stores in `threads` at one statement, and gets there from a test of the slot. -/
theorem AdminStep.threads {c : AdminChoice} {ws new : List (Worker Fn Arg)}
    {σ σ' : Threadpool Fn Arg} {a a' : Admin} (h : AdminStep c ws σ a σ' a' new) :
    (σ'.threads = σ.threads ∧ new = [] ∧ a'.pc ≠ .create) ∨
      (σ'.threads = σ.threads ∧ new = [] ∧ ∃ tid, σ.threads[a'.i]? = some tid ∧
        (tid = 0 ∨ isThreadAlive ws c.esrch tid = false)) ∨
      (a.pc = .create ∧ a'.pc ≠ .create ∧ ∃ tid, fresh ws tid = true ∧
        σ'.threads = σ.threads.set a.i tid ∧ new = [Worker.start tid]) ∨
      (a.pc = .create ∧ a'.pc ≠ .create ∧ c.create.tid? = none ∧
        ∃ junk, σ'.threads = σ.threads.set a.i junk ∧ new = []) := by
  cases h with
  | goCreate hslot hdead => exact .inr (.inl ⟨rfl, rfl, _, hslot, hdead⟩)
  | create _ hfresh => exact .inr (.inr (.inl ⟨rfl, nofun, _, hfresh, rfl, rfl⟩))
  | createFailed hc => exact .inr (.inr (.inr ⟨rfl, nofun, by rw [hc]; rfl, _, rfl, rfl⟩))
  | _ => exact .inl ⟨rfl, rfl, nofun⟩

theorem fresh_iff {ws : List (Worker Fn Arg)} {tid : PthreadT} :
    fresh ws tid = true ↔ tid ≠ 0 ∧ tid ∉ ws.map Worker.tid := by
  simp [fresh]

theorem Seated.step {s s' : State Fn Arg} {l : Label Fn Arg} (hs : Seated s) (h : Step s l s') :
    Seated s' := by
  cases h with
  | worker hw h =>
    refine ⟨?_, fun hpc => ?_⟩ <;> simp only [h.identity.1]
    · exact hs.seats.mono fun tid => h.isAlive hw
    · exact ⟨(hs.reuse hpc).1, fun tid htid => (hs.reuse hpc).2 tid (h.isAlive hw htid)⟩
  | call => exact ⟨hs.seats, hs.reuse⟩
  | producer hp h =>
    refine ⟨?_, ?_⟩ <;> simp only [h.threads]
    · exact hs.seats
    · exact hs.reuse
  | @admin c a σ' a' new ha h =>
    rcases h.threads with ⟨hthreads, rfl, hpc⟩ | ⟨hthreads, rfl, tid, hslot, hdead⟩ |
      ⟨hpc, hpc', tid, hfresh, hthreads, rfl⟩ | ⟨hpc, hpc', -, junk, hthreads, rfl⟩
    · refine ⟨?_, fun hcreate => absurd hcreate hpc⟩
      simpa only [hthreads, List.append_nil] using hs.seats
    · refine ⟨?_, fun _ => ?_⟩ <;> simp only [hthreads, List.append_nil]
      · exact hs.seats
      · obtain ⟨hlt, -⟩ := List.getElem?_eq_some_iff.mp hslot
        refine ⟨hlt, fun u halive heq => ?_⟩
        have hu : u = tid := Option.some.inj (heq.symm.trans hslot)
        subst hu
        rcases hdead with rfl | hdead
        · exact hs.seats.ne_free _ halive rfl
        · rw [isThreadAlive_of_isAlive halive] at hdead
          cases hdead
    · obtain ⟨hi, hreuse⟩ := hs.reuse (by rw [ha, hpc])
      rw [ha] at hi hreuse
      refine ⟨?_, fun hcreate => absurd hcreate hpc'⟩
      simp only [hthreads]
      refine hs.seats.store hi hreuse (fresh_iff.mp hfresh).1 ?_
      rintro b ⟨u, hu, hrun, rfl⟩
      rcases List.mem_append.mp hu with hold | hnew
      · exact .inl ⟨u, hold, hrun, rfl⟩
      · rw [List.mem_singleton.mp hnew]
        exact .inr rfl
    · obtain ⟨-, hreuse⟩ := hs.reuse (by rw [ha, hpc])
      rw [ha] at hreuse
      refine ⟨?_, fun hcreate => absurd hcreate hpc'⟩
      simpa only [hthreads, List.append_nil] using hs.seats.overwrite hreuse junk
  | destroy hd h =>
    refine ⟨?_, ?_⟩ <;> simp only [h.threads]
    · exact hs.seats
    · exact hs.reuse
  | wakeWorker => exact ⟨hs.seats, hs.reuse⟩
  | wakeProducer => exact ⟨hs.seats, hs.reuse⟩

theorem ThreadTable.step {s s' : State Fn Arg} {l : Label Fn Arg} (ht : ThreadTable s)
    (hs : Seated s) (h : Step s l s') (hl : PthreadCreateSucceeds s l s') : ThreadTable s' := by
  have hmax : s'.pool.maxThrNum = s.pool.maxThrNum := h.constants.2.2
  cases h with
  | @worker w e t σ' t' hw h =>
    obtain ⟨hthreads, htid, -⟩ := h.identity
    have hids : (s.workers.set w t').map Worker.tid = s.workers.map Worker.tid := by
      obtain ⟨hlt, rfl⟩ := List.getElem?_eq_some_iff.mp hw
      rw [List.map_set, htid, ← List.map_set, List.set_getElem_self hlt]
    refine ⟨?_, ?_⟩ <;> simp only [hids, hthreads]
    · exact ht.length.trans hmax.symm
    · exact ht.table
  | call => exact ⟨ht.length, ht.table⟩
  | producer hp h =>
    refine ⟨?_, ?_⟩ <;> simp only [h.threads]
    · exact ht.length.trans hmax.symm
    · exact ht.table
  | @admin c a σ' a' new ha h =>
    have hsame : σ'.threads = s.pool.threads → new = [] →
        ThreadTable { s with pool := σ', admin := a', workers := s.workers ++ new } := by
      rintro hthreads rfl
      refine ⟨?_, ?_⟩ <;> simp only [hthreads, List.append_nil]
      · exact ht.length.trans hmax.symm
      · exact ht.table
    rcases h.threads with ⟨hthreads, hnew, -⟩ | ⟨hthreads, hnew, -⟩ |
      ⟨hpc, -, tid, hfresh, hthreads, rfl⟩ | ⟨hpc, -, hfail, -⟩
    · exact hsame hthreads hnew
    · exact hsame hthreads hnew
    · obtain ⟨hi, -⟩ := hs.reuse (by rw [ha, hpc])
      rw [ha] at hi
      obtain ⟨hne, hnot⟩ := fresh_iff.mp hfresh
      refine ⟨?_, ?_⟩ <;> simp only [hthreads]
      · exact (List.length_set ..).trans (ht.length.trans hmax.symm)
      · rw [List.map_append]
        exact ht.table.store hi hne hnot
    · have hsome := hl c rfl (by rw [ha, hpc])
      rw [hfail] at hsome
      cases hsome
  | destroy hd h =>
    refine ⟨?_, ?_⟩ <;> simp only [h.threads]
    · exact ht.length.trans hmax.symm
    · exact ht.table
  | wakeWorker => exact ⟨ht.length, ht.table⟩
  | wakeProducer => exact ⟨ht.length, ht.table⟩

section Create

variable (c : Setup Fn Arg)

theorem Setup.AllCreated.slots (h : c.AllCreated) :
    c.started.map PthreadCreate.slot = c.started.filterMap PthreadCreate.tid? := by
  refine (List.filterMap_eq_map_iff_forall_eq_some.mpr fun r hr => ?_).symm
  have hr := h r hr
  cases r with
  | created tid => rfl
  | failed junk => cases hr

theorem create_tids :
    (threadpoolCreate c).workers.map Worker.tid = c.started.filterMap PthreadCreate.tid? := by
  simp [threadpoolCreate, Function.comp_def, Worker.start]

theorem create_seated : Seated (threadpoolCreate c) where
  seats := by
    have hmem : ∀ tid, IsAlive (threadpoolCreate c).workers tid →
        tid ∈ c.started.filterMap PthreadCreate.tid? := by
      rintro tid ⟨t, ht, -, rfl⟩
      rw [← create_tids]
      exact List.mem_map_of_mem ht
    refine ⟨fun tid htid => ?_, fun tid htid => List.mem_append_left _ ?_⟩
    · rintro rfl
      exact c.tids_ne_zero (hmem 0 htid)
    · obtain ⟨r, hr, hsome⟩ := List.mem_filterMap.mp (hmem tid htid)
      refine List.mem_map.mpr ⟨r, hr, ?_⟩
      cases r with
      | created tid' => exact Option.some.inj hsome
      | failed junk => cases hsome
  reuse := nofun

theorem create_threadTable (hmin : c.minThrNum ≤ c.maxThrNum) (hall : c.AllCreated) :
    ThreadTable (threadpoolCreate c) where
  length := by
    have hlen := c.started_length
    simp [threadpoolCreate]
    omega
  table := by
    have hthreads : (threadpoolCreate c).pool.threads = c.started.filterMap PthreadCreate.tid? ++
        List.replicate (c.maxThrNum - c.minThrNum) 0 := by
      rw [← hall.slots]
      rfl
    rw [create_tids, hthreads]
    exact SlotTable.init c.tids_nodup _

end Create

variable {c : Setup Fn Arg} {ls : List (Label Fn Arg)} {s : State Fn Arg}

theorem exec_seated (hrun : Run.exec step (threadpoolCreate c) ls = some s) : Seated s :=
  Run.invariant (fun _ _ _ hm hs => hm.step (step_cases hs)) (create_seated c) hrun

theorem exec_threadTable (hmin : c.minThrNum ≤ c.maxThrNum) (hall : c.AllCreated)
    (hcreate : Run.Always step PthreadCreateSucceeds (threadpoolCreate c) ls)
    (hrun : Run.exec step (threadpoolCreate c) ls = some s) : Seated s ∧ ThreadTable s :=
  Run.invariant_of_always (I := fun m => Seated m ∧ ThreadTable m)
    (fun _ _ _ hm hs hok => ⟨hm.1.step (step_cases hs), hm.2.step hm.1 (step_cases hs) hok⟩)
    ⟨create_seated c, create_threadTable c hmin hall⟩ hcreate hrun

theorem running_worker_keeps_slot (hmin : c.minThrNum ≤ c.maxThrNum) (hall : c.AllCreated)
    (hcreate : Run.Always step PthreadCreateSucceeds (threadpoolCreate c) ls)
    (hrun : Run.exec step (threadpoolCreate c) ls = some s) :
    (∀ t ∈ s.workers, t.running = true →
      ∃! i, i < c.maxThrNum ∧ s.pool.threads[i]? = some t.tid) ∧
    (s.admin.pc = .testSlot ∨ s.admin.pc = .create → s.admin.i < c.maxThrNum) ∧
    (s.admin.pc = .create → ∀ t ∈ s.workers, t.running = true →
      s.pool.threads[s.admin.i]? ≠ some t.tid) := by
  obtain ⟨hseated, htable⟩ := exec_threadTable hmin hall hcreate hrun
  have hbounded : Bounded s := exec_bounded hmin hrun
  have hmax : s.pool.maxThrNum = c.maxThrNum := (exec_constants hrun).2.2
  refine ⟨fun t ht hrunning => ?_, fun hpc => ?_, fun hpc t ht hrunning => ?_⟩
  · have hunique := htable.table.exists_unique hseated.seats ⟨t, ht, hrunning, rfl⟩
    rwa [htable.length, hmax] at hunique
  · have hassert := hbounded.asserts .admin (.admin s.admin) rfl
    rw [← hmax]
    rcases hpc with hpc | hpc <;>
    · rw [Local.growAssert, hpc] at hassert
      exact hassert.1
  · exact (hseated.reuse hpc).2 t.tid ⟨t, ht, hrunning, rfl⟩

theorem running_worker_keeps_slot_after_growth :
    ∃ s, Run.exec step (threadpoolCreate growPool) growRun = some s ∧
      ∀ t ∈ s.workers, t.running = true → ∃! i, i < 2 ∧ s.pool.threads[i]? = some t.tid := by
  obtain ⟨s, hs⟩ : ∃ s, Run.exec step (threadpoolCreate growPool) growRun = some s :=
    Option.isSome_iff_exists.mp (by decide +kernel)
  refine ⟨s, hs, (running_worker_keeps_slot (by decide) (by decide) ?_ hs).1⟩
  apply Run.always_of_mem
  simp [growRun, adminSteps, addTask, PthreadCreateSucceeds, PthreadCreate.tid?]

end LearnCLinux.ThreadPool
