import LearnCLinux.ThreadPool.Locks

/-! The task queue.  Whatever the threads do, the events of a run are a run of the unbounded
first-in first-out queue, and the ring holds what that queue holds. -/

universe u v

namespace LearnCLinux.ThreadPool

open Threads

variable {Fn : Type u} {Arg : Type v}

/-- What can be seen of a run: `threadpool_add_task` is called, a task enters the queue, worker
`w` copies one out, its function returns in worker `w`, and an argument is passed to `free`. -/
inductive Event (Fn : Type u) (Arg : Type v) : Type (max u v)
  | call : ThreadpoolTask Fn Arg → Event Fn Arg
  | accept : ThreadpoolTask Fn Arg → Event Fn Arg
  | take : Nat → ThreadpoolTask Fn Arg → Event Fn Arg
  | finish : Nat → ThreadpoolTask Fn Arg → Event Fn Arg
  | release : Arg → Event Fn Arg
  deriving DecidableEq

def Worker.events (w : Nat) (t t' : Worker Fn Arg) : List (Event Fn Arg) :=
  match t.pc, t'.pc with
  | .take, _ => (t'.task.map (.take w)).toList
  | .run, .lockIdle => (t.task.map (.finish w)).toList
  | _, _ => []

def Producer.events (σ : Threadpool Fn Arg) (t : Producer Fn Arg) : List (Event Fn Arg) :=
  match t.pc with
  | .clearArg => match σ.taskQueue[σ.queueRear]? with
    | none => []
    | some slot => (slot.arg.map .release).toList
  | .put => (t.task.map .accept).toList
  | _ => []

def observe (s : State Fn Arg) (l : Label Fn Arg) (s' : State Fn Arg) : List (Event Fn Arg) :=
  match l with
  | .worker w _ => match s.workers[w]?, s'.workers[w]? with
    | some t, some t' => t.events w t'
    | _, _ => []
  | .producer p _ => match s.producers[p]? with
    | none => []
    | some t => t.events s.pool
  | .call _ task => [.call task]
  | _ => []

def Event.queue : Event Fn Arg → Option (Fifo.Event (ThreadpoolTask Fn Arg))
  | .call _ => none
  | .accept task => some (.put task)
  | .take _ task => some (.take task)
  | .finish _ _ => none
  | .release _ => none

def queueEvents (s : State Fn Arg) (l : Label Fn Arg) (s' : State Fn Arg) :
    List (Fifo.Event (ThreadpoolTask Fn Arg)) :=
  (observe s l s').filterMap Event.queue

/-- What a thread inside its critical section knows of the queue. -/
def Local.queueAssert (r : Ring (ThreadpoolTask Fn Arg)) (shutdown : Bool) :
    Local Fn Arg → Prop
  | .worker t => match t.pc with
    | .wait => r.size = 0
    | .testShutdown => r.size = 0 → shutdown = true
    | .take => r.size ≠ 0
    | _ => True
  | .producer t => match t.pc with
    | .wait => r.size = r.capacity
    | .testShutdown => r.size = r.capacity → shutdown = true
    | .clearArg | .put => r.size ≠ r.capacity
    | _ => True
  | .admin _ => True
  | .destroyer _ => True

structure QueueInv (s : State Fn Arg) (q : List (ThreadpoolTask Fn Arg)) : Prop where
  locks : Locks s
  ring : s.pool.ring.Represents q
  asserts : ∀ t b, s.thread t = some b → b.queueAssert s.pool.ring s.pool.shutdown

theorem Turn.queueAssert {s : State Fn Arg} {t : Tid} {b b' : Local Fn Arg}
    {σ' : Threadpool Fn Arg} (h : Turn s t b σ' b')
    (hb : b.queueAssert s.pool.ring s.pool.shutdown) : b'.queueAssert σ'.ring σ'.shutdown := by
  cases h with
  | worker h => cases h <;> simp_all [Local.queueAssert, Threadpool.ring]
  | call => trivial
  | producer h => cases h <;> simp_all [Local.queueAssert, Threadpool.ring]
  | admin => trivial
  | destroy => trivial

theorem queueAssert_of_not_holds (r : Ring (ThreadpoolTask Fn Arg)) (sh : Bool)
    (b : Local Fn Arg) (hb : b.holdsLock = false) : b.queueAssert r sh := by
  cases b with
  | worker t =>
    obtain ⟨tid, pc, task⟩ := t
    cases pc <;> trivial
  | producer t =>
    obtain ⟨pc, task⟩ := t
    cases pc <;> trivial
  | admin => trivial
  | destroyer => trivial

theorem queueAssert_mono (r : Ring (ThreadpoolTask Fn Arg)) (b : Local Fn Arg)
    (hb : b.queueAssert r false) : b.queueAssert r true := by
  cases b with
  | worker t =>
    obtain ⟨tid, pc, task⟩ := t
    cases pc <;> simp_all [Local.queueAssert]
  | producer t =>
    obtain ⟨pc, task⟩ := t
    cases pc <;> simp_all [Local.queueAssert]
  | admin => trivial
  | destroyer => trivial

theorem WorkerStep.ring {w : Nat} {e : Bool} {σ σ' : Threadpool Fn Arg} {t t' : Worker Fn Arg}
    (h : WorkerStep w σ e t σ' t') :
    (t.pc = .take ∧ ∃ task, σ.ring.slots[σ.ring.front]? = some task ∧ t'.task = some task ∧
        σ'.ring = σ.ring.pop) ∨
      (t.pc ≠ .take ∧ σ'.ring = σ.ring) := by
  cases h with
  | take hslot => exact .inl ⟨rfl, _, hslot, rfl, rfl⟩
  | _ => exact .inr ⟨by simp, rfl⟩

theorem ProducerStep.ring {p : Nat} {wake : Option Nat} {σ σ' : Threadpool Fn Arg}
    {t t' : Producer Fn Arg} (h : ProducerStep p wake σ t σ' t') :
    (t.pc = .put ∧ ∃ task, t.task = some task ∧ σ'.ring = σ.ring.push task) ∨
      (t.pc = .clearArg ∧ ∃ slot, slot.arg = none ∧ σ'.ring = σ.ring.setRear slot) ∨
      (t.pc ≠ .put ∧ σ'.ring = σ.ring) := by
  cases h with
  | put => exact .inl ⟨rfl, _, rfl, rfl⟩
  | release => exact .inr (.inl ⟨rfl, _, rfl, rfl⟩)
  | _ => exact .inr (.inr ⟨by simp, rfl⟩)

theorem AdminStep.ring {c : AdminChoice} {ws new : List (Worker Fn Arg)}
    {σ σ' : Threadpool Fn Arg} {a a' : Admin} (h : AdminStep c ws σ a σ' a' new) :
    σ'.ring = σ.ring := by
  cases h <;> rfl

theorem DestroyerStep.ring {ws : List (Worker Fn Arg)} {admin : Admin}
    {σ σ' : Threadpool Fn Arg} {d d' : Destroyer} (h : DestroyerStep ws admin σ d σ' d') :
    σ'.ring = σ.ring := by
  cases h <;> rfl

theorem queueEvents_worker {w : Nat} {e : Bool} {s s' : State Fn Arg} {t t' : Worker Fn Arg}
    (ht : s.workers[w]? = some t) (ht' : s'.workers[w]? = some t') :
    queueEvents s (.worker w e) s' =
      if t.pc = .take then (t'.task.map Fifo.Event.take).toList else [] := by
  obtain ⟨tid, pc, task⟩ := t
  simp only [queueEvents, observe, ht, ht', Worker.events]
  cases pc with
  | take => cases t'.task <;> rfl
  | run => cases task <;> cases t'.pc <;> rfl
  | _ => rfl

theorem queueEvents_producer {p : Nat} {wake : Option Nat} {s s' : State Fn Arg}
    {t : Producer Fn Arg} (ht : s.producers[p]? = some t) :
    queueEvents s (.producer p wake) s' =
      if t.pc = .put then (t.task.map Fifo.Event.put).toList else [] := by
  obtain ⟨pc, task⟩ := t
  simp only [queueEvents, observe, ht, Producer.events]
  cases pc with
  | put => cases task <;> rfl
  | clearArg =>
    cases s.pool.taskQueue[s.pool.queueRear]? with
    | none => rfl
    | some slot => obtain ⟨function, _ | arg⟩ := slot <;> rfl
  | _ => rfl

theorem create_queueInv (c : Setup Fn Arg) : QueueInv (threadpoolCreate c) [] where
  locks := create_locks c
  ring := Ring.represents_nil c.slots_length
  asserts := by
    intro t b ht
    rcases create_thread c ht with ⟨tid, rfl⟩ | rfl | rfl | rfl <;> trivial

section Refinement

variable [DecidableEq Fn] [DecidableEq Arg]

/-- One step of the program is at most one step of the queue it implements. -/
theorem QueueInv.step {s s' : State Fn Arg} {l : Label Fn Arg}
    {q : List (ThreadpoolTask Fn Arg)} (hq : QueueInv s q) (h : Step s l s') :
    ∃ q', Run.exec Fifo.step q (queueEvents s l s') = some q' ∧ QueueInv s' q' := by
  have hlocks : Locks s' := hq.locks.step h
  have hasserts : ∀ t b, s'.thread t = some b → b.queueAssert s'.pool.ring s'.pool.shutdown :=
    hq.locks.assertions (A := fun g sh b => b.queueAssert g.ring sh)
      (fun g => queueAssert_of_not_holds g.ring) (fun g => queueAssert_mono g.ring)
      (fun t b b' ht => ht.queueAssert) hq.asserts h
  cases h with
  | @worker w e t σ' t' hw h =>
    have hw' : (s.workers.set w t')[w]? = some t' := getElem?_set_of_some hw t'
    rw [queueEvents_worker hw hw']
    rcases h.ring with ⟨hpc, task, hslot, htask, hring⟩ | ⟨hpc, hring⟩
    · have hsize : s.pool.ring.size ≠ 0 := by
        have hassert := hq.asserts (.worker w) (.worker t) (by simp [State.thread, hw])
        simpa [Local.queueAssert, hpc] using hassert
      cases q with
      | nil => exact absurd hq.ring.size_eq hsize
      | cons x q =>
        have hx : x = task := Option.some.inj (hq.ring.front_slot.symm.trans hslot)
        subst hx
        refine ⟨q, by simp [hpc, htask, Run.exec, Fifo.step], hlocks, ?_, hasserts⟩
        rw [show State.pool _ = σ' from rfl, hring]
        exact hq.ring.pop
    · refine ⟨q, by simp [hpc], hlocks, ?_, hasserts⟩
      rw [show State.pool _ = σ' from rfl, hring]
      exact hq.ring
  | @producer p wake t σ' t' hp h =>
    rw [queueEvents_producer hp]
    have hassert := hq.asserts (.producer p) (.producer t) (by simp [State.thread, hp])
    rcases h.ring with ⟨hpc, task, htask, hring⟩ | ⟨hpc, slot, -, hring⟩ | ⟨hpc, hring⟩
    · have hfull : s.pool.ring.size ≠ s.pool.ring.capacity := by
        simpa [Local.queueAssert, hpc] using hassert
      refine ⟨q ++ [task], by simp [hpc, htask, Run.exec, Fifo.step], hlocks, ?_, hasserts⟩
      rw [show State.pool _ = σ' from rfl, hring]
      exact hq.ring.push hfull
    · have hfull : s.pool.ring.size ≠ s.pool.ring.capacity := by
        simpa [Local.queueAssert, hpc] using hassert
      refine ⟨q, by simp [hpc], hlocks, ?_, hasserts⟩
      rw [show State.pool _ = σ' from rfl, hring]
      exact hq.ring.setRear hfull
    · refine ⟨q, by simp [hpc], hlocks, ?_, hasserts⟩
      rw [show State.pool _ = σ' from rfl, hring]
      exact hq.ring
  | call => exact ⟨q, rfl, hlocks, hq.ring, hasserts⟩
  | @admin c a σ' a' new ha h =>
    refine ⟨q, rfl, hlocks, ?_, hasserts⟩
    rw [show State.pool _ = σ' from rfl, h.ring]
    exact hq.ring
  | @destroy d σ' d' hd h =>
    refine ⟨q, rfl, hlocks, ?_, hasserts⟩
    rw [show State.pool _ = σ' from rfl, h.ring]
    exact hq.ring
  | wakeWorker => exact ⟨q, rfl, hlocks, hq.ring, hasserts⟩
  | wakeProducer => exact ⟨q, rfl, hlocks, hq.ring, hasserts⟩

/-- The ring buffer refines the queue: its events are a run of `Fifo.step`. -/
theorem exec_queueInv (c : Setup Fn Arg) {ls : List (Label Fn Arg)} {s : State Fn Arg}
    (h : Run.exec step (threadpoolCreate c) ls = some s) :
    ∃ q, Run.exec Fifo.step [] (Run.trace step queueEvents (threadpoolCreate c) ls) = some q ∧
      QueueInv s q :=
  Run.simulation (fun _ _ _ _ hq hs => hq.step (step_cases hs)) (create_queueInv c) h

end Refinement

/-- The tasks of the calls that reached the enqueue, in that order. -/
def accepted (c : Setup Fn Arg) (ls : List (Label Fn Arg)) : List (ThreadpoolTask Fn Arg) :=
  Fifo.puts (Run.trace step queueEvents (threadpoolCreate c) ls)

def taken (c : Setup Fn Arg) (ls : List (Label Fn Arg)) : List (ThreadpoolTask Fn Arg) :=
  Fifo.takes (Run.trace step queueEvents (threadpoolCreate c) ls)

theorem accepted_eq_taken [DecidableEq Fn] [DecidableEq Arg] {c : Setup Fn Arg}
    {ls : List (Label Fn Arg)} {q : List (ThreadpoolTask Fn Arg)}
    (h : Run.exec Fifo.step [] (Run.trace step queueEvents (threadpoolCreate c) ls) = some q) :
    accepted c ls = taken c ls ++ q := by
  simpa [accepted, taken] using Fifo.exec_conserves h

def Local.atModulus : Local Fn Arg → Bool
  | .worker t => t.pc = .take
  | .producer t => t.pc = .put
  | .admin _ => false
  | .destroyer _ => false

theorem QueueInv.modulus {s : State Fn Arg} {q : List (ThreadpoolTask Fn Arg)}
    (h : QueueInv s q) {t : Tid} {b : Local Fn Arg} (ht : s.thread t = some b)
    (hb : b.atModulus = true) : s.pool.queueMaxSize ≠ 0 := by
  have hassert := h.asserts t b ht
  have hnonneg := h.ring.size_nonneg
  have hle : s.pool.ring.size ≤ s.pool.queueMaxSize := h.ring.size_le
  cases b with
  | worker t =>
    have hpc : t.pc = .take := by simpa [Local.atModulus] using hb
    have hsize : s.pool.ring.size ≠ 0 := by simpa [Local.queueAssert, hpc] using hassert
    omega
  | producer t =>
    have hpc : t.pc = .put := by simpa [Local.atModulus] using hb
    have hsize : s.pool.ring.size ≠ s.pool.queueMaxSize := by
      simpa [Local.queueAssert, hpc, Threadpool.ring] using hassert
    omega
  | admin => cases hb
  | destroyer => cases hb

/-- Past its shutdown test a call of `threadpool_add_task` can only return 0. -/
def ProducerPc.committed : ProducerPc → Bool
  | .clearArg | .put | .signalNotEmpty | .unlock => true
  | .returned n => n = 0
  | _ => false

def Committed (p : Nat) (s : State Fn Arg) : Prop :=
  ∃ t, s.producers[p]? = some t ∧ t.pc.committed = true

theorem ProducerStep.committed {p : Nat} {wake : Option Nat} {σ σ' : Threadpool Fn Arg}
    {t t' : Producer Fn Arg} (h : ProducerStep p wake σ t σ' t')
    (ht : t.pc.committed = true) : t'.pc.committed = true := by
  cases h <;> first | rfl | cases ht

theorem ProducerStep.committed_of_ring_ne {p : Nat} {wake : Option Nat}
    {σ σ' : Threadpool Fn Arg} {t t' : Producer Fn Arg} (h : ProducerStep p wake σ t σ' t')
    (hring : σ'.ring ≠ σ.ring) : t'.pc.committed = true := by
  cases h <;> first | rfl | exact absurd rfl hring

theorem Step.producer_of {p : Nat} {s s' : State Fn Arg} {l : Label Fn Arg} {t : Producer Fn Arg}
    (h : Step s l s') (ht : s.producers[p]? = some t) (hl : ∀ task, l ≠ .call p task) :
    s'.producers[p]? = some t ∨ ∃ wake t', s'.producers[p]? = some t' ∧
      ProducerStep p wake s.pool t s'.pool t' := by
  cases h with
  | @call q task u hq hpc =>
    have hne : q ≠ p := fun h => hl task (h ▸ rfl)
    exact .inl ((List.getElem?_set_ne hne).trans ht)
  | @producer q wake u σ' u' hq h =>
    by_cases hqp : q = p
    · subst hqp
      have htu : t = u := Option.some.inj (ht.symm.trans hq)
      subst htu
      exact .inr ⟨wake, u', getElem?_set_of_some hq u', h⟩
    · exact .inl ((List.getElem?_set_ne hqp).trans ht)
  | worker => exact .inl ht
  | admin => exact .inl ht
  | destroy => exact .inl ht
  | wakeWorker => exact .inl ht
  | wakeProducer => exact .inl ht

theorem Committed.step {p : Nat} {s s' : State Fn Arg} {l : Label Fn Arg} (hc : Committed p s)
    (h : Step s l s') (hl : ∀ task, l ≠ .call p task) : Committed p s' := by
  obtain ⟨t, ht, hcom⟩ := hc
  rcases h.producer_of ht hl with hsame | ⟨wake, t', ht', hstep⟩
  · exact ⟨t, hsame, hcom⟩
  · exact ⟨t', ht', hstep.committed hcom⟩

theorem exec_committed {p : Nat} {s s' : State Fn Arg} {ls : List (Label Fn Arg)}
    (hcall : ∀ task, .call p task ∉ ls) (hc : Committed p s) (h : Run.exec step s ls = some s') :
    Committed p s' := by
  apply Run.invariant_of_always (fun _ _ _ hc hs hl => hc.step (step_cases hs) hl) hc _ h
  apply Run.always_of_mem
  intro l hl _ _ task heq
  exact hcall task (heq ▸ hl)

/-- The steps of producer `p` leave every queue field and every slot alone. -/
def LeavesQueue (p : Nat) (s : State Fn Arg) (l : Label Fn Arg) (s' : State Fn Arg) : Prop :=
  (∃ wake, l = .producer p wake) → s'.pool.ring = s.pool.ring

theorem Step.committed_of_not_leavesQueue {p : Nat} {s s' : State Fn Arg} {l : Label Fn Arg}
    (h : Step s l s') (hl : ¬ LeavesQueue p s l s') : Committed p s' := by
  obtain ⟨⟨wake, rfl⟩, hring⟩ := Classical.not_imp.mp hl
  cases h with
  | @producer _ _ t σ' t' hp h =>
    exact ⟨t', getElem?_set_of_some hp t', h.committed_of_ring_ne hring⟩

/-- A call that returns -1 has changed nothing of the queue on its way. -/
theorem failed_call_leavesQueue {p : Nat} {s s' : State Fn Arg} {t : Producer Fn Arg}
    {ls : List (Label Fn Arg)} (hcall : ∀ task, .call p task ∉ ls)
    (h : Run.exec step s ls = some s') (ht : s'.producers[p]? = some t)
    (hret : t.pc = .returned (-1)) : Run.Always step (LeavesQueue p) s ls := by
  induction ls generalizing s with
  | nil => trivial
  | cons l ls ih =>
    obtain ⟨m, hm, hrest⟩ := Run.exec_cons.mp h
    have hcall' : ∀ task, .call p task ∉ ls := fun task h =>
      hcall task (List.mem_cons_of_mem _ h)
    intro m' hm'
    have hmm : m = m' := Option.some.inj (hm.symm.trans hm')
    subst hmm
    refine ⟨?_, ih hcall' hrest⟩
    by_contra hbad
    have hcommitted := (step_cases hm).committed_of_not_leavesQueue hbad
    obtain ⟨t', ht', hcom⟩ := exec_committed hcall' hcommitted hrest
    rw [ht] at ht'
    cases ht'
    simp [ProducerPc.committed, hret] at hcom

theorem queue_is_fifo (c : Setup Fn Arg) {ls : List (Label Fn Arg)} {s : State Fn Arg}
    (hrun : Run.exec step (threadpoolCreate c) ls = some s) :
    (0 ≤ s.pool.queueSize ∧ s.pool.queueSize ≤ c.queueMaxSize) ∧
    (∃ q, accepted c ls = taken c ls ++ q ∧ s.pool.queueSize = q.length ∧
      ∀ k < q.length,
        s.pool.taskQueue[(s.pool.queueFront + k) % c.queueMaxSize]? = q[k]?) ∧
    (0 < c.queueMaxSize → s.pool.queueRear =
      (s.pool.queueFront + s.pool.queueSize.toNat) % c.queueMaxSize) ∧
    taken c ls <+: accepted c ls ∧
    (∀ p ks s' t, (∀ task, .call p task ∉ ks) → Run.exec step s ks = some s' →
      s'.producers[p]? = some t → t.pc = .returned (-1) →
      Run.Always step (LeavesQueue p) s ks) ∧
    (∀ t b, s.thread t = some b → b.atModulus = true → c.queueMaxSize ≠ 0) := by
  classical
  obtain ⟨q, hq, hinv⟩ := exec_queueInv c hrun
  have hcap : s.pool.queueMaxSize = c.queueMaxSize := (exec_constants hrun).1
  rw [← hcap]
  have hconserve : accepted c ls = taken c ls ++ q := accepted_eq_taken hq
  refine ⟨⟨hinv.ring.size_nonneg, hinv.ring.size_le⟩,
    ⟨q, hconserve, hinv.ring.size_eq, hinv.ring.slot⟩, ?_, ?_, ?_, ?_⟩
  · intro hpos
    have hsize : s.pool.queueSize = q.length := hinv.ring.size_eq
    rw [hsize, Int.toNat_natCast]
    exact hinv.ring.rear_eq hpos
  · exact Fifo.takes_prefix_puts hq
  · exact fun p ks s' t hcall hks ht hret => failed_call_leavesQueue hcall hks ht hret
  · exact fun t b => hinv.modulus

def smallPool : Setup Nat Nat where
  minThrNum := 1
  maxThrNum := 1
  queueMaxSize := 1
  slots := [⟨0, none⟩]
  started := [.created 100]
  callers := 2
  slots_length := rfl
  started_length := rfl
  tids_nodup := by decide
  tids_ne_zero := by decide

def addTask (p : Nat) (task : ThreadpoolTask Nat Nat) (wake : Option Nat) :
    List (Label Nat Nat) :=
  .call p task :: List.replicate 5 (.producer p none) ++ [.producer p wake, .producer p none]

def workerSteps (w n : Nat) : List (Label Nat Nat) := List.replicate n (.worker w false)

theorem queue_is_fifo_one_task :
    ∃ s, Run.exec step (threadpoolCreate smallPool)
        (addTask 0 ⟨0, some 1⟩ none ++ workerSteps 0 5) = some s ∧
      0 ≤ s.pool.queueSize ∧ s.pool.queueSize ≤ 1 := by
  obtain ⟨s, hs⟩ : ∃ s, Run.exec step (threadpoolCreate smallPool)
      (addTask 0 ⟨0, some 1⟩ none ++ workerSteps 0 5) = some s :=
    Option.isSome_iff_exists.mp (by decide +kernel)
  exact ⟨s, hs, (queue_is_fifo smallPool hs).1⟩

end LearnCLinux.ThreadPool
