import Mathlib.Data.Fintype.EquivFin
import LearnCLinux.ThreadPool.Shutdown

/-! Who can go on.  Up to `free`, a thread that neither waits for a mutex, sleeps on a condition
variable nor joins a running thread has a next step, and a thread inside a critical section is
never one that waits. -/

universe u v

namespace LearnCLinux.ThreadPool

open Threads

variable {Fn : Type u} {Arg : Type v}

/-- The thread whose statement the step executes.  A call comes from outside, and a spurious wakeup
is nobody's statement. -/
def Label.mover : Label Fn Arg → Option Tid
  | .worker w _ => some (.worker w)
  | .producer p _ => some (.producer p)
  | .admin _ => some .admin
  | .destroy => some .destroyer
  | .call _ _ | .wakeWorker _ | .wakeProducer _ => none

def CanStep (s : State Fn Arg) (t : Tid) : Prop :=
  ∃ l s', Label.mover l = some t ∧ step s l = some s'

/-- The thread has to wait where it stands, or has nothing left to do. -/
def State.Waits (s : State Fn Arg) : Tid → Local Fn Arg → Prop
  | .worker w, .worker t => match t.pc with
    | .lock => s.pool.lock ≠ none
    | .waiting => w ∈ s.pool.queueNotEmpty ∨ s.pool.lock ≠ none
    | .lockBusy | .lockIdle => s.pool.threadCounter ≠ none
    | .exited _ => True
    | _ => False
  | .producer p, .producer t => match t.pc with
    | .idle | .returned _ => True
    | .lock => s.pool.lock ≠ none
    | .waiting => p ∈ s.pool.queueNotFull ∨ s.pool.lock ≠ none
    | _ => False
  | .admin, .admin a => match a.pc with
    | .lockStat | .lockGrow | .lockShrink => s.pool.lock ≠ none
    | .lockBusy => s.pool.threadCounter ≠ none
    | .returned => True
    | _ => False
  | .destroyer, .destroyer d => match d.pc with
    | .joinAdmin => s.admin.pc ≠ .returned
    | .join => ∃ tid, s.pool.threads[d.i]? = some tid ∧ IsAlive s.workers tid
    | .lockLock => s.pool.lock ≠ none
    | .lockCounter => s.pool.threadCounter ≠ none
    | .freePool => s.pool.queueNotEmpty ≠ [] ∨ s.pool.queueNotFull ≠ []
    | .returned => True
    | _ => False
  | _, _ => False

section Equipped

def DestroyerPc.freed : DestroyerPc → Bool
  | .lockLock | .lockCounter | .freePool | .returned => true
  | _ => false

/-- What the statements rely on, apart from the queue: the arguments of a call in progress, the
length of the table, the index a join uses, and arrays that have not been freed. -/
structure Equipped (s : State Fn Arg) : Prop where
  tasks : ∀ t ∈ s.producers, t.pc = .idle ∨ t.task.isSome
  length : s.pool.threads.length = s.pool.maxThrNum
  join : s.destroyer.pc = .join → s.destroyer.i < s.pool.maxThrNum
  freed : s.destroyer.pc.freed = true → s.pool.allocated = false

theorem ProducerStep.task {p : Nat} {wake : Option Nat} {σ σ' : Threadpool Fn Arg}
    {t t' : Producer Fn Arg} (h : ProducerStep p wake σ t σ' t') :
    t.pc ≠ .idle ∧ t'.task = t.task := by
  cases h <;> exact ⟨nofun, rfl⟩

theorem Step.length_threads {s s' : State Fn Arg} {l : Label Fn Arg} (h : Step s l s') :
    s'.pool.threads.length = s.pool.threads.length := by
  cases h with
  | worker hw h => simp only [h.identity.1]
  | producer hp h => simp only [h.threads]
  | admin ha h =>
    rcases h.threads with ⟨h, -⟩ | ⟨h, -⟩ | ⟨-, -, _, -, h, -⟩ | ⟨-, -, -, _, h, -⟩ <;> simp [h]
  | destroy hd h => simp only [h.threads]
  | call => rfl
  | wakeWorker => rfl
  | wakeProducer => rfl

theorem Step.allocated {s s' : State Fn Arg} {l : Label Fn Arg} (h : Step s l s')
    (hfreed : s.pool.allocated = false) : s'.pool.allocated = false := by
  cases h with
  | worker _ h => cases h <;> exact hfreed
  | call => exact hfreed
  | producer _ h => cases h <;> exact hfreed
  | admin _ h => cases h <;> exact hfreed
  | destroy _ h => cases h <;> first | exact hfreed | rfl
  | wakeWorker => exact hfreed
  | wakeProducer => exact hfreed

theorem Equipped.step {s s' : State Fn Arg} {l : Label Fn Arg} (he : Equipped s)
    (hlive : s.pool.liveThrNum ≤ s.pool.maxThrNum) (h : Step s l s') : Equipped s' := by
  have hlength : s'.pool.threads.length = s'.pool.maxThrNum := by
    rw [h.length_threads, he.length, h.constants.2.2]
  have hmax := h.constants.2.2
  have hfree := h.allocated
  cases h with
  | worker => exact ⟨he.tasks, hlength, hmax ▸ he.join, fun hpc => hfree (he.freed hpc)⟩
  | @call p task t hp hpc =>
    refine ⟨fun u hu => ?_, hlength, he.join, he.freed⟩
    rcases List.mem_or_eq_of_mem_set hu with hold | rfl
    · exact he.tasks u hold
    · exact .inr rfl
  | @producer p wake t σ' t' hp h =>
    refine ⟨fun u hu => ?_, hlength, hmax ▸ he.join, fun hpc => hfree (he.freed hpc)⟩
    rcases List.mem_or_eq_of_mem_set hu with hold | rfl
    · exact he.tasks u hold
    · obtain ⟨hidle, htask⟩ := h.task
      right
      rw [htask]
      exact (he.tasks t (List.mem_of_getElem? hp)).resolve_left hidle
  | admin => exact ⟨he.tasks, hlength, hmax ▸ he.join, fun hpc => hfree (he.freed hpc)⟩
  | @destroy d σ' d' hd h =>
    have hjoin := he.join
    have hfreed := he.freed
    rw [hd] at hjoin hfreed
    refine ⟨he.tasks, hlength, ?_, ?_⟩
    · cases h with
      | goJoin hi => exact fun _ => Int.ofNat_lt.mp (Int.lt_of_lt_of_le hi hlive)
      | _ => exact nofun
    · cases h with
      | free => exact fun _ => rfl
      | lockLock => exact fun _ => hfreed rfl
      | lockCounter => exact fun _ => hfreed rfl
      | freePool => exact fun _ => hfreed rfl
      | _ => exact nofun
  | wakeWorker => exact ⟨he.tasks, hlength, he.join, he.freed⟩
  | wakeProducer => exact ⟨he.tasks, hlength, he.join, he.freed⟩

end Equipped

section CanStep

variable {s : State Fn Arg} {q : List (ThreadpoolTask Fn Arg)}

theorem exists_condSignal (waiters : List Nat) :
    ∃ wake waiters', condSignal waiters wake = some waiters' := by
  cases waiters with
  | nil => exact ⟨none, [], rfl⟩
  | cons w waiters => exact ⟨some w, _, if_pos List.mem_cons_self⟩

theorem exists_fresh (workers : List (Worker Fn Arg)) : ∃ tid, fresh workers tid = true := by
  obtain ⟨tid, htid⟩ :=
    Infinite.exists_notMem_finset (0 :: workers.map Worker.tid).toFinset
  refine ⟨tid, fresh_iff.mpr ?_⟩
  simpa using htid

theorem worker_canStep (hq : QueueInv s q) (halloc : s.pool.allocated = true) {w : Nat}
    {t : Worker Fn Arg} (hw : s.workers[w]? = some t)
    (hgo : ¬ s.Waits (.worker w) (.worker t)) : CanStep s (.worker w) := by
  have hassert := hq.asserts (.worker w) (.worker t) (by simp [State.thread, hw])
  refine ⟨.worker w false, ?_⟩
  simp only [Label.mover, step, hw, true_and]
  obtain ⟨tid, pc, task⟩ := t
  cases pc with
  | take =>
    have hsize : s.pool.ring.size ≠ 0 := hassert
    cases q with
    | nil => exact absurd hq.ring.size_eq hsize
    | cons x q =>
      have hslot : s.pool.taskQueue[s.pool.queueFront]? = some x := hq.ring.front_slot
      simp [threadpoolThread, hslot, halloc]
  | testEmpty =>
    simp only [threadpoolThread]
    split <;> exact ⟨_, rfl⟩
  | testExit =>
    simp only [threadpoolThread]
    split
    · split <;> exact ⟨_, rfl⟩
    · exact ⟨_, rfl⟩
  | testShutdown =>
    simp only [threadpoolThread]
    split <;> exact ⟨_, rfl⟩
  | exited => exact absurd trivial hgo
  | _ => first | exact ⟨_, rfl⟩ | simp_all [State.Waits, threadpoolThread]

theorem producer_canStep (hq : QueueInv s q) (he : Equipped s) (halloc : s.pool.allocated = true)
    {p : Nat} {t : Producer Fn Arg} (hp : s.producers[p]? = some t)
    (hgo : ¬ s.Waits (.producer p) (.producer t)) : CanStep s (.producer p) := by
  have hassert := hq.asserts (.producer p) (.producer t) (by simp [State.thread, hp])
  have htask := he.tasks t (List.mem_of_getElem? hp)
  obtain ⟨wake, waiters, hwake⟩ := exists_condSignal s.pool.queueNotEmpty
  refine ⟨.producer p wake, ?_⟩
  simp only [Label.mover, step, hp, true_and]
  obtain ⟨pc, task⟩ := t
  cases pc with
  | clearArg =>
    have hfull : s.pool.ring.size ≠ s.pool.ring.capacity := hassert
    have hrear : s.pool.queueRear < s.pool.taskQueue.length := hq.ring.rear_lt hfull
    simp only [threadpoolAddTask, List.getElem?_eq_getElem hrear, halloc, if_true]
    split <;> exact ⟨_, rfl⟩
  | put =>
    obtain ⟨task, rfl⟩ := Option.isSome_iff_exists.mp (htask.resolve_left (by simp))
    simp [threadpoolAddTask, halloc]
  | testFull =>
    simp only [threadpoolAddTask]
    split <;> exact ⟨_, rfl⟩
  | testShutdown =>
    simp only [threadpoolAddTask]
    split <;> exact ⟨_, rfl⟩
  | idle => exact absurd trivial hgo
  | returned => exact absurd trivial hgo
  | _ => first | exact ⟨_, rfl⟩ | simp_all [State.Waits, threadpoolAddTask]

theorem admin_canStep (hb : Bounded s) (he : Equipped s)
    (hgo : ¬ s.Waits .admin (.admin s.admin)) : CanStep s .admin := by
  have hassert := hb.asserts .admin (.admin s.admin) rfl
  obtain ⟨wake, waiters, hwake⟩ := exists_condSignal s.pool.queueNotEmpty
  obtain ⟨tid, htid⟩ := exists_fresh s.workers
  refine ⟨.admin ⟨wake, true, .created tid⟩, ?_⟩
  simp only [Label.mover, step, true_and]
  generalize s.admin = a at hgo hassert
  obtain ⟨pc, i, n, queueSize, live, busy⟩ := a
  cases pc with
  | testSlot =>
    have hi : i < s.pool.threads.length := he.length ▸ hassert.1
    simp only [adminThread, List.getElem?_eq_getElem hi]
    split <;> exact ⟨_, rfl⟩
  | loop | testGrow | growLoop | testShrink =>
    simp only [adminThread]
    split <;> exact ⟨_, rfl⟩
  | signalLoop =>
    simp only [adminThread, hwake]
    split <;> exact ⟨_, rfl⟩
  | returned => exact absurd trivial hgo
  | _ => first | exact ⟨_, rfl⟩ | simp_all [State.Waits, adminThread]

theorem destroyer_canStep (he : Equipped s)
    (hgo : ¬ s.Waits .destroyer (.destroyer s.destroyer)) : CanStep s .destroyer := by
  have hlength := he.length
  have hjoin := he.join
  refine ⟨.destroy, ?_⟩
  simp only [Label.mover, step, true_and]
  generalize s.destroyer = d at hgo hjoin
  obtain ⟨pc, i⟩ := d
  cases pc with
  | join =>
    have hi : i < s.pool.threads.length := hlength ▸ hjoin rfl
    have hdead : ∀ t ∈ s.workers, t.running = true → t.tid ≠ s.pool.threads[i] := by
      intro t ht hrunning htid
      exact hgo ⟨_, List.getElem?_eq_getElem hi, t, ht, hrunning, htid⟩
    have hany : (s.workers.any fun t => t.running && t.tid == s.pool.threads[i]) = false := by
      simpa using hdead
    simp [threadpoolDestroy, List.getElem?_eq_getElem hi, hany]
  | testBroadcast | testJoin =>
    simp only [threadpoolDestroy]
    split <;> exact ⟨_, rfl⟩
  | returned => exact absurd trivial hgo
  | _ => first | exact ⟨_, rfl⟩ | simp_all [State.Waits, threadpoolDestroy]

end CanStep

section Sound

theorem Turn.lock_entered {s : State Fn Arg} {t : Tid} {b b' : Local Fn Arg}
    {σ' : Threadpool Fn Arg} (h : Turn s t b σ' b') (hfree : s.pool.lock = none)
    (htaken : σ'.lock = some t) : b'.holdsLock = true := by
  cases h with
  | worker h => cases h <;> first | rfl | cases htaken | cases hfree.symm.trans htaken
  | call => cases hfree.symm.trans htaken
  | producer h => cases h <;> first | rfl | cases htaken
  | admin _ h => cases h <;> first | rfl | cases htaken | cases hfree.symm.trans htaken
  | destroy _ h => cases h <;> first | rfl | cases hfree.symm.trans htaken

theorem Turn.counter_entered {s : State Fn Arg} {t : Tid} {b b' : Local Fn Arg}
    {σ' : Threadpool Fn Arg} (h : Turn s t b σ' b') (hfree : s.pool.threadCounter = none)
    (htaken : σ'.threadCounter = some t) : b'.holdsCounter = true := by
  cases h with
  | worker h => cases h <;> first | rfl | cases htaken | cases hfree.symm.trans htaken
  | call => cases hfree.symm.trans htaken
  | producer h => cases h <;> cases hfree.symm.trans htaken
  | admin _ h => cases h <;> first | rfl | cases htaken | cases hfree.symm.trans htaken
  | destroy _ h => cases h <;> first | rfl | cases hfree.symm.trans htaken

structure Sound (s : State Fn Arg) : Prop where
  queue : ∃ q, QueueInv s q
  bounded : Bounded s
  equipped : Equipped s
  lock : Owned Local.holdsLock s.pool.lock s.thread
  counter : Owned Local.holdsCounter s.pool.threadCounter s.thread

theorem Sound.step {s s' : State Fn Arg} {l : Label Fn Arg} (hs : Sound s) (h : Step s l s') :
    Sound s' where
  queue := by
    classical
    obtain ⟨q, hq⟩ := hs.queue
    obtain ⟨q', -, hq'⟩ := hq.step h
    exact ⟨q', hq'⟩
  bounded := hs.bounded.step h
  equipped := hs.equipped.step hs.bounded.live_le h
  lock := by
    rcases h.turn with hw | ⟨t, b, b', hturn, hmoves⟩
    · rw [hw.thread, hw.pool]
      exact hs.lock
    · exact hs.lock.step hmoves hturn.lockOp hturn.lock_entered
  counter := by
    rcases h.turn with hw | ⟨t, b, b', hturn, hmoves⟩
    · rw [hw.thread, hw.pool]
      exact hs.counter
    · exact hs.counter.step hmoves hturn.counterOp hturn.counter_entered

theorem create_equipped {c : Setup Fn Arg} (hmin : c.minThrNum ≤ c.maxThrNum) :
    Equipped (threadpoolCreate c) where
  tasks t ht := by
    rw [List.eq_of_mem_replicate ht]
    exact .inl rfl
  length := by
    have hlen := c.started_length
    simp [threadpoolCreate]
    omega
  join := nofun
  freed := nofun

theorem exec_sound {c : Setup Fn Arg} {ls : List (Label Fn Arg)} {s : State Fn Arg}
    (hmin : c.minThrNum ≤ c.maxThrNum) (hrun : Run.exec step (threadpoolCreate c) ls = some s) :
    Sound s :=
  Run.invariant (fun _ _ _ hm hs => hm.step (step_cases hs))
    ⟨⟨[], create_queueInv c⟩, create_bounded c hmin, create_equipped hmin, nofun, nofun⟩ hrun

variable {s : State Fn Arg}

/-- Up to `free`, whoever neither waits nor has ended can go on. -/
theorem Sound.canStep (hs : Sound s) (halloc : s.pool.allocated = true) {t : Tid}
    {b : Local Fn Arg} (ht : s.thread t = some b) (hgo : ¬ s.Waits t b) : CanStep s t := by
  obtain ⟨q, hq⟩ := hs.queue
  cases t with
  | worker w =>
    obtain ⟨t, hw, rfl⟩ := Option.map_eq_some_iff.mp ht
    exact worker_canStep hq halloc hw hgo
  | producer p =>
    obtain ⟨t, hp, rfl⟩ := Option.map_eq_some_iff.mp ht
    exact producer_canStep hq hs.equipped halloc hp hgo
  | admin =>
    cases ht
    exact admin_canStep hs.bounded hs.equipped hgo
  | destroyer =>
    cases ht
    exact destroyer_canStep hs.equipped hgo

theorem not_canStep {t : Tid} (hwaits : ∀ b, s.thread t = some b → s.Waits t b) :
    ¬ CanStep s t := by
  rintro ⟨l, s', hl, hstep⟩
  cases step_cases hstep with
  | worker hw h =>
    cases hl
    have hwait := hwaits _ (by rw [State.thread, hw]; rfl)
    cases h with
    | lock hfree => exact hwait hfree
    | awake hawake hfree => exact hwait.elim hawake fun hlock => hlock hfree
    | lockBusy hfree => exact hwait hfree
    | lockIdle hfree => exact hwait hfree
    | _ => exact hwait
  | producer hp h =>
    cases hl
    have hwait := hwaits _ (by rw [State.thread, hp]; rfl)
    cases h with
    | lock hfree => exact hwait hfree
    | awake hawake hfree => exact hwait.elim hawake fun hlock => hlock hfree
    | _ => exact hwait
  | admin ha h =>
    cases hl
    have hwait := hwaits _ rfl
    rw [ha] at hwait
    cases h with
    | lockStat hfree => exact hwait hfree
    | lockBusy hfree => exact hwait hfree
    | lockGrow hfree => exact hwait hfree
    | lockShrink hfree => exact hwait hfree
    | _ => exact hwait
  | destroy hd h =>
    cases hl
    have hwait := hwaits _ rfl
    rw [hd] at hwait
    cases h with
    | joinAdmin hreturned => exact hwait hreturned
    | join hslot hdead =>
      obtain ⟨tid, htid, t, ht, hrunning, rfl⟩ := hwait
      exact hdead t ht hrunning (Option.some.inj (htid.symm.trans hslot))
    | lockLock hfree => exact hwait hfree
    | lockCounter hfree => exact hwait hfree
    | freePool hempty hfull => exact hwait.elim (fun h => h hempty) fun h => h hfull
    | _ => exact hwait
  | call => cases hl
  | wakeWorker => cases hl
  | wakeProducer => cases hl

theorem Sound.not_waits (hs : Sound s) (halloc : s.pool.allocated = true) {t : Tid}
    {b : Local Fn Arg} (ht : s.thread t = some b)
    (hholds : b.holdsLock = true ∨ b.holdsCounter = true) : ¬ s.Waits t b := by
  have hfreed := hs.equipped.freed
  rw [halloc] at hfreed
  clear hs halloc
  cases t with
  | worker w =>
    obtain ⟨⟨tid, pc, task⟩, -, rfl⟩ := Option.map_eq_some_iff.mp ht
    cases pc <;> first | exact id | simp [Local.holdsLock, Local.holdsCounter,
      WorkerPc.holdsLock, WorkerPc.holdsCounter] at hholds
  | producer p =>
    obtain ⟨⟨pc, task⟩, -, rfl⟩ := Option.map_eq_some_iff.mp ht
    cases pc <;> first | exact id | simp [Local.holdsLock, Local.holdsCounter,
      ProducerPc.holdsLock] at hholds
  | admin =>
    cases ht
    generalize s.admin = a at hholds
    obtain ⟨pc, i, n, queueSize, live, busy⟩ := a
    cases pc <;> first | exact id | simp [Local.holdsLock, Local.holdsCounter,
      AdminPc.holdsLock, AdminPc.holdsCounter] at hholds
  | destroyer =>
    cases ht
    generalize s.destroyer = d at hholds hfreed
    obtain ⟨pc, i⟩ := d
    cases pc <;> first | exact id | cases hfreed rfl | simp [Local.holdsLock, Local.holdsCounter,
      DestroyerPc.holdsLock, DestroyerPc.holdsCounter] at hholds

end Sound

section Sections

def Local.holds (b : Local Fn Arg) : Bool := b.holdsLock || b.holdsCounter

def Holds (t : Tid) (s : State Fn Arg) : Prop := ∃ b, s.thread t = some b ∧ b.holds = true

/-- How many statements are left at most before the mutex is released, where the growth loop of
`admin_thread` goes over `n` slots. -/
def Local.statementsLeft (n : Nat) : Local Fn Arg → Nat
  | .worker t => match t.pc with
    | .testExit => 6
    | .testEmpty => 5
    | .testShutdown => 4
    | .take => 3
    | .broadcastNotFull | .incBusy | .decBusy => 2
    | _ => 1
  | .producer t => match t.pc with
    | .testFull => 6
    | .testShutdown => 5
    | .clearArg => 4
    | .put => 3
    | .signalNotEmpty => 2
    | _ => 1
  | .admin a => match a.pc with
    | .growLoop => 3 * (n - a.i) + 2
    | .testSlot => 3 * (n - (a.i + 1)) + 4
    | .create => 3 * (n - (a.i + 1)) + 3
    | .readStat | .readBusy | .setExit => 2
    | _ => 1
  | .destroyer _ => 1

theorem Local.statementsLeft_pos (n : Nat) (b : Local Fn Arg) : 1 ≤ b.statementsLeft n := by
  unfold Local.statementsLeft
  repeat' split
  all_goals omega

theorem Local.statementsLeft_le {n : Nat} {b : Local Fn Arg} : b.statementsLeft n ≤ 3 * n + 6 := by
  unfold Local.statementsLeft
  repeat' split
  all_goals omega

variable {s s' : State Fn Arg} {l : Label Fn Arg} {t : Tid} {b b' : Local Fn Arg}

theorem Turn.statementsLeft {σ' : Threadpool Fn Arg} (h : Turn s t b σ' b') (ht : t ≠ .destroyer)
    (hb : b.holds = true) (hb' : b'.holds = true) :
    b'.statementsLeft s.pool.maxThrNum < b.statementsLeft s.pool.maxThrNum := by
  cases h with
  | worker h =>
    cases h <;> first | cases hb; done | cases hb'; done | simp [Local.statementsLeft]
  | call h =>
    rcases h with hpc | ⟨n, hpc⟩ <;>
      simp [Local.holds, Local.holdsLock, Local.holdsCounter, hpc, ProducerPc.holdsLock] at hb
  | producer h =>
    cases h <;> first | cases hb; done | cases hb'; done | simp [Local.statementsLeft]
  | admin _ h =>
    cases h with
    | goSlot hi =>
      simp only [Local.statementsLeft]
      omega
    | _ => first | cases hb; done | cases hb'; done | simp [Local.statementsLeft]
  | destroy => exact absurd rfl ht

theorem Step.turn_of_mover (h : Step s l s') (hl : l.mover = some t) :
    ∃ b b', Turn s t b s'.pool b' ∧ Moves Local.IsNew s.thread s'.thread t b b' := by
  cases h with
  | worker hw h =>
    cases hl
    exact ⟨_, _, .worker h, moves_worker hw _ _⟩
  | producer hp h =>
    cases hl
    exact ⟨_, _, .producer h, moves_producer hp _ _⟩
  | admin ha h =>
    cases hl
    subst ha
    exact ⟨_, _, .admin rfl h, moves_admin s _ _ h.new_start⟩
  | destroy hd h =>
    cases hl
    subst hd
    exact ⟨_, _, .destroy rfl h, moves_destroyer s _ _⟩
  | call => cases hl
  | wakeWorker => cases hl
  | wakeProducer => cases hl

theorem Step.stays (h : Step s l s') (hl : l.mover ≠ some t) (ht : s.thread t = some b)
    (hb : b.holds = true) : s'.thread t = some b := by
  have hother : ∀ {u c c'}, Moves Local.IsNew s.thread s'.thread u c c' → t ≠ u →
      s'.thread t = some b := by
    intro u c c' hmoves hne
    rcases hmoves.others t hne with hsame | ⟨hnone, -⟩
    · exact hsame.trans ht
    · rw [hnone] at ht
      cases ht
  cases h with
  | worker hw h => exact hother (moves_worker hw _ _) fun heq => hl (heq ▸ rfl)
  | @call p task u hp hpc =>
    by_cases heq : t = .producer p
    · subst heq
      rw [(moves_producer hp s.pool u).before] at ht
      cases ht
      rcases hpc with hpc | ⟨n, hpc⟩ <;>
        simp [Local.holds, Local.holdsLock, Local.holdsCounter, hpc, ProducerPc.holdsLock] at hb
    · exact hother (moves_producer hp s.pool _) heq
  | producer hp h => exact hother (moves_producer hp _ _) fun heq => hl (heq ▸ rfl)
  | admin ha h => exact hother (moves_admin s _ _ h.new_start) fun heq => hl (heq ▸ rfl)
  | destroy hd h => exact hother (moves_destroyer s _ _) fun heq => hl (heq ▸ rfl)
  | wakeWorker => exact ht
  | wakeProducer => exact ht

def State.statementsLeft (t : Tid) (s : State Fn Arg) : Nat :=
  (s.thread t).elim 0 (Local.statementsLeft s.pool.maxThrNum)

/-- While a thread stays inside a section, each of its steps brings it nearer to the end. -/
theorem Step.statementsLeft (h : Step s l s') (ht : t ≠ .destroyer) (hs : Holds t s)
    (hs' : Holds t s') : s'.statementsLeft t + (if decide (l.mover = some t) then 1 else 0) ≤
      s.statementsLeft t := by
  obtain ⟨b, hb, hholds⟩ := hs
  obtain ⟨b', hb', hholds'⟩ := hs'
  simp only [State.statementsLeft, hb, hb', Option.elim_some, h.constants.2.2]
  by_cases hl : l.mover = some t
  · obtain ⟨u, u', hturn, hmoves⟩ := h.turn_of_mover hl
    cases hb.symm.trans hmoves.before
    cases hb'.symm.trans hmoves.after
    rw [if_pos (by simpa using hl)]
    exact hturn.statementsLeft ht hholds hholds'
  · rw [h.stays hl hb hholds] at hb'
    cases hb'
    simp [hl]

variable {c : Setup Fn Arg} {ls : List (Label Fn Arg)}

/-- No mutex is held for good.  Whatever the others do, a thread inside a critical section can go
on, and after `3 * max_thr_num + 5` of its own steps at most it is outside. -/
theorem mutex_released (hmin : c.minThrNum ≤ c.maxThrNum)
    (hrun : Run.exec step (threadpoolCreate c) ls = some s) (halloc : s.pool.allocated = true)
    (hholds : Holds t s) :
    CanStep s t ∧ ∀ ks s', Run.exec step s ks = some s' →
      Run.Always step (fun _ _ m => Holds t m) s ks →
      ks.countP (fun l => decide (l.mover = some t)) ≤ 3 * c.maxThrNum + 5 := by
  have hs := exec_sound hmin hrun
  have hstays := hholds
  obtain ⟨b, hb, hbholds⟩ := hholds
  have hbholds' : b.holdsLock = true ∨ b.holdsCounter = true := by
    simpa [Local.holds] using hbholds
  refine ⟨hs.canStep halloc hb (hs.not_waits halloc hb hbholds'), fun ks s' hks halways => ?_⟩
  have ht : t ≠ .destroyer := by
    rintro rfl
    cases hb
    have hfreed := hs.equipped.freed
    generalize s.destroyer = d at hbholds' hfreed
    obtain ⟨pc, i⟩ := d
    cases pc <;> simp_all [Local.holdsLock, Local.holdsCounter, DestroyerPc.holdsLock,
      DestroyerPc.holdsCounter, DestroyerPc.freed]
  have hcount : ks.countP (fun l => decide (l.mover = some t)) + s'.statementsLeft t ≤
      s.statementsLeft t + 0 * ks.countP fun _ => false := by
    refine Run.countP_add_le (I := Holds t) (fun m l m' hm hl hm' => ⟨hm', ?_⟩)
      hstays halways hks
    exact (step_cases hl).statementsLeft ht hm hm'
  obtain ⟨b', hb', -⟩ : Holds t s' :=
    Run.invariant_of_always (I := Holds t) (fun _ _ _ _ _ hm => hm) hstays halways hks
  have hmax : s.pool.maxThrNum = c.maxThrNum := (exec_constants hrun).2.2
  have hstart : b.statementsLeft s.pool.maxThrNum ≤ 3 * s.pool.maxThrNum + 6 :=
    Local.statementsLeft_le
  have hend := b'.statementsLeft_pos s'.pool.maxThrNum
  simp only [State.statementsLeft, hb, hb', Option.elim_some, Nat.zero_mul] at hcount
  omega

theorem mutex_released_first_test :
    ∃ s, Run.exec step (threadpoolCreate smallPool) (workerSteps 0 1) = some s ∧
      CanStep s (.worker 0) ∧ ∀ ks s', Run.exec step s ks = some s' →
        Run.Always step (fun _ _ m => Holds (.worker 0) m) s ks →
        ks.countP (fun l => decide (l.mover = some (.worker 0))) ≤ 8 := by
  obtain ⟨s, hs, hcond⟩ : ∃ s, Run.exec step (threadpoolCreate smallPool) (workerSteps 0 1) =
      some s ∧ decide (s.workers = [⟨100, .testEmpty, none⟩] ∧ s.pool.allocated = true) = true :=
    (Option.any_eq_true _ _).mp (by decide +kernel)
  obtain ⟨hworkers, halloc⟩ := of_decide_eq_true hcond
  have hholds : Holds (.worker 0) s :=
    ⟨.worker ⟨100, .testEmpty, none⟩, by rw [State.thread, hworkers]; rfl, rfl⟩
  exact ⟨s, hs, mutex_released (Nat.le_refl 1) hs halloc hholds⟩

end Sections

section Rest

variable {s : State Fn Arg}

/-- The thread is a worker inside a task function, which need not return. -/
def InTask (s : State Fn Arg) : Tid → Prop
  | .worker w => ∃ t, s.workers[w]? = some t ∧ t.pc = .run
  | _ => False

/-- Outside the task functions nobody can go on. -/
def Rests (s : State Fn Arg) : Prop := ∀ t, CanStep s t → InTask s t

theorem rests_of_waits
    (hworkers : ∀ w t, s.workers[w]? = some t → s.Waits (.worker w) (.worker t))
    (hproducers : ∀ p t, s.producers[p]? = some t → s.Waits (.producer p) (.producer t))
    (hadmin : s.Waits .admin (.admin s.admin))
    (hdestroyer : s.Waits .destroyer (.destroyer s.destroyer)) : Rests s := by
  refine fun t ht => absurd ht (not_canStep fun b hb => ?_)
  cases t with
  | worker w =>
    obtain ⟨t, hw, rfl⟩ := Option.map_eq_some_iff.mp hb
    exact hworkers w t hw
  | producer p =>
    obtain ⟨t, hp, rfl⟩ := Option.map_eq_some_iff.mp hb
    exact hproducers p t hp
  | admin =>
    cases hb
    exact hadmin
  | destroyer =>
    cases hb
    exact hdestroyer

theorem InTask.holds_nothing {t : Tid} {b : Local Fn Arg} (ht : InTask s t)
    (hb : s.thread t = some b) : b.holds = false := by
  cases t with
  | worker w =>
    obtain ⟨t, hw, hpc⟩ := ht
    obtain ⟨u, hu, rfl⟩ := Option.map_eq_some_iff.mp hb
    cases hw.symm.trans hu
    simp [Local.holds, Local.holdsLock, Local.holdsCounter, hpc, WorkerPc.holdsLock,
      WorkerPc.holdsCounter]
  | _ => exact ht.elim

theorem Sound.holds_nothing (hs : Sound s) (halloc : s.pool.allocated = true) (hrest : Rests s)
    {t : Tid} {b : Local Fn Arg} (hb : s.thread t = some b) : b.holds = false := by
  by_contra hholds
  have hinside : b.holdsLock = true ∨ b.holdsCounter = true := by
    simpa [Local.holds, Classical.or_iff_not_imp_left] using hholds
  have hgo := hs.canStep halloc hb (hs.not_waits halloc hb hinside)
  exact hholds ((hrest t hgo).holds_nothing hb)

/-- Where the program rests both mutexes are free: their owners would go on. -/
theorem Sound.mutexes_free (hs : Sound s) (halloc : s.pool.allocated = true) (hrest : Rests s) :
    s.pool.lock = none ∧ s.pool.threadCounter = none := by
  constructor
  · refine Option.eq_none_iff_forall_ne_some.mpr fun t ht => ?_
    obtain ⟨b, hb, hholds⟩ := hs.lock t ht
    have hout := hs.holds_nothing halloc hrest hb
    simp [Local.holds, hholds] at hout
  · refine Option.eq_none_iff_forall_ne_some.mpr fun t ht => ?_
    obtain ⟨b, hb, hholds⟩ := hs.counter t ht
    have hout := hs.holds_nothing halloc hrest hb
    simp [Local.holds, hholds] at hout

theorem Sound.all_wait (hs : Sound s) (halloc : s.pool.allocated = true) (hrest : Rests s)
    {t : Tid} {b : Local Fn Arg} (ht : s.thread t = some b) (htask : ¬ InTask s t) :
    s.Waits t b := by
  by_contra hgo
  exact htask (hrest t (hs.canStep halloc ht hgo))

variable {c : Setup Fn Arg} {ls : List (Label Fn Arg)}

def Asleep (s : State Fn Arg) (w : Nat) (t : Worker Fn Arg) : Prop :=
  t.pc = .waiting ∧ w ∈ s.pool.queueNotEmpty

theorem Sound.workers_rest (hs : Sound s) (halloc : s.pool.allocated = true) (hrest : Rests s)
    {w : Nat} {t : Worker Fn Arg} (hw : s.workers[w]? = some t) :
    (∃ why, t.pc = .exited why) ∨ Asleep s w t ∨ t.pc = .run := by
  obtain ⟨hlock, hcounter⟩ := hs.mutexes_free halloc hrest
  by_cases htask : t.pc = .run
  · exact .inr (.inr htask)
  have hwait : s.Waits (.worker w) (.worker t) := by
    refine hs.all_wait halloc hrest (by simp [State.thread, hw]) ?_
    rintro ⟨u, hu, hpc⟩
    cases hw.symm.trans hu
    exact htask hpc
  obtain ⟨tid, pc, task⟩ := t
  cases pc with
  | waiting => exact .inr (.inl ⟨rfl, hwait.resolve_right fun hheld => hheld hlock⟩)
  | exited why => exact .inl ⟨why, rfl⟩
  | lock => exact absurd hlock hwait
  | lockBusy | lockIdle => exact absurd hcounter hwait
  | _ => exact hwait.elim

theorem Sound.admin_rests (hs : Sound s) (halloc : s.pool.allocated = true) (hrest : Rests s) :
    s.admin.pc = .returned := by
  obtain ⟨hlock, hcounter⟩ := hs.mutexes_free halloc hrest
  have hwait := hs.all_wait halloc hrest (t := .admin) rfl id
  generalize s.admin = a at hwait
  obtain ⟨pc, i, n, queueSize, live, busy⟩ := a
  cases pc with
  | returned => rfl
  | lockStat | lockGrow | lockShrink => exact absurd hlock hwait
  | lockBusy => exact absurd hcounter hwait
  | _ => exact hwait.elim

theorem Sound.producers_rest (hs : Sound s) (halloc : s.pool.allocated = true) (hrest : Rests s)
    {p : Nat} {t : Producer Fn Arg} (hp : s.producers[p]? = some t) :
    (t.pc = .idle ∨ ∃ n, t.pc = .returned n) ∨ t.pc = .waiting ∧ p ∈ s.pool.queueNotFull := by
  obtain ⟨hlock, -⟩ := hs.mutexes_free halloc hrest
  have hwait : s.Waits (.producer p) (.producer t) :=
    hs.all_wait halloc hrest (by simp [State.thread, hp]) id
  obtain ⟨pc, task⟩ := t
  cases pc with
  | idle => exact .inl (.inl rfl)
  | returned n => exact .inl (.inr ⟨n, rfl⟩)
  | waiting => exact .inr ⟨rfl, hwait.resolve_right fun hheld => hheld hlock⟩
  | lock => exact absurd hlock hwait
  | _ => exact hwait.elim

theorem Sound.destroyer_rests (hs : Sound s) (halloc : s.pool.allocated = true)
    (hrest : Rests s) : s.destroyer.pc = .join ∧ ∃ w t, s.workers[w]? = some t ∧
      s.pool.threads[s.destroyer.i]? = some t.tid ∧ (Asleep s w t ∨ t.pc = .run) := by
  obtain ⟨hlock, hcounter⟩ := hs.mutexes_free halloc hrest
  have hadmin := hs.admin_rests halloc hrest
  have hfreed := hs.equipped.freed
  rw [halloc] at hfreed
  have hwait := hs.all_wait halloc hrest (t := .destroyer) rfl id
  have hjoin : s.destroyer.pc = .join ∧
      ∃ tid, s.pool.threads[s.destroyer.i]? = some tid ∧ IsAlive s.workers tid := by
    generalize s.destroyer = d at hwait hfreed
    obtain ⟨pc, i⟩ := d
    cases pc with
    | join => exact ⟨rfl, hwait⟩
    | joinAdmin => exact absurd hadmin hwait
    | lockLock => exact absurd hlock hwait
    | lockCounter => exact absurd hcounter hwait
    | freePool => cases hfreed rfl
    | returned => cases hfreed rfl
    | _ => exact hwait.elim
  obtain ⟨hpc, tid, hslot, t, ht, hrunning, rfl⟩ := hjoin
  obtain ⟨w, hw⟩ := List.getElem?_of_mem ht
  refine ⟨hpc, w, t, hw, hslot, (hs.workers_rest halloc hrest hw).resolve_left ?_⟩
  rintro ⟨why, hexited⟩
  simp [Worker.running, hexited] at hrunning

/-- The program has one way to come to rest before it frees the pool: `threadpool_destroy` joins a
worker that sleeps on `queue_not_empty` or is in its task, and everyone else has ended, sleeps too or
is in a task. -/
theorem rests_only_in_join (hmin : c.minThrNum ≤ c.maxThrNum)
    (hrun : Run.exec step (threadpoolCreate c) ls = some s) (halloc : s.pool.allocated = true)
    (hrest : Rests s) :
    (s.destroyer.pc = .join ∧ ∃ w t, s.workers[w]? = some t ∧
      s.pool.threads[s.destroyer.i]? = some t.tid ∧ (Asleep s w t ∨ t.pc = .run)) ∧
    s.admin.pc = .returned ∧
    (∀ w t, s.workers[w]? = some t →
      (∃ why, t.pc = .exited why) ∨ Asleep s w t ∨ t.pc = .run) ∧
    ∀ p t, s.producers[p]? = some t →
      (t.pc = .idle ∨ ∃ n, t.pc = .returned n) ∨ t.pc = .waiting ∧ p ∈ s.pool.queueNotFull := by
  have hs := exec_sound hmin hrun
  exact ⟨hs.destroyer_rests halloc hrest, hs.admin_rests halloc hrest,
    fun _ _ => hs.workers_rest halloc hrest, fun _ _ => hs.producers_rest halloc hrest⟩

theorem rests_in_join :
    ∃ s, Run.exec step (threadpoolCreate smallPool) (sleepingRun ++ destroySteps 1) = some s ∧
      Rests s ∧ ∃ w t, s.workers[w]? = some t ∧
        s.pool.threads[s.destroyer.i]? = some t.tid ∧ (Asleep s w t ∨ t.pc = .run) := by
  obtain ⟨s, hs, hcond⟩ : ∃ s, Run.exec step (threadpoolCreate smallPool)
      (sleepingRun ++ destroySteps 1) = some s ∧ decide (s.workers = [⟨100, .waiting, none⟩] ∧
        s.producers = [⟨.idle, none⟩, ⟨.idle, none⟩] ∧ s.admin.pc = .returned ∧
        s.destroyer = ⟨.join, 0⟩ ∧ s.pool.threads = [100] ∧ s.pool.queueNotEmpty = [0] ∧
        s.pool.allocated = true) = true :=
    (Option.any_eq_true _ _).mp (by decide +kernel)
  obtain ⟨hworkers, hproducers, hadmin, hdestroyer, hthreads, hempty, halloc⟩ :=
    of_decide_eq_true hcond
  have hrest : Rests s := by
    refine rests_of_waits (fun w t hw => ?_) (fun p t hp => ?_) ?_ ?_
    · rw [hworkers, List.getElem?_singleton] at hw
      split at hw <;> cases hw
      next hw =>
        subst hw
        exact .inl (by rw [hempty]; exact List.mem_cons_self)
    · have ht : t = ⟨.idle, none⟩ := by simpa [hproducers] using List.mem_of_getElem? hp
      rw [ht]
      trivial
    · simp [State.Waits, hadmin]
    · rw [hdestroyer]
      exact ⟨100, by rw [hthreads]; rfl, ⟨100, .waiting, none⟩, by simp [hworkers], rfl, rfl⟩
  exact ⟨s, hs, hrest, (rests_only_in_join (Nat.le_refl 1) hs halloc hrest).1.2⟩

end Rest

end LearnCLinux.ThreadPool
