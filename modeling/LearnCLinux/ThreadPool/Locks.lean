import Mathlib.Tactic.ByContra
import LearnCLinux.Library.Fifo
import LearnCLinux.ThreadPool.Steps

/-! Mutual exclusion.  `pool->lock` and `thread_counter` are held exactly inside the sections
the source brackets with them, so what a mutex guards changes in the turns of its owner only. -/

universe u v

namespace LearnCLinux.ThreadPool

open Threads

variable {Fn : Type u} {Arg : Type v}

inductive Local (Fn : Type u) (Arg : Type v) : Type (max u v)
  | worker : Worker Fn Arg → Local Fn Arg
  | producer : Producer Fn Arg → Local Fn Arg
  | admin : Admin → Local Fn Arg
  | destroyer : Destroyer → Local Fn Arg

def State.thread (s : State Fn Arg) : Tid → Option (Local Fn Arg)
  | .worker w => s.workers[w]?.map .worker
  | .producer p => s.producers[p]?.map .producer
  | .admin => some (.admin s.admin)
  | .destroyer => some (.destroyer s.destroyer)

def WorkerPc.holdsLock : WorkerPc → Bool
  | .testEmpty | .wait | .testExit | .testShutdown | .unlockExit _ | .take
  | .broadcastNotFull | .unlock => true
  | _ => false

def WorkerPc.holdsCounter : WorkerPc → Bool
  | .incBusy | .unlockBusy | .decBusy | .unlockIdle => true
  | _ => false

def ProducerPc.holdsLock : ProducerPc → Bool
  | .testFull | .wait | .testShutdown | .unlockShutdown | .clearArg | .put
  | .signalNotEmpty | .unlock => true
  | _ => false

def AdminPc.holdsLock : AdminPc → Bool
  | .readStat | .unlockStat | .growLoop | .testSlot | .create | .unlockGrow | .setExit
  | .unlockShrink => true
  | _ => false

def AdminPc.holdsCounter : AdminPc → Bool
  | .readBusy | .unlockBusy => true
  | _ => false

/-- `threadpool_free` never gives the mutexes back. -/
def DestroyerPc.holdsLock : DestroyerPc → Bool
  | .lockCounter | .freePool | .returned => true
  | _ => false

def DestroyerPc.holdsCounter : DestroyerPc → Bool
  | .freePool | .returned => true
  | _ => false

def Local.holdsLock : Local Fn Arg → Bool
  | .worker t => t.pc.holdsLock
  | .producer t => t.pc.holdsLock
  | .admin a => a.pc.holdsLock
  | .destroyer d => d.pc.holdsLock

def Local.holdsCounter : Local Fn Arg → Bool
  | .worker t => t.pc.holdsCounter
  | .producer _ => false
  | .admin a => a.pc.holdsCounter
  | .destroyer d => d.pc.holdsCounter

def Local.IsNew (b : Local Fn Arg) : Prop := ∃ tid, b = .worker (Worker.start tid)

/-- A step as the thread that takes it sees it. -/
inductive Turn (s : State Fn Arg) : Tid → Local Fn Arg → Threadpool Fn Arg → Local Fn Arg → Prop
  | worker {w e t σ' t'} : WorkerStep w s.pool e t σ' t' →
      Turn s (.worker w) (.worker t) σ' (.worker t')
  | call {p task t} : (t.pc = .idle ∨ ∃ n, t.pc = .returned n) →
      Turn s (.producer p) (.producer t) s.pool (.producer ⟨.lock, some task⟩)
  | producer {p wake t σ' t'} : ProducerStep p wake s.pool t σ' t' →
      Turn s (.producer p) (.producer t) σ' (.producer t')
  | admin {c a σ' a' new} : s.admin = a → AdminStep c s.workers s.pool a σ' a' new →
      Turn s .admin (.admin a) σ' (.admin a')
  | destroy {d σ' d'} : s.destroyer = d → DestroyerStep s.workers s.admin s.pool d σ' d' →
      Turn s .destroyer (.destroyer d) σ' (.destroyer d')

structure Wakes (s s' : State Fn Arg) : Prop where
  pool : s'.pool = { s.pool with
    queueNotFull := s'.pool.queueNotFull, queueNotEmpty := s'.pool.queueNotEmpty }
  thread : s'.thread = s.thread
  notFull : s'.pool.queueNotFull ⊆ s.pool.queueNotFull
  notEmpty : s'.pool.queueNotEmpty ⊆ s.pool.queueNotEmpty

theorem AdminStep.new_start {c : AdminChoice} {ws new : List (Worker Fn Arg)}
    {σ σ' : Threadpool Fn Arg} {a a' : Admin} (h : AdminStep c ws σ a σ' a' new) :
    ∀ t ∈ new, ∃ tid, t = Worker.start tid := by
  cases h <;> simp

theorem moves_worker {s : State Fn Arg} {w : Nat} {t : Worker Fn Arg}
    (hw : s.workers[w]? = some t) (σ' : Threadpool Fn Arg) (t' : Worker Fn Arg) :
    Moves Local.IsNew s.thread (State.thread { s with pool := σ', workers := s.workers.set w t' })
      (.worker w) (.worker t) (.worker t') where
  before := by simp [State.thread, hw]
  after := by
    obtain ⟨hlt, -⟩ := List.getElem?_eq_some_iff.mp hw
    simp [State.thread, hlt]
  others := by
    intro u hu
    left
    cases u with
    | worker v =>
      have hne : w ≠ v := fun h => hu (h ▸ rfl)
      simp [State.thread, List.getElem?_set_ne hne]
    | producer => rfl
    | admin => rfl
    | destroyer => rfl

theorem moves_producer {s : State Fn Arg} {p : Nat} {t : Producer Fn Arg}
    (hp : s.producers[p]? = some t) (σ' : Threadpool Fn Arg) (t' : Producer Fn Arg) :
    Moves Local.IsNew s.thread
      (State.thread { s with pool := σ', producers := s.producers.set p t' })
      (.producer p) (.producer t) (.producer t') where
  before := by simp [State.thread, hp]
  after := by
    obtain ⟨hlt, -⟩ := List.getElem?_eq_some_iff.mp hp
    simp [State.thread, hlt]
  others := by
    intro u hu
    left
    cases u with
    | worker => rfl
    | producer q =>
      have hne : p ≠ q := fun h => hu (h ▸ rfl)
      simp [State.thread, List.getElem?_set_ne hne]
    | admin => rfl
    | destroyer => rfl

theorem moves_admin (s : State Fn Arg) (σ' : Threadpool Fn Arg) (a' : Admin)
    {new : List (Worker Fn Arg)} (hnew : ∀ t ∈ new, ∃ tid, t = Worker.start tid) :
    Moves Local.IsNew s.thread
      (State.thread { s with pool := σ', admin := a', workers := s.workers ++ new })
      .admin (.admin s.admin) (.admin a') where
  before := rfl
  after := rfl
  others := by
    intro u hu
    cases u with
    | worker v =>
      by_cases hlt : v < s.workers.length
      · left
        simp [State.thread, List.getElem?_append_left hlt]
      · have hge : s.workers.length ≤ v := Nat.le_of_not_lt hlt
        cases hget : new[v - s.workers.length]? with
        | none =>
          left
          simp [State.thread, List.getElem?_append_right hge, hget, hge]
        | some t =>
          right
          obtain ⟨tid, rfl⟩ := hnew t (List.mem_of_getElem? hget)
          exact ⟨by simp [State.thread, hge], .worker (Worker.start tid),
            by simp [State.thread, List.getElem?_append_right hge, hget], tid, rfl⟩
    | producer => exact .inl rfl
    | admin => exact absurd rfl hu
    | destroyer => exact .inl rfl

theorem moves_destroyer (s : State Fn Arg) (σ' : Threadpool Fn Arg) (d' : Destroyer) :
    Moves Local.IsNew s.thread (State.thread { s with pool := σ', destroyer := d' })
      .destroyer (.destroyer s.destroyer) (.destroyer d') where
  before := rfl
  after := rfl
  others := by
    intro u hu
    left
    cases u with
    | worker => rfl
    | producer => rfl
    | admin => rfl
    | destroyer => exact absurd rfl hu

/-- Every step is a spurious wakeup or the turn of one thread. -/
theorem Step.turn {s s' : State Fn Arg} {l : Label Fn Arg} (h : Step s l s') :
    Wakes s s' ∨
      ∃ t b b', Turn s t b s'.pool b' ∧ Moves Local.IsNew s.thread s'.thread t b b' := by
  cases h with
  | worker hw h => exact .inr ⟨_, _, _, .worker h, moves_worker hw _ _⟩
  | call hp h => exact .inr ⟨_, _, _, .call h, moves_producer hp _ _⟩
  | producer hp h => exact .inr ⟨_, _, _, .producer h, moves_producer hp _ _⟩
  | admin ha h =>
    subst ha
    exact .inr ⟨_, _, _, .admin rfl h, moves_admin s _ _ h.new_start⟩
  | destroy hd h =>
    subst hd
    exact .inr ⟨_, _, _, .destroy rfl h, moves_destroyer s _ _⟩
  | wakeWorker => exact .inl ⟨rfl, rfl, List.Subset.refl _, List.filter_sublist.subset⟩
  | wakeProducer => exact .inl ⟨rfl, rfl, List.filter_sublist.subset, List.Subset.refl _⟩

theorem Turn.lockOp {s : State Fn Arg} {t : Tid} {b b' : Local Fn Arg} {σ' : Threadpool Fn Arg}
    (h : Turn s t b σ' b') : MutexOp t b.holdsLock b'.holdsLock s.pool.lock σ'.lock := by
  cases h with
  | worker h => cases h <;> simp_all [MutexOp, Local.holdsLock, WorkerPc.holdsLock]
  | call h => rcases h with h | ⟨n, h⟩ <;> simp [MutexOp, Local.holdsLock, ProducerPc.holdsLock, h]
  | producer h => cases h <;> simp_all [MutexOp, Local.holdsLock, ProducerPc.holdsLock]
  | admin _ h => cases h <;> simp_all [MutexOp, Local.holdsLock, AdminPc.holdsLock]
  | destroy _ h => cases h <;> simp_all [MutexOp, Local.holdsLock, DestroyerPc.holdsLock]

theorem Turn.counterOp {s : State Fn Arg} {t : Tid} {b b' : Local Fn Arg}
    {σ' : Threadpool Fn Arg} (h : Turn s t b σ' b') :
    MutexOp t b.holdsCounter b'.holdsCounter s.pool.threadCounter σ'.threadCounter := by
  cases h with
  | worker h => cases h <;> simp_all [MutexOp, Local.holdsCounter, WorkerPc.holdsCounter]
  | call h => simp [MutexOp, Local.holdsCounter]
  | producer h => cases h <;> simp [MutexOp, Local.holdsCounter]
  | admin _ h => cases h <;> simp_all [MutexOp, Local.holdsCounter, AdminPc.holdsCounter]
  | destroy _ h => cases h <;> simp_all [MutexOp, Local.holdsCounter, DestroyerPc.holdsCounter]

structure Locks (s : State Fn Arg) : Prop where
  lock : Exclusive Local.holdsLock s.pool.lock s.thread
  counter : Exclusive Local.holdsCounter s.pool.threadCounter s.thread

theorem Local.IsNew.holdsLock {b : Local Fn Arg} (h : b.IsNew) : b.holdsLock = false := by
  obtain ⟨tid, rfl⟩ := h
  rfl

theorem Local.IsNew.holdsCounter {b : Local Fn Arg} (h : b.IsNew) : b.holdsCounter = false := by
  obtain ⟨tid, rfl⟩ := h
  rfl

theorem Locks.step {s s' : State Fn Arg} {l : Label Fn Arg} (hl : Locks s) (h : Step s l s') :
    Locks s' := by
  rcases h.turn with hw | ⟨t, b, b', hturn, hmoves⟩
  · constructor
    · rw [hw.thread, hw.pool]
      exact hl.lock
    · rw [hw.thread, hw.pool]
      exact hl.counter
  · exact ⟨hl.lock.step hmoves hturn.lockOp fun _ => Local.IsNew.holdsLock,
      hl.counter.step hmoves hturn.counterOp fun _ => Local.IsNew.holdsCounter⟩

def Threadpool.ring (σ : Threadpool Fn Arg) : Ring (ThreadpoolTask Fn Arg) :=
  ⟨σ.taskQueue, σ.queueFront, σ.queueRear, σ.queueSize, σ.queueMaxSize⟩

structure Guarded (Fn : Type u) (Arg : Type v) where
  ring : Ring (ThreadpoolTask Fn Arg)
  threads : List PthreadT
  minThrNum : Nat
  maxThrNum : Nat
  liveThrNum : Int
  waitExitThrNum : Int

def Threadpool.guarded (σ : Threadpool Fn Arg) : Guarded Fn Arg :=
  ⟨σ.ring, σ.threads, σ.minThrNum, σ.maxThrNum, σ.liveThrNum, σ.waitExitThrNum⟩

section Frame

variable {s s' : State Fn Arg} {l : Label Fn Arg} {t : Tid} {b b' : Local Fn Arg}
  {σ' : Threadpool Fn Arg}

theorem Turn.frame (h : Turn s t b σ' b') (hb : b.holdsLock = false) :
    σ'.guarded = s.pool.guarded := by
  cases h with
  | worker h =>
    cases h <;>
      simp_all [Local.holdsLock, WorkerPc.holdsLock, Threadpool.guarded, Threadpool.ring]
  | call => rfl
  | producer h =>
    cases h <;>
      simp_all [Local.holdsLock, ProducerPc.holdsLock, Threadpool.guarded, Threadpool.ring]
  | admin _ h =>
    cases h <;>
      simp_all [Local.holdsLock, AdminPc.holdsLock, Threadpool.guarded, Threadpool.ring]
  | destroy _ h => cases h <;> rfl

theorem Turn.shutdown (h : Turn s t b σ' b') (hsh : s.pool.shutdown = true) :
    σ'.shutdown = true := by
  cases h with
  | worker h => cases h <;> exact hsh
  | call => exact hsh
  | producer h => cases h <;> exact hsh
  | admin _ h => cases h <;> exact hsh
  | destroy _ h => cases h <;> first | exact hsh | rfl

/-- Assertions about guarded data, made inside the sections `pool->lock` brackets, survive
every step as soon as they survive the turns of the thread that makes them. -/
theorem Locks.assertions {A : Guarded Fn Arg → Bool → Local Fn Arg → Prop}
    (hfree : ∀ g sh b, b.holdsLock = false → A g sh b)
    (hmono : ∀ g b, A g false b → A g true b)
    (hturn : ∀ t b b', Turn s t b s'.pool b' →
      A s.pool.guarded s.pool.shutdown b → A s'.pool.guarded s'.pool.shutdown b')
    (hl : Locks s) (h : ∀ t b, s.thread t = some b → A s.pool.guarded s.pool.shutdown b)
    (hs : Step s l s') : ∀ t b, s'.thread t = some b → A s'.pool.guarded s'.pool.shutdown b := by
  rcases hs.turn with hw | ⟨t, b, b', ht, hmoves⟩
  · rw [hw.thread, hw.pool]
    exact h
  · refine hmoves.assertions h (hturn t b b' ht (h t b hmoves.before)) ?_ ?_
    · intro u c hut hu hA
      cases hc : c.holdsLock with
      | false => exact hfree _ _ _ hc
      | true =>
        have hb : b.holdsLock = false := by
          by_contra hb
          exact hut (hl.lock.unique hmoves.before (by simpa using hb) hu hc)
        rw [ht.frame hb]
        cases hsh : s.pool.shutdown with
        | true =>
          rw [ht.shutdown hsh]
          rwa [hsh] at hA
        | false =>
          rw [hsh] at hA
          cases s'.pool.shutdown with
          | true => exact hmono _ _ hA
          | false => exact hA
    · exact fun u c hnew => hfree _ _ _ hnew.holdsLock

end Frame

/-- The thread sleeps on a condition variable and no wakeup is pending for it. -/
def Threadpool.Blocked (σ : Threadpool Fn Arg) : Tid → Prop
  | .worker w => w ∈ σ.queueNotEmpty
  | .producer p => p ∈ σ.queueNotFull
  | .admin => False
  | .destroyer => False

def Local.waiting : Local Fn Arg → Bool
  | .worker t => t.pc = .waiting
  | .producer t => t.pc = .waiting
  | .admin _ => false
  | .destroyer _ => false

theorem condSignal_subset {waiters waiters' : List Nat} {wake : Option Nat}
    (h : condSignal waiters wake = some waiters') : waiters' ⊆ waiters := by
  cases wake with
  | none =>
    simp only [condSignal] at h
    split at h <;> cases h
    exact List.nil_subset _
  | some t =>
    simp only [condSignal] at h
    split at h <;> cases h
    exact List.filter_sublist.subset

/-- Only the thread whose turn it is joins the waiters, and it is inside `pthread_cond_wait`
afterwards. -/
theorem Turn.blocked {s : State Fn Arg} {t u : Tid} {b b' : Local Fn Arg}
    {σ' : Threadpool Fn Arg} (h : Turn s t b σ' b') (ht : s.pool.Blocked t → b.waiting = true)
    (hu : σ'.Blocked u) : u ≠ t ∧ s.pool.Blocked u ∨ u = t ∧ b'.waiting = true := by
  cases h with
  | worker h =>
    cases h <;> cases u <;> grind [Threadpool.Blocked, Local.waiting]
  | call h => cases u <;> grind [Threadpool.Blocked, Local.waiting]
  | producer h =>
    cases h with
    | signalNotEmpty hwake =>
      have hsub := condSignal_subset hwake
      cases u <;> grind [Threadpool.Blocked, Local.waiting]
    | _ => cases u <;> grind [Threadpool.Blocked, Local.waiting]
  | admin _ h =>
    cases h with
    | signal hi hwake =>
      have hsub := condSignal_subset hwake
      cases u <;> grind [Threadpool.Blocked]
    | _ => cases u <;> grind [Threadpool.Blocked]
  | destroy _ h => cases h <;> cases u <;> grind [Threadpool.Blocked]

def Waiters (s : State Fn Arg) : Prop :=
  ∀ t, s.pool.Blocked t → ∃ b, s.thread t = some b ∧ b.waiting = true

theorem Waiters.step {s s' : State Fn Arg} {l : Label Fn Arg} (hw : Waiters s)
    (h : Step s l s') : Waiters s' := by
  intro u hu
  rcases h.turn with hwake | ⟨t, b, b', hturn, hmoves⟩
  · rw [hwake.thread]
    apply hw
    cases u with
    | worker w => exact hwake.notEmpty hu
    | producer p => exact hwake.notFull hu
    | admin => exact hu
    | destroyer => exact hu
  · have hb : s.pool.Blocked t → b.waiting = true := by
      intro ht
      obtain ⟨c, hc, hwait⟩ := hw t ht
      rw [hmoves.before] at hc
      cases hc
      exact hwait
    rcases hturn.blocked hb hu with ⟨hut, hold⟩ | ⟨rfl, hwait⟩
    · obtain ⟨c, hc, hwait⟩ := hw u hold
      rcases hmoves.others u hut with hsame | ⟨hnone, -⟩
      · exact ⟨c, hsame.trans hc, hwait⟩
      · rw [hnone] at hc
        cases hc
    · exact ⟨b', hmoves.after, hwait⟩

theorem Step.constants {s s' : State Fn Arg} {l : Label Fn Arg} (h : Step s l s') :
    s'.pool.queueMaxSize = s.pool.queueMaxSize ∧ s'.pool.minThrNum = s.pool.minThrNum ∧
      s'.pool.maxThrNum = s.pool.maxThrNum := by
  cases h with
  | worker _ h => cases h <;> exact ⟨rfl, rfl, rfl⟩
  | call => exact ⟨rfl, rfl, rfl⟩
  | producer _ h => cases h <;> exact ⟨rfl, rfl, rfl⟩
  | admin _ h => cases h <;> exact ⟨rfl, rfl, rfl⟩
  | destroy _ h => cases h <;> exact ⟨rfl, rfl, rfl⟩
  | wakeWorker => exact ⟨rfl, rfl, rfl⟩
  | wakeProducer => exact ⟨rfl, rfl, rfl⟩

section Create

variable (c : Setup Fn Arg)

theorem create_thread {t : Tid} {b : Local Fn Arg} (h : (threadpoolCreate c).thread t = some b) :
    b.IsNew ∨ b = .producer ⟨.idle, none⟩ ∨ b = .admin ⟨.loop, 0, 0, 0, 0, 0⟩ ∨
      b = .destroyer ⟨.idle, 0⟩ := by
  cases t with
  | worker w =>
    obtain ⟨t, ht, rfl⟩ := Option.map_eq_some_iff.mp h
    obtain ⟨tid, -, rfl⟩ := List.mem_map.mp (List.mem_of_getElem? ht)
    exact .inl ⟨tid, rfl⟩
  | producer p =>
    obtain ⟨t, ht, rfl⟩ := Option.map_eq_some_iff.mp h
    rw [List.eq_of_mem_replicate (List.mem_of_getElem? ht)]
    exact .inr (.inl rfl)
  | admin => cases h; exact .inr (.inr (.inl rfl))
  | destroyer => cases h; exact .inr (.inr (.inr rfl))

theorem create_locks : Locks (threadpoolCreate c) where
  lock := by
    intro t b ht hb
    rcases create_thread c ht with h | rfl | rfl | rfl
    · rw [h.holdsLock] at hb
      cases hb
    all_goals cases hb
  counter := by
    intro t b ht hb
    rcases create_thread c ht with h | rfl | rfl | rfl
    · rw [h.holdsCounter] at hb
      cases hb
    all_goals cases hb

theorem create_waiters : Waiters (threadpoolCreate c) := by
  intro t ht
  cases t <;> simp [Threadpool.Blocked, threadpoolCreate] at ht

theorem exec_locks {c : Setup Fn Arg} {ls : List (Label Fn Arg)} {s : State Fn Arg}
    (hrun : Run.exec step (threadpoolCreate c) ls = some s) : Locks s :=
  Run.invariant (fun _ _ _ hm hs => hm.step (step_cases hs)) (create_locks c) hrun

end Create

theorem exec_constants {s s' : State Fn Arg} {ls : List (Label Fn Arg)}
    (h : Run.exec step s ls = some s') :
    s'.pool.queueMaxSize = s.pool.queueMaxSize ∧ s'.pool.minThrNum = s.pool.minThrNum ∧
      s'.pool.maxThrNum = s.pool.maxThrNum :=
  Run.invariant (I := fun m => m.pool.queueMaxSize = s.pool.queueMaxSize ∧
      m.pool.minThrNum = s.pool.minThrNum ∧ m.pool.maxThrNum = s.pool.maxThrNum)
    (fun m l m' hm hs => by
      obtain ⟨hq, hmin, hmax⟩ := (step_cases hs).constants
      rw [hq, hmin, hmax]
      exact hm)
    ⟨rfl, rfl, rfl⟩ h

end LearnCLinux.ThreadPool
