import LearnCLinux.ThreadPool.Table
import LearnCLinux.ThreadPool.Wakeups

/-! `threadpool_destroy`.  What its join loop covers, which producers it releases and which
workers its broadcasts reach. -/

universe u v

namespace LearnCLinux.ThreadPool

open Threads

variable {Fn : Type u} {Arg : Type v}

def DestroyerPc.joinedAdmin : DestroyerPc → Bool
  | .idle | .joinAdmin => false
  | _ => true

def DestroyerPc.afterBroadcasts : DestroyerPc → Bool
  | .idle | .joinAdmin | .testBroadcast | .broadcast => false
  | _ => true

def DestroyerPc.afterJoins : DestroyerPc → Bool
  | .free | .lockLock | .lockCounter | .freePool | .returned => true
  | _ => false

/-- `threadpool_destroy` has set the flag before it does anything else. -/
def FlagFirst (s : State Fn Arg) : Prop := s.destroyer.pc ≠ .idle → s.pool.shutdown = true

theorem FlagFirst.step {s s' : State Fn Arg} {l : Label Fn Arg} (hf : FlagFirst s)
    (h : Step s l s') : FlagFirst s' := by
  intro hpc
  by_cases hidle : s.destroyer.pc = .idle
  · cases h with
    | destroy hd h =>
      rw [hd] at hidle
      cases h with
      | setShutdown => rfl
      | _ => cases hidle
    | _ => exact absurd hidle hpc
  · exact h.shutdown (hf hidle)

theorem create_flagFirst (c : Setup Fn Arg) : FlagFirst (threadpoolCreate c) :=
  fun h => absurd rfl h

section Joins

/-- What the joins of `threadpool_destroy` have achieved so far. -/
structure Joins (s : State Fn Arg) : Prop where
  admin : s.destroyer.pc.joinedAdmin = true → s.admin.pc = .returned
  joined : s.destroyer.pc.afterBroadcasts = true → ∀ j < s.destroyer.i, ∀ tid,
    s.pool.threads[j]? = some tid → ¬ IsAlive s.workers tid
  done : s.destroyer.pc.afterJoins = true → s.pool.liveThrNum ≤ s.destroyer.i

theorem WorkerStep.live_le {w : Nat} {e : Bool} {σ σ' : Threadpool Fn Arg}
    {t t' : Worker Fn Arg} (h : WorkerStep w σ e t σ' t') : σ'.liveThrNum ≤ σ.liveThrNum := by
  cases h with
  | selfExit => exact Int.sub_le_self _ (by decide)
  | _ => exact Int.le_refl _

theorem AdminStep.not_returned {c : AdminChoice} {ws new : List (Worker Fn Arg)}
    {σ σ' : Threadpool Fn Arg} {a a' : Admin} (h : AdminStep c ws σ a σ' a' new) :
    a.pc ≠ .returned := by
  cases h <;> exact nofun

theorem Joins.step {s s' : State Fn Arg} {l : Label Fn Arg} (hj : Joins s) (h : Step s l s') :
    Joins s' := by
  cases h with
  | worker hw h =>
    refine ⟨hj.admin, fun hpc j hlt tid htid halive => ?_, fun hpc => ?_⟩
    · rw [h.identity.1] at htid
      exact hj.joined hpc j hlt tid htid (h.isAlive hw halive)
    · exact Int.le_trans h.live_le (hj.done hpc)
  | call => exact ⟨hj.admin, hj.joined, hj.done⟩
  | producer hp h =>
    refine ⟨hj.admin, ?_, ?_⟩
    · simpa only [h.threads] using hj.joined
    · simpa only [h.counters.1] using hj.done
  | @admin c a σ' a' new ha h =>
    have hnot : ∀ {pc : DestroyerPc}, (s.destroyer.pc = pc) → pc.joinedAdmin = true → False :=
      fun hd hpc => h.not_returned (ha ▸ hj.admin (hd ▸ hpc))
    refine ⟨fun hpc => (hnot rfl hpc).elim, fun hpc => ?_, fun hpc => ?_⟩
    · refine (hnot rfl ?_).elim
      revert hpc
      cases s.destroyer.pc <;> simp [DestroyerPc.afterBroadcasts, DestroyerPc.joinedAdmin]
    · refine (hnot rfl ?_).elim
      revert hpc
      cases s.destroyer.pc <;> simp [DestroyerPc.afterJoins, DestroyerPc.joinedAdmin]
  | @destroy d σ' d' hd h =>
    obtain ⟨hadmin, hjoined, hdone⟩ := hj
    rw [hd] at hadmin hjoined hdone
    cases h with
    | setShutdown => exact ⟨nofun, nofun, nofun⟩
    | joinAdmin hret => exact ⟨fun _ => hret, nofun, nofun⟩
    | goBroadcast => exact ⟨fun _ => hadmin rfl, nofun, nofun⟩
    | leaveBroadcast => exact ⟨fun _ => hadmin rfl, nofun, nofun⟩
    | broadcast => exact ⟨fun _ => hadmin rfl, nofun, nofun⟩
    | goJoin => exact ⟨fun _ => hadmin rfl, fun _ => hjoined rfl, nofun⟩
    | leaveJoin hle => exact ⟨fun _ => hadmin rfl, fun _ => hjoined rfl, fun _ => hle⟩
    | @join i tid htid hdead =>
      refine ⟨fun _ => hadmin rfl, fun _ j hlt u hu => ?_, nofun⟩
      rcases Nat.lt_succ_iff_lt_or_eq.mp hlt with hlt | rfl
      · exact hjoined rfl j hlt u hu
      · rintro ⟨t, ht, hrunning, rfl⟩
        exact hdead t ht hrunning (Option.some.inj (hu.symm.trans htid))
    | free => exact ⟨fun _ => hadmin rfl, fun _ => hjoined rfl, fun _ => hdone rfl⟩
    | lockLock => exact ⟨fun _ => hadmin rfl, fun _ => hjoined rfl, fun _ => hdone rfl⟩
    | lockCounter => exact ⟨fun _ => hadmin rfl, fun _ => hjoined rfl, fun _ => hdone rfl⟩
    | freePool => exact ⟨fun _ => hadmin rfl, fun _ => hjoined rfl, fun _ => hdone rfl⟩
  | wakeWorker => exact ⟨hj.admin, hj.joined, hj.done⟩
  | wakeProducer => exact ⟨hj.admin, hj.joined, hj.done⟩

variable {c : Setup Fn Arg} {ls : List (Label Fn Arg)} {s : State Fn Arg}

theorem create_joins (c : Setup Fn Arg) : Joins (threadpoolCreate c) where
  admin h := absurd h Bool.false_ne_true
  joined h := absurd h Bool.false_ne_true
  done h := absurd h Bool.false_ne_true

theorem exec_joins (hrun : Run.exec step (threadpoolCreate c) ls = some s) : Joins s :=
  Run.invariant (fun _ _ _ hm hs => hm.step (step_cases hs)) (create_joins c) hrun

theorem free_after_joins_iff (hrun : Run.exec step (threadpoolCreate c) ls = some s)
    (hfree : s.destroyer.pc = .free) :
    (∀ t ∈ s.workers, t.running = false) ↔
      ∀ j : Nat, s.pool.liveThrNum ≤ j → ∀ t ∈ s.workers,
        s.pool.threads[j]? = some t.tid → t.running = false := by
  constructor
  · exact fun h j _ t ht _ => h t ht
  · intro h t ht
    by_contra hrunning
    rw [Bool.not_eq_false] at hrunning
    have halive : IsAlive s.workers t.tid := ⟨t, ht, hrunning, rfl⟩
    have hjoins : Joins s := exec_joins hrun
    have hdone : s.pool.liveThrNum ≤ s.destroyer.i := hjoins.done (by rw [hfree]; rfl)
    obtain ⟨j, hj⟩ := List.getElem?_of_mem ((exec_seated hrun).seats.mem t.tid halive)
    by_cases hlt : j < s.destroyer.i
    · exact hjoins.joined (by rw [hfree]; rfl) j hlt t.tid hj halive
    · rw [h j (by omega) t ht hj] at hrunning
      cases hrunning

def destroySteps (n : Nat) : List (Label Nat Nat) := List.replicate n .destroy

theorem free_after_joins_small :
    ∃ s, Run.exec step (threadpoolCreate smallPool)
        (destroySteps 1 ++ adminSteps 1 ++ destroySteps 4 ++ workerSteps 0 5 ++
          destroySteps 3) = some s ∧ ∀ t ∈ s.workers, t.running = false := by
  obtain ⟨s, hs, hcond⟩ : ∃ s, Run.exec step (threadpoolCreate smallPool)
      (destroySteps 1 ++ adminSteps 1 ++ destroySteps 4 ++ workerSteps 0 5 ++
        destroySteps 3) = some s ∧
      decide (s.destroyer.pc = .free ∧ s.pool.liveThrNum = 1 ∧ s.pool.threads.length = 1) = true :=
    (Option.any_eq_true _ _).mp (by decide +kernel)
  obtain ⟨hfree, hlive, hlength⟩ := of_decide_eq_true hcond
  refine ⟨s, hs, (free_after_joins_iff hs hfree).mpr fun j hj t _ htid => ?_⟩
  obtain ⟨hlt, -⟩ := List.getElem?_eq_some_iff.mp htid
  omega

/-- Worker 1 works on a task when worker 0, in slot 0, leaves through the self-exit branch:
`live_thr_num` is 1 and slot 0 is all that the loop joins. -/
def unjoinedRun : List (Label Nat Nat) :=
  growRun ++ adminSteps 21 ++ workerSteps 1 9 ++ workerSteps 0 42 ++
    addTask 0 ⟨0, some 5⟩ (some 0) ++ workerSteps 0 4 ++
    destroySteps 1 ++ adminSteps 1 ++ destroySteps 7

theorem free_under_running_worker :
    ∃ s, Run.exec step (threadpoolCreate growPool) unjoinedRun = some s ∧
      s.destroyer.pc = .free ∧ ∃ t ∈ s.workers, t.running = true ∧ t.pc = .run := by
  obtain ⟨s, hs, hcond⟩ : ∃ s, Run.exec step (threadpoolCreate growPool) unjoinedRun = some s ∧
      decide (s.destroyer.pc = .free ∧ ∃ t ∈ s.workers, t.running = true ∧ t.pc = .run) = true :=
    (Option.any_eq_true _ _).mp (by decide +kernel)
  exact ⟨s, hs, of_decide_eq_true hcond⟩

end Joins

section Producers

/-- A worker has passed its shutdown test and will broadcast `queue_not_full`. -/
def IsDequeuing (s : State Fn Arg) : Prop :=
  ∃ (w : Nat) (t : Worker Fn Arg), s.workers[w]? = some t ∧
    (t.pc = .take ∨ t.pc = .broadcastNotFull)

/-- No producer sleeps on `queue_not_full` or is about to. -/
def NobodyWaits (s : State Fn Arg) : Prop :=
  ∀ (p : Nat) (t : Producer Fn Arg), s.producers[p]? = some t →
    t.pc ≠ .wait ∧ p ∉ s.pool.queueNotFull

/-- When `shutdown` is set, a dequeue is under way or no producer waits; when
`threadpool_free` takes the mutex, every producer that was woken has had it. -/
def ReleasesProducers (s : State Fn Arg) (l : Label Fn Arg) (_ : State Fn Arg) : Prop :=
  l = .destroy →
    (s.destroyer.pc = .idle → IsDequeuing s ∨ NobodyWaits s) ∧
    (s.destroyer.pc = .lockLock → ∀ (p : Nat) (t : Producer Fn Arg),
      s.producers[p]? = some t → t.pc = .waiting → p ∈ s.pool.queueNotFull)

instance [DecidableEq Fn] [DecidableEq Arg] (s : State Fn Arg) (l : Label Fn Arg)
    (s' : State Fn Arg) : Decidable (ReleasesProducers s l s') := by
  unfold ReleasesProducers IsDequeuing NobodyWaits
  infer_instance

structure Released (s : State Fn Arg) : Prop where
  locks : Locks s
  flag : FlagFirst s
  woken : s.pool.shutdown = true → IsDequeuing s ∨ NobodyWaits s
  gone : s.destroyer.pc.holdsLock = true → ∀ (p : Nat) (t : Producer Fn Arg),
    s.producers[p]? = some t → t.pc ≠ .waiting

theorem ProducerStep.sleeps {p : Nat} {wake : Option Nat} {σ σ' : Threadpool Fn Arg}
    {t t' : Producer Fn Arg} (h : ProducerStep p wake σ t σ' t') :
    σ'.shutdown = σ.shutdown ∧ (t'.pc = .wait → σ.shutdown = false) ∧
      (t'.pc = .waiting → t.pc = .wait) ∧
      (t.pc = .wait ∨ σ'.queueNotFull = σ.queueNotFull) := by
  cases h with
  | sleep _ hsh => exact ⟨rfl, fun _ => hsh, nofun, .inr rfl⟩
  | wait => exact ⟨rfl, nofun, fun _ => rfl, .inl rfl⟩
  | _ => exact ⟨rfl, nofun, nofun, .inr rfl⟩

theorem WorkerStep.shutdown {w : Nat} {e : Bool} {σ σ' : Threadpool Fn Arg}
    {t t' : Worker Fn Arg} (h : WorkerStep w σ e t σ' t') : σ'.shutdown = σ.shutdown := by
  cases h <;> rfl

theorem Locks.destroyer_or_producer {s : State Fn Arg} (hl : Locks s) {p : Nat}
    {t : Producer Fn Arg} (hd : s.destroyer.pc.holdsLock = true) (hp : s.producers[p]? = some t)
    (ht : t.pc.holdsLock = true) : False := by
  have hsame : Tid.producer p = .destroyer :=
    hl.lock.unique (b := Local.destroyer s.destroyer) (l := Local.producer t) rfl hd
      (by simp [State.thread, hp]) ht
  cases hsame

theorem Locks.not_dequeuing {s : State Fn Arg} (hl : Locks s)
    (hlock : ∀ w, s.pool.lock ≠ some (.worker w)) : ¬ IsDequeuing s := by
  rintro ⟨w, t, hw, hpc⟩
  refine hlock w (hl.lock (.worker w) (.worker t) (by simp [State.thread, hw]) ?_)
  rcases hpc with hpc | hpc <;> simp [Local.holdsLock, hpc, WorkerPc.holdsLock]

theorem NobodyWaits.mono {s s' : State Fn Arg} (h : NobodyWaits s)
    (hproducers : s'.producers = s.producers)
    (hlist : s'.pool.queueNotFull ⊆ s.pool.queueNotFull) : NobodyWaits s' := by
  intro p t hp
  rw [hproducers] at hp
  exact ⟨(h p t hp).1, fun hmem => (h p t hp).2 (hlist hmem)⟩

/-- A worker that dequeues wakes the producers, and no worker makes one wait. -/
theorem Released.worker {s : State Fn Arg} (hr : Released s) {w : Nat} {e : Bool}
    {t t' : Worker Fn Arg} {σ' : Threadpool Fn Arg} (hw : s.workers[w]? = some t)
    (h : WorkerStep w s.pool e t σ' t') :
    Released { s with pool := σ', workers := s.workers.set w t' } := by
  have hstep : Step s (.worker w e) { s with pool := σ', workers := s.workers.set w t' } :=
    .worker hw h
  refine ⟨hr.locks.step hstep, hr.flag.step hstep, fun hsh => ?_, hr.gone⟩
  rcases h.notFull with hbroadcast | ⟨hpc, hempty⟩ | ⟨htake, hbroadcast, hlist, -⟩
  · exact .inl (exists_set_self
      (P := fun _ (u : Worker Fn Arg) => u.pc = .take ∨ u.pc = .broadcastNotFull) hw
      (.inr hbroadcast))
  · refine .inr fun p u hp => ⟨fun hu => ?_, by rw [hempty]; exact List.not_mem_nil⟩
    exact hr.locks.worker_or_producer hw (by rw [hpc]; rfl) hp (by rw [hu]; rfl)
  · refine (hr.woken (h.shutdown.symm.trans hsh)).imp (fun hdequeuing => ?_) (fun hnobody => ?_)
    · exact exists_set
        (P := fun _ (u : Worker Fn Arg) => u.pc = .take ∨ u.pc = .broadcastNotFull) hw
        (fun h => (h.elim htake hbroadcast).elim) hdequeuing
    · exact hnobody.mono rfl (hlist ▸ List.Subset.refl _)

theorem Released.producer {s : State Fn Arg} (hr : Released s) {p : Nat} {wake : Option Nat}
    {t t' : Producer Fn Arg} {σ' : Threadpool Fn Arg} (hp : s.producers[p]? = some t)
    (h : ProducerStep p wake s.pool t σ' t') :
    Released { s with pool := σ', producers := s.producers.set p t' } := by
  have hstep : Step s (.producer p wake)
      { s with pool := σ', producers := s.producers.set p t' } := .producer hp h
  obtain ⟨hsame, hwait, hwaiting, hlist⟩ := h.sleeps
  refine ⟨hr.locks.step hstep, hr.flag.step hstep, fun hsh => ?_, fun hd => ?_⟩
  · have hsh' : s.pool.shutdown = true := hsame.symm.trans hsh
    refine (hr.woken hsh').imp id fun hnobody => ?_
    have hlist' : σ'.queueNotFull = s.pool.queueNotFull := hlist.resolve_left (hnobody p t hp).1
    simp only [NobodyWaits, hlist']
    refine forall_set
      (P := fun q (u : Producer Fn Arg) => u.pc ≠ .wait ∧ q ∉ s.pool.queueNotFull) hnobody
      ⟨fun hpc => ?_, (hnobody p t hp).2⟩
    rw [hwait hpc] at hsh'
    cases hsh'
  · refine forall_set (P := fun _ (u : Producer Fn Arg) => u.pc ≠ .waiting) (hr.gone hd) ?_
    exact fun hpc => hr.locks.destroyer_or_producer hd hp (by rw [hwaiting hpc]; rfl)

theorem Released.destroy {s : State Fn Arg} (hr : Released s) {d d' : Destroyer}
    {σ' : Threadpool Fn Arg} (hd : s.destroyer = d)
    (h : DestroyerStep s.workers s.admin s.pool d σ' d')
    (hl : ReleasesProducers s .destroy { s with pool := σ', destroyer := d' }) :
    Released { s with pool := σ', destroyer := d' } := by
  have hstep : Step s .destroy { s with pool := σ', destroyer := d' } := .destroy hd h
  have hlocks := hr.locks.step hstep
  have hflag := hr.flag.step hstep
  obtain ⟨hidle, hlock⟩ := hl rfl
  obtain ⟨hlocks₀, hflag₀, hwoken, hgone⟩ := hr
  rw [FlagFirst, hd] at hflag₀
  rw [hd] at hidle hlock hgone
  cases h with
  | setShutdown => exact ⟨hlocks, hflag, fun _ => hidle rfl, nofun⟩
  | lockLock hfree =>
    have hnobody : NobodyWaits s := (hwoken (hflag₀ nofun)).resolve_left
      (hlocks₀.not_dequeuing fun w => by rw [hfree]; exact nofun)
    exact ⟨hlocks, hflag, hwoken, fun _ p t hp hpc => (hnobody p t hp).2 (hlock rfl p t hp hpc)⟩
  | lockCounter => exact ⟨hlocks, hflag, hwoken, fun _ => hgone rfl⟩
  | freePool => exact ⟨hlocks, hflag, hwoken, fun _ => hgone rfl⟩
  | _ => exact ⟨hlocks, hflag, hwoken, nofun⟩

theorem Released.step {s s' : State Fn Arg} {l : Label Fn Arg} (hr : Released s)
    (h : Step s l s') (hl : ReleasesProducers s l s') : Released s' := by
  have hlocks : Locks s' := hr.locks.step h
  have hflag : FlagFirst s' := hr.flag.step h
  cases h with
  | worker hw h => exact hr.worker hw h
  | @call p task t hp hpc =>
    refine ⟨hlocks, hflag, fun hsh => (hr.woken hsh).imp id fun hnobody => ?_, fun hd => ?_⟩
    · exact forall_set
        (P := fun q (u : Producer Fn Arg) => u.pc ≠ .wait ∧ q ∉ s.pool.queueNotFull) hnobody
        ⟨nofun, (hnobody p t hp).2⟩
    · exact forall_set (P := fun _ (u : Producer Fn Arg) => u.pc ≠ .waiting) (hr.gone hd) nofun
  | producer hp h => exact hr.producer hp h
  | @admin c a σ' a' new ha h =>
    refine ⟨hlocks, hflag, fun hsh => ?_, hr.gone⟩
    exact (hr.woken (h.notEmpty.2.symm.trans hsh)).imp (exists_append new)
      fun hnobody => hnobody.mono rfl (h.notFull ▸ List.Subset.refl _)
  | destroy hd h => exact hr.destroy hd h hl
  | wakeWorker => exact ⟨hlocks, hflag, hr.woken, hr.gone⟩
  | wakeProducer =>
    exact ⟨hlocks, hflag, fun hsh => (hr.woken hsh).imp id
      fun hnobody => hnobody.mono rfl List.filter_sublist.subset, hr.gone⟩

/-- The producer has not left the wait loop of `threadpool_add_task`. -/
def ProducerPc.inLoop : ProducerPc → Bool
  | .testFull | .wait | .waiting => true
  | _ => false

def ProducerPc.leaving : ProducerPc → Bool
  | .testFull | .wait | .waiting | .testShutdown | .unlockShutdown => true
  | .returned n => n = -1
  | _ => false

def Leaving (p : Nat) (s : State Fn Arg) : Prop :=
  s.pool.shutdown = true ∧ ∃ t, s.producers[p]? = some t ∧ t.pc.leaving = true

theorem ProducerStep.leaving {p : Nat} {wake : Option Nat} {σ σ' : Threadpool Fn Arg}
    {t t' : Producer Fn Arg} (h : ProducerStep p wake σ t σ' t') (hsh : σ.shutdown = true)
    (ht : t.pc.leaving = true) : t'.pc.leaving = true := by
  cases h with
  | goClear hopen => rw [hsh] at hopen; cases hopen
  | release => cases ht
  | keepNull => cases ht
  | put => cases ht
  | signalNotEmpty => cases ht
  | unlock => cases ht
  | _ => rfl

theorem Leaving.step {p : Nat} {s s' : State Fn Arg} {l : Label Fn Arg} (hp : Leaving p s)
    (h : Step s l s') (hl : ∀ task, l ≠ .call p task) : Leaving p s' := by
  obtain ⟨hsh, t, ht, hleaving⟩ := hp
  have hsh' : s'.pool.shutdown = true := h.shutdown hsh
  rcases h.producer_of ht hl with hsame | ⟨wake, t', ht', hstep⟩
  · exact ⟨hsh', t, hsame, hleaving⟩
  · exact ⟨hsh', t', ht', hstep.leaving hsh hleaving⟩

theorem exec_leaving {p : Nat} {ls : List (Label Fn Arg)} {s s' : State Fn Arg}
    (hp : Leaving p s) (hcall : ∀ task, .call p task ∉ ls)
    (hrun : Run.exec step s ls = some s') : Leaving p s' := by
  refine Run.invariant_of_always (P := fun _ l _ => ∀ task, l ≠ .call p task)
    (fun _ _ _ hm hs hl => hm.step (step_cases hs) hl) hp ?_ hrun
  apply Run.always_of_mem
  rintro l hl - - task rfl
  exact hcall task hl

variable {c : Setup Fn Arg} {ls : List (Label Fn Arg)} {s : State Fn Arg}

theorem create_released (c : Setup Fn Arg) : Released (threadpoolCreate c) where
  locks := create_locks c
  flag := create_flagFirst c
  woken h := absurd h Bool.false_ne_true
  gone h := absurd h Bool.false_ne_true

theorem exec_released (hreleases : Run.Always step ReleasesProducers (threadpoolCreate c) ls)
    (hrun : Run.exec step (threadpoolCreate c) ls = some s) : Released s :=
  Run.invariant_of_always (fun _ _ _ hm hs hl => hm.step (step_cases hs) hl)
    (create_released c) hreleases hrun

theorem exec_waiters (hrun : Run.exec step (threadpoolCreate c) ls = some s) : Waiters s :=
  Run.invariant (fun _ _ _ hm hs => hm.step (step_cases hs)) (create_waiters c) hrun

/-- From the moment on when `threadpool_free` has the mutex, and so when `threadpool_destroy` has
returned, nobody is blocked on `queue_not_full`, and each producer that was in the wait loop has
returned -1. -/
theorem destroy_releases_producers
    (hreleases : Run.Always step ReleasesProducers (threadpoolCreate c) ls)
    (hrun : Run.exec step (threadpoolCreate c) ls = some s)
    (hd : s.destroyer.pc.holdsLock = true) :
    (∀ p, ¬ s.pool.Blocked (.producer p)) ∧
    ∀ ks₁ ks₂ m p t t', ls = ks₁ ++ ks₂ →
      Run.exec step (threadpoolCreate c) ks₁ = some m → m.pool.shutdown = true →
      m.producers[p]? = some t → t.pc.inLoop = true → (∀ task, .call p task ∉ ks₂) →
      s.producers[p]? = some t' → t'.pc = .returned (-1) := by
  have hreleased : Released s := exec_released hreleases hrun
  refine ⟨fun p hp => ?_, ?_⟩
  · obtain ⟨b, hb, hwaiting⟩ := exec_waiters hrun (.producer p) hp
    obtain ⟨t, ht, rfl⟩ := Option.map_eq_some_iff.mp hb
    exact hreleased.gone hd p t ht (by simpa [Local.waiting] using hwaiting)
  · rintro ks₁ ks₂ m p t t' rfl hm hsh ht hloop hcall ht'
    obtain ⟨m', hm', hrest⟩ := Run.exec_append.mp hrun
    have hmm : m = m' := Option.some.inj (hm.symm.trans hm')
    subst hmm
    have hleaving : Leaving p m := by
      refine ⟨hsh, t, ht, ?_⟩
      revert hloop
      cases t.pc <;> simp [ProducerPc.inLoop, ProducerPc.leaving]
    obtain ⟨-, u, hu, hleft⟩ := exec_leaving hleaving hcall hrest
    rw [ht'] at hu
    cases hu
    have hwaiting := hreleased.gone hd p t' ht'
    have hholds : t'.pc.holdsLock ≠ true := fun hlock =>
      hreleased.locks.destroyer_or_producer hd ht' hlock
    revert hleft hwaiting hholds
    cases t'.pc <;> simp [ProducerPc.leaving, ProducerPc.holdsLock]

/-- The flag is set while worker 0 is about to dequeue; its broadcast releases producer 1. -/
def releasingRun : List (Label Nat Nat) :=
  addTask 0 ⟨0, some 1⟩ none ++ .call 1 ⟨0, some 2⟩ :: List.replicate 3 (.producer 1 none) ++
    workerSteps 0 3 ++ destroySteps 1 ++ workerSteps 0 3 ++ List.replicate 4 (.producer 1 none) ++
    workerSteps 0 12 ++ adminSteps 1 ++ destroySteps 11

theorem destroy_releases_producers_dequeuing :
    ∃ s, Run.exec step (threadpoolCreate smallPool) releasingRun = some s ∧
      (∀ p, ¬ s.pool.Blocked (.producer p)) ∧
      s.producers.map Producer.pc = [.returned 0, .returned (-1)] := by
  obtain ⟨s, hs, hcond⟩ : ∃ s, Run.exec step (threadpoolCreate smallPool) releasingRun = some s ∧
      decide (s.destroyer.pc = .returned ∧
        s.producers.map Producer.pc = [.returned 0, .returned (-1)]) = true :=
    (Option.any_eq_true _ _).mp (by decide +kernel)
  obtain ⟨hret, hproducers⟩ := of_decide_eq_true hcond
  have hd : s.destroyer.pc.holdsLock = true := by
    rw [hret]
    rfl
  exact ⟨s, hs, (destroy_releases_producers (by decide +kernel) hs hd).1, hproducers⟩

theorem DestroyerStep.keepsLock {ws : List (Worker Fn Arg)} {admin : Admin}
    {σ σ' : Threadpool Fn Arg} {d d' : Destroyer} (h : DestroyerStep ws admin σ d σ' d')
    (hd : d.pc.holdsLock = true) : d'.pc.holdsLock = true := by
  cases h <;> first | rfl | cases hd

/-- `threadpool_free` has the mutex for good, and producer `p` is in `pthread_cond_wait`. -/
structure Abandoned (p : Nat) (s : State Fn Arg) : Prop where
  locks : Locks s
  locked : s.destroyer.pc.holdsLock = true
  waiting : ∃ t, s.producers[p]? = some t ∧ t.pc = .waiting

theorem Abandoned.step {p : Nat} {s s' : State Fn Arg} {l : Label Fn Arg} (ha : Abandoned p s)
    (h : Step s l s') : Abandoned p s' := by
  obtain ⟨t, ht, hpc⟩ := ha.waiting
  refine ⟨ha.locks.step h, ?_, ?_⟩
  · have hlocked := ha.locked
    cases h with
    | destroy hd h => exact h.keepsLock (hd ▸ hlocked)
    | _ => exact hlocked
  · have hcall : ∀ task, l ≠ .call p task := by
      rintro task rfl
      cases h with
      | call hp hidle =>
        cases hp.symm.trans ht
        simp [hpc] at hidle
    rcases h.producer_of ht hcall with hsame | ⟨wake, t', ht', hstep⟩
    · exact ⟨t, hsame, hpc⟩
    · have hheld : s.pool.lock = some .destroyer :=
        ha.locks.lock .destroyer (.destroyer s.destroyer) rfl ha.locked
      generalize s'.pool = σ' at hstep
      cases hstep with
      | awake _ hfree => cases hfree.symm.trans hheld
      | _ => cases hpc

/-- The broadcast of worker 0 wakes producer 1, and `threadpool_free` gets the mutex before it. -/
def abandoningRun : List (Label Nat Nat) :=
  addTask 0 ⟨0, some 1⟩ none ++ .call 1 ⟨0, some 2⟩ :: List.replicate 3 (.producer 1 none) ++
    workerSteps 0 13 ++ destroySteps 1 ++ adminSteps 1 ++ destroySteps 4 ++ workerSteps 0 5 ++
    destroySteps 7

/-- `threadpool_destroy` has returned, and producer 1 never does. -/
theorem destroy_abandons_producer :
    ∃ s, Run.exec step (threadpoolCreate smallPool) abandoningRun = some s ∧
      s.destroyer.pc = .returned ∧ ∀ ks s', Run.exec step s ks = some s' →
        ∃ t, s'.producers[1]? = some t ∧ t.pc = .waiting := by
  obtain ⟨s, hs, hcond⟩ : ∃ s, Run.exec step (threadpoolCreate smallPool) abandoningRun = some s ∧
      decide (s.destroyer.pc = .returned ∧
        s.producers[1]? = some (Producer.mk .waiting (some ⟨0, some 2⟩))) = true :=
    (Option.any_eq_true _ _).mp (by decide +kernel)
  obtain ⟨hret, hwaiting⟩ := of_decide_eq_true hcond
  have habandoned : Abandoned 1 s := ⟨exec_locks hs, by rw [hret]; rfl, _, hwaiting, rfl⟩
  refine ⟨s, hs, hret, fun ks s' hks => ?_⟩
  have hlater : Abandoned 1 s' :=
    Run.invariant (fun _ _ _ hm hl => hm.step (step_cases hl)) habandoned hks
  exact hlater.waiting

end Producers

section Workers

/-- No worker sleeps on `queue_not_empty` or is about to. -/
structure AllAwake (s : State Fn Arg) : Prop where
  flag : s.pool.shutdown = true
  empty : s.pool.queueNotEmpty = []
  workers : ∀ (w : Nat) (t : Worker Fn Arg), s.workers[w]? = some t → t.pc ≠ .wait

/-- A broadcast of `threadpool_destroy` finds no worker between its test of the predicate and
`pthread_cond_wait`, or there is no worker to wake. -/
def ReachesEveryWorker (s : State Fn Arg) (l : Label Fn Arg) (_ : State Fn Arg) : Prop :=
  l = .destroy ∧
    (s.destroyer.pc = .broadcast ∧
      (∀ (w : Nat) (t : Worker Fn Arg), s.workers[w]? = some t → t.pc ≠ .wait) ∨
    s.destroyer.pc = .testBroadcast ∧ s.pool.liveThrNum ≤ 0)

instance [DecidableEq Fn] [DecidableEq Arg] (s : State Fn Arg) (l : Label Fn Arg)
    (s' : State Fn Arg) : Decidable (ReachesEveryWorker s l s') := by
  unfold ReachesEveryWorker
  infer_instance

theorem WorkerStep.sleeps {w : Nat} {e : Bool} {σ σ' : Threadpool Fn Arg}
    {t t' : Worker Fn Arg} (h : WorkerStep w σ e t σ' t') :
    (t'.pc = .wait → σ.shutdown = false) ∧
      (t.pc = .wait ∨ σ'.queueNotEmpty = σ.queueNotEmpty) := by
  cases h with
  | sleep _ hsh => exact ⟨fun _ => hsh, .inr rfl⟩
  | wait => exact ⟨nofun, .inl rfl⟩
  | _ => exact ⟨nofun, .inr rfl⟩

theorem ProducerStep.notEmpty {p : Nat} {wake : Option Nat} {σ σ' : Threadpool Fn Arg}
    {t t' : Producer Fn Arg} (h : ProducerStep p wake σ t σ' t') :
    σ'.queueNotEmpty ⊆ σ.queueNotEmpty := by
  cases h with
  | signalNotEmpty hwake => exact condSignal_subset hwake
  | _ => exact List.Subset.refl _

theorem AllAwake.step {s s' : State Fn Arg} {l : Label Fn Arg} (ha : AllAwake s)
    (h : Step s l s') : AllAwake s' := by
  have hflag : s'.pool.shutdown = true := h.shutdown ha.flag
  have hempty : ∀ {waiters : List Nat}, waiters ⊆ s.pool.queueNotEmpty → waiters = [] := by
    intro waiters hsub
    rw [ha.empty] at hsub
    exact List.subset_nil.mp hsub
  cases h with
  | @worker w e t σ' t' hw h =>
    obtain ⟨hwait, hlist⟩ := h.sleeps
    refine ⟨hflag, (hlist.resolve_left (ha.workers w t hw)).trans ha.empty, ?_⟩
    refine forall_set (P := fun _ (u : Worker Fn Arg) => u.pc ≠ .wait) ha.workers fun hpc => ?_
    have hopen := hwait hpc
    rw [ha.flag] at hopen
    cases hopen
  | call => exact ⟨hflag, ha.empty, ha.workers⟩
  | producer hp h => exact ⟨hflag, hempty h.notEmpty, ha.workers⟩
  | @admin c a σ' a' new ha₀ h =>
    refine ⟨hflag, hempty h.notEmpty.1, fun w t ht => ?_⟩
    rcases List.mem_append.mp (List.mem_of_getElem? ht) with hold | hnew
    · obtain ⟨v, hv⟩ := List.getElem?_of_mem hold
      exact ha.workers v t hv
    · obtain ⟨tid, rfl⟩ := h.new_start t hnew
      exact nofun
  | destroy hd h => exact ⟨hflag, hempty h.notEmpty, ha.workers⟩
  | wakeWorker => exact ⟨hflag, hempty List.filter_sublist.subset, ha.workers⟩
  | wakeProducer => exact ⟨hflag, ha.empty, ha.workers⟩

theorem allAwake_of_live {s : State Fn Arg} (hflag : s.pool.shutdown = true) (hw : Waiters s)
    (hsurplus : 0 ≤ s.surplus) (hlive : s.pool.liveThrNum ≤ 0) : AllAwake s := by
  have hcount : s.liveWorkers = 0 := by
    simp only [State.surplus] at hsurplus
    omega
  have hexited : ∀ t ∈ s.workers, t.pc.selfExited = true := by
    simpa [State.liveWorkers, List.countP_eq_zero] using hcount
  refine ⟨hflag, List.eq_nil_iff_forall_not_mem.mpr fun w hmem => ?_, fun w t ht hpc => ?_⟩
  · obtain ⟨t, ht, hpc⟩ := hw.waiting hmem
    have hself := hexited t (List.mem_of_getElem? ht)
    rw [hpc] at hself
    cases hself
  · have hself := hexited t (List.mem_of_getElem? ht)
    rw [hpc] at hself
    cases hself

theorem ReachesEveryWorker.allAwake {s s' : State Fn Arg} {l : Label Fn Arg}
    (hf : FlagFirst s) (hw : Waiters s) (hsurplus : 0 ≤ s.surplus) (h : Step s l s')
    (hl : ReachesEveryWorker s l s') : AllAwake s' := by
  obtain ⟨rfl, ⟨hpc, hworkers⟩ | ⟨hpc, hlive⟩⟩ := hl
  · have hflag : s.pool.shutdown = true := hf (by rw [hpc]; exact nofun)
    cases h with
    | destroy hd h =>
      rw [hd] at hpc
      cases h with
      | broadcast => exact ⟨hflag, rfl, hworkers⟩
      | _ => cases hpc
  · exact (allAwake_of_live (hf (by rw [hpc]; exact nofun)) hw hsurplus hlive).step h

variable {c : Setup Fn Arg} {ls : List (Label Fn Arg)} {s : State Fn Arg}

theorem no_worker_sleeps_through_shutdown
    (hreaches : Run.Sometime step ReachesEveryWorker (threadpoolCreate c) ls)
    (hrun : Run.exec step (threadpoolCreate c) ls = some s) :
    ∀ w, ¬ s.pool.Blocked (.worker w) := by
  have hawake : AllAwake s := by
    refine Run.Sometime.invariant (J := fun m => FlagFirst m ∧ Waiters m ∧ 0 ≤ m.surplus)
      ?_ (fun _ _ _ hm hs => hm.step (step_cases hs)) ?_
      ⟨create_flagFirst c, create_waiters c, create_surplus_nonneg c⟩ hreaches hrun
    · rintro m l m' ⟨hflag, hwaiters, hsurplus⟩ hs hl
      exact hl.allAwake hflag hwaiters hsurplus (step_cases hs)
    · rintro m l m' ⟨hflag, hwaiters, hsurplus⟩ hs
      refine ⟨hflag.step (step_cases hs), hwaiters.step (step_cases hs), ?_⟩
      rw [(step_cases hs).surplus]
      omega
  intro w hw
  rw [Threadpool.Blocked, hawake.empty] at hw
  exact List.not_mem_nil hw

theorem no_worker_sleeps_through_shutdown_small :
    ∃ s, Run.exec step (threadpoolCreate smallPool)
        (workerSteps 0 3 ++ destroySteps 1 ++ adminSteps 1 ++ destroySteps 4) = some s ∧
      s.destroyer.pc = .testJoin ∧ ∀ w, ¬ s.pool.Blocked (.worker w) := by
  obtain ⟨s, hs, hpc⟩ : ∃ s, Run.exec step (threadpoolCreate smallPool)
      (workerSteps 0 3 ++ destroySteps 1 ++ adminSteps 1 ++ destroySteps 4) = some s ∧
      decide (s.destroyer.pc = .testJoin) = true :=
    (Option.any_eq_true _ _).mp (by decide +kernel)
  exact ⟨s, hs, of_decide_eq_true hpc, no_worker_sleeps_through_shutdown (by decide +kernel) hs⟩

/-- Worker 0 has found the queue empty and the flag clear; the flag is set and the one
broadcast sent before it joins the waiters. -/
def sleepingRun : List (Label Nat Nat) :=
  workerSteps 0 2 ++ destroySteps 1 ++ adminSteps 1 ++ destroySteps 4 ++ workerSteps 0 1

theorem worker_sleeps_after_broadcasts :
    ∃ s, Run.exec step (threadpoolCreate smallPool) sleepingRun = some s ∧
      s.destroyer.pc = .testJoin ∧ s.pool.Blocked (.worker 0) := by
  obtain ⟨s, hs, hcond⟩ : ∃ s, Run.exec step (threadpoolCreate smallPool) sleepingRun = some s ∧
      decide (s.destroyer.pc = .testJoin ∧ 0 ∈ s.pool.queueNotEmpty) = true :=
    (Option.any_eq_true _ _).mp (by decide +kernel)
  obtain ⟨hpc, hblocked⟩ := of_decide_eq_true hcond
  exact ⟨s, hs, hpc, hblocked⟩

end Workers

end LearnCLinux.ThreadPool
