import LearnCLinux.ThreadPool.Accounting

/-! Who sleeps while the pool runs.  A producer sleeps on `queue_not_full` only while the queue
is full or a broadcast is about to come; a queued task has a worker that will look for it, unless
the last such worker has left the pool. -/

universe u v

namespace LearnCLinux.ThreadPool

open Threads

variable {Fn : Type u} {Arg : Type v}

theorem Locks.worker_or_producer {s : State Fn Arg} (hl : Locks s) {w p : Nat}
    {t : Worker Fn Arg} {u : Producer Fn Arg} (hw : s.workers[w]? = some t)
    (ht : t.pc.holdsLock = true) (hp : s.producers[p]? = some u)
    (hu : u.pc.holdsLock = true) : False := by
  have hsame : Tid.producer p = .worker w :=
    hl.lock.unique (b := Local.worker t) (l := Local.producer u) (by simp [State.thread, hw])
      ht (by simp [State.thread, hp]) hu
  cases hsame

section NotFull

def IsBroadcasting (s : State Fn Arg) : Prop :=
  ∃ (w : Nat) (t : Worker Fn Arg), s.workers[w]? = some t ∧ t.pc = .broadcastNotFull

def SleepsWhileFull (s : State Fn Arg) : Prop :=
  ∀ p ∈ s.pool.queueNotFull, s.pool.queueSize = s.pool.queueMaxSize ∨ IsBroadcasting s

theorem WorkerStep.notFull {w : Nat} {e : Bool} {σ σ' : Threadpool Fn Arg}
    {t t' : Worker Fn Arg} (h : WorkerStep w σ e t σ' t') :
    t'.pc = .broadcastNotFull ∨ (t.pc = .broadcastNotFull ∧ σ'.queueNotFull = []) ∨
      (t.pc ≠ .take ∧ t.pc ≠ .broadcastNotFull ∧ σ'.queueNotFull = σ.queueNotFull ∧
        σ'.queueSize = σ.queueSize) := by
  cases h with
  | take => exact .inl rfl
  | broadcastNotFull => exact .inr (.inl ⟨rfl, rfl⟩)
  | _ => exact .inr (.inr ⟨nofun, nofun, rfl, rfl⟩)

theorem ProducerStep.notFull {p : Nat} {wake : Option Nat} {σ σ' : Threadpool Fn Arg}
    {t t' : Producer Fn Arg} (h : ProducerStep p wake σ t σ' t') :
    (t.pc = .wait ∧ σ'.queueSize = σ.queueSize) ∨
      (t.pc = .put ∧ σ'.queueNotFull = σ.queueNotFull) ∨
      (σ'.queueNotFull = σ.queueNotFull ∧ σ'.queueSize = σ.queueSize) := by
  cases h with
  | wait => exact .inl ⟨rfl, rfl⟩
  | put => exact .inr (.inl ⟨rfl, rfl⟩)
  | _ => exact .inr (.inr ⟨rfl, rfl⟩)

theorem AdminStep.notFull {c : AdminChoice} {ws new : List (Worker Fn Arg)}
    {σ σ' : Threadpool Fn Arg} {a a' : Admin} (h : AdminStep c ws σ a σ' a' new) :
    σ'.queueNotFull = σ.queueNotFull := by
  cases h <;> rfl

theorem DestroyerStep.notFull {ws : List (Worker Fn Arg)} {admin : Admin}
    {σ σ' : Threadpool Fn Arg} {d d' : Destroyer} (h : DestroyerStep ws admin σ d σ' d') :
    σ'.queueNotFull = σ.queueNotFull := by
  cases h <;> rfl

theorem SleepsWhileFull.step {s s' : State Fn Arg} {l : Label Fn Arg}
    {q : List (ThreadpoolTask Fn Arg)} (hs : SleepsWhileFull s) (hq : QueueInv s q)
    (h : Step s l s') : SleepsWhileFull s' := by
  have hmax : s'.pool.queueMaxSize = s.pool.queueMaxSize := h.constants.1
  intro p hp
  rw [hmax]
  cases h with
  | @worker w e t σ' t' hw h =>
    rcases h.notFull with hbroadcast | ⟨-, hempty⟩ | ⟨-, hpc, hlist, hsize⟩
    · exact .inr (exists_set_self (P := fun _ (u : Worker Fn Arg) => u.pc = .broadcastNotFull)
        hw hbroadcast)
    · rw [hempty] at hp
      cases hp
    · rw [hlist] at hp
      rcases hs p hp with hfull | hother
      · exact .inl (hsize.trans hfull)
      · exact .inr (exists_set (P := fun _ (u : Worker Fn Arg) => u.pc = .broadcastNotFull)
          hw (fun h => absurd h hpc) hother)
  | call => exact hs p hp
  | @producer r wake t σ' t' hr h =>
    have hassert := hq.asserts (.producer r) (.producer t) (by simp [State.thread, hr])
    rcases h.notFull with ⟨hpc, hsize⟩ | ⟨hpc, hlist⟩ | ⟨hlist, hsize⟩
    · have hfull : s.pool.queueSize = s.pool.queueMaxSize := by
        simpa [Local.queueAssert, hpc, Threadpool.ring] using hassert
      exact .inl (hsize.trans hfull)
    · have hroom : s.pool.queueSize ≠ s.pool.queueMaxSize := by
        simpa [Local.queueAssert, hpc, Threadpool.ring] using hassert
      rw [hlist] at hp
      rcases hs p hp with hfull | ⟨w, u, hw, hu⟩
      · exact absurd hfull hroom
      · exact (hq.locks.worker_or_producer hw (by rw [hu]; rfl) hr (by rw [hpc]; rfl)).elim
    · rw [hlist] at hp
      exact (hs p hp).imp hsize.trans id
  | @admin c a σ' a' new ha h =>
    rw [h.notFull] at hp
    have hsize : σ'.queueSize = s.pool.queueSize := congrArg Ring.size h.ring
    exact (hs p hp).imp hsize.trans (exists_append new)
  | @destroy d σ' d' hd h =>
    rw [h.notFull] at hp
    have hsize : σ'.queueSize = s.pool.queueSize := congrArg Ring.size h.ring
    exact (hs p hp).imp hsize.trans id
  | wakeWorker => exact hs p hp
  | wakeProducer => exact hs p (List.mem_filter.mp hp).1

variable {c : Setup Fn Arg} {ls : List (Label Fn Arg)} {s : State Fn Arg}

theorem exec_sleepsWhileFull (h : Run.exec step (threadpoolCreate c) ls = some s) :
    SleepsWhileFull s ∧ ∃ q, QueueInv s q := by
  classical
  refine Run.invariant (I := fun m => SleepsWhileFull m ∧ ∃ q, QueueInv m q)
    ?_ ⟨fun _ h => absurd h List.not_mem_nil, [], create_queueInv c⟩ h
  rintro m l m' ⟨hm, q, hq⟩ hs
  obtain ⟨q', -, hq'⟩ := hq.step (step_cases hs)
  exact ⟨hm.step hq (step_cases hs), q', hq'⟩

theorem no_producer_asleep_with_room (hrun : Run.exec step (threadpoolCreate c) ls = some s)
    (hfree : s.pool.lock = none) {p : Nat} (hp : s.pool.Blocked (.producer p)) :
    s.pool.queueSize = c.queueMaxSize := by
  obtain ⟨hsleeps, q, hq⟩ := exec_sleepsWhileFull hrun
  have hmax : s.pool.queueMaxSize = c.queueMaxSize := (exec_constants hrun).1
  rw [← hmax]
  rcases hsleeps p hp with hfull | ⟨w, t, hw, ht⟩
  · exact hfull
  · have hheld : s.pool.lock = some (.worker w) :=
      hq.locks.lock (.worker w) (.worker t) (by simp [State.thread, hw])
        (by simp [Local.holdsLock, ht, WorkerPc.holdsLock])
    rw [hfree] at hheld
    cases hheld

theorem no_producer_asleep_with_room_full :
    ∃ s, Run.exec step (threadpoolCreate smallPool) (addTask 0 ⟨0, some 1⟩ none ++
        .call 1 ⟨0, some 2⟩ :: List.replicate 3 (.producer 1 none)) = some s ∧
      s.pool.Blocked (.producer 1) ∧ s.pool.queueSize = 1 := by
  obtain ⟨s, hs, hcond⟩ : ∃ s, Run.exec step (threadpoolCreate smallPool)
      (addTask 0 ⟨0, some 1⟩ none ++
        .call 1 ⟨0, some 2⟩ :: List.replicate 3 (.producer 1 none)) = some s ∧
        decide (s.pool.lock = none ∧ 1 ∈ s.pool.queueNotFull) = true :=
    (Option.any_eq_true _ _).mp (by decide +kernel)
  obtain ⟨hfree, hblocked⟩ := of_decide_eq_true hcond
  exact ⟨s, hs, hblocked, no_producer_asleep_with_room hs hfree hblocked⟩

end NotFull

section Stranded

/-- The worker is on its way out: it will not look at the queue again. -/
def WorkerPc.left : WorkerPc → Bool
  | .unlockExit _ | .exit _ | .exited _ => true
  | _ => false

def ProducerPc.outside : ProducerPc → Bool
  | .idle | .returned _ => true
  | _ => false

/-- A task is queued, and nobody is left awake who would ever look at it. -/
structure Stranded (s : State Fn Arg) : Prop where
  open_ : s.pool.shutdown = false
  queued : 0 < s.pool.queueSize
  producers : ∀ t ∈ s.producers, t.pc.outside = true
  admin : s.admin.pc ≠ .signalLoop
  workers : ∀ w (h : w < s.workers.length),
    s.workers[w].running = true → w ∈ s.pool.queueNotEmpty

/-- Some worker other than `w` stays, and while a task is queued one that is not asleep. -/
def StaysBesides (w : Nat) (s : State Fn Arg) : Prop :=
  ∃ (v : Nat) (u : Worker Fn Arg), s.workers[v]? = some u ∧
    v ≠ w ∧ u.pc.left = false ∧ (0 < s.pool.queueSize → v ∉ s.pool.queueNotEmpty)

/-- A worker that leaves, through the self-exit branch or because a task function ends the
thread, is not the last that would look at the queue. -/
def LeavesAnother (s : State Fn Arg) (l : Label Fn Arg) (s' : State Fn Arg) : Prop :=
  ∀ w e t t', l = .worker w e → s.workers[w]? = some t → s'.workers[w]? = some t' →
    t.pc.left = false → t'.pc.left = true → s.pool.shutdown = false → StaysBesides w s

def HasStayed (s : State Fn Arg) : Prop :=
  ∃ (w : Nat) (t : Worker Fn Arg), s.workers[w]? = some t ∧ t.pc.left = false

def HasAwake (s : State Fn Arg) : Prop :=
  ∃ (w : Nat) (t : Worker Fn Arg), s.workers[w]? = some t ∧
    t.pc.left = false ∧ w ∉ s.pool.queueNotEmpty

def HasSignalling (s : State Fn Arg) : Prop :=
  ∃ (p : Nat) (t : Producer Fn Arg), s.producers[p]? = some t ∧ t.pc = .signalNotEmpty

/-- Before shutdown some worker stays, and a queued task has a worker awake or a signal to
come. -/
structure Served (s : State Fn Arg) : Prop where
  waiters : Waiters s
  stayed : s.pool.shutdown = false → HasStayed s
  served : s.pool.shutdown = false → 0 < s.pool.queueSize → HasAwake s ∨ HasSignalling s

theorem Waiters.waiting {s : State Fn Arg} (hw : Waiters s) {w : Nat}
    (h : w ∈ s.pool.queueNotEmpty) : ∃ t, s.workers[w]? = some t ∧ t.pc = .waiting := by
  obtain ⟨b, hb, hwait⟩ := hw (.worker w) h
  obtain ⟨t, ht, rfl⟩ := Option.map_eq_some_iff.mp hb
  exact ⟨t, ht, by simpa [Local.waiting] using hwait⟩

theorem Waiters.not_mem {s : State Fn Arg} (hw : Waiters s) {w : Nat} {t : Worker Fn Arg}
    (ht : s.workers[w]? = some t) (hpc : t.pc ≠ .waiting) : w ∉ s.pool.queueNotEmpty := by
  intro h
  obtain ⟨u, hu, hwait⟩ := hw.waiting h
  rw [ht] at hu
  cases hu
  exact hpc hwait

theorem condSignal_cases {waiters waiters' : List Nat} {wake : Option Nat}
    (h : condSignal waiters wake = some waiters') :
    waiters = [] ∨ ∃ w ∈ waiters, w ∉ waiters' := by
  cases wake with
  | none =>
    simp only [condSignal] at h
    split at h <;> cases h
    exact .inl ‹_›
  | some w =>
    simp only [condSignal] at h
    split at h <;> cases h
    exact .inr ⟨w, ‹_›, by simp⟩

theorem WorkerStep.leaves {w : Nat} {e : Bool} {σ σ' : Threadpool Fn Arg}
    {t t' : Worker Fn Arg} (h : WorkerStep w σ e t σ' t') :
    (t'.pc.left = true ∧ σ'.queueSize = σ.queueSize ∧ σ'.queueNotEmpty = σ.queueNotEmpty) ∨
      (t.pc.left = false ∧ t'.pc.left = false ∧ (t'.pc = .waiting → t.pc = .wait) ∧
        (t.pc = .wait → σ'.queueSize = σ.queueSize)) := by
  cases h with
  | selfExit => exact .inl ⟨rfl, rfl, rfl⟩
  | seeShutdown => exact .inl ⟨rfl, rfl, rfl⟩
  | unlockExit => exact .inl ⟨rfl, rfl, rfl⟩
  | exit => exact .inl ⟨rfl, rfl, rfl⟩
  | taskExit => exact .inl ⟨rfl, rfl, rfl⟩
  | wait => exact .inr ⟨rfl, rfl, fun _ => rfl, fun _ => rfl⟩
  | _ => exact .inr ⟨rfl, rfl, nofun, nofun⟩

theorem ProducerStep.served {p : Nat} {wake : Option Nat} {σ σ' : Threadpool Fn Arg}
    {t t' : Producer Fn Arg} (h : ProducerStep p wake σ t σ' t') :
    t'.pc = .signalNotEmpty ∨ condSignal σ.queueNotEmpty wake = some σ'.queueNotEmpty ∨
      (t.pc ≠ .signalNotEmpty ∧ σ'.queueSize = σ.queueSize ∧
        σ'.queueNotEmpty = σ.queueNotEmpty) := by
  cases h with
  | put => exact .inl rfl
  | signalNotEmpty hwake => exact .inr (.inl hwake)
  | _ => exact .inr (.inr ⟨nofun, rfl, rfl⟩)

theorem AdminStep.notEmpty {c : AdminChoice} {ws new : List (Worker Fn Arg)}
    {σ σ' : Threadpool Fn Arg} {a a' : Admin} (h : AdminStep c ws σ a σ' a' new) :
    σ'.queueNotEmpty ⊆ σ.queueNotEmpty ∧ σ'.shutdown = σ.shutdown := by
  cases h with
  | signal hi hwake => exact ⟨condSignal_subset hwake, rfl⟩
  | _ => exact ⟨List.Subset.refl _, rfl⟩

theorem DestroyerStep.notEmpty {ws : List (Worker Fn Arg)} {admin : Admin}
    {σ σ' : Threadpool Fn Arg} {d d' : Destroyer} (h : DestroyerStep ws admin σ d σ' d') :
    σ'.queueNotEmpty ⊆ σ.queueNotEmpty := by
  cases h with
  | broadcast => exact List.nil_subset _
  | _ => exact List.Subset.refl _

theorem Step.shutdown {s s' : State Fn Arg} {l : Label Fn Arg} (h : Step s l s')
    (hsh : s.pool.shutdown = true) : s'.pool.shutdown = true := by
  rcases h.turn with hw | ⟨t, b, b', hturn, -⟩
  · rw [hw.pool]
    exact hsh
  · exact hturn.shutdown hsh

theorem Step.open_of_open {s s' : State Fn Arg} {l : Label Fn Arg} (h : Step s l s')
    (hopen : s'.pool.shutdown = false) : s.pool.shutdown = false := by
  by_contra hsh
  rw [h.shutdown (by simpa using hsh)] at hopen
  cases hopen

theorem HasAwake.mono {s s' : State Fn Arg} (h : HasAwake s) (new : List (Worker Fn Arg))
    (hworkers : s'.workers = s.workers ++ new)
    (hlist : s'.pool.queueNotEmpty ⊆ s.pool.queueNotEmpty) : HasAwake s' := by
  obtain ⟨w, t, ht, hleft, hmem⟩ := h
  obtain ⟨hlt, -⟩ := List.getElem?_eq_some_iff.mp ht
  exact ⟨w, t, by rw [hworkers, List.getElem?_append_left hlt, ht], hleft,
    fun h => hmem (hlist h)⟩

theorem HasStayed.signal {s : State Fn Arg} (h : HasStayed s) (hw : Waiters s)
    {wake : Option Nat} {waiters : List Nat}
    (hwake : condSignal s.pool.queueNotEmpty wake = some waiters) :
    ∃ (w : Nat) (t : Worker Fn Arg), s.workers[w]? = some t ∧ t.pc.left = false ∧
      w ∉ waiters := by
  rcases condSignal_cases hwake with hnil | ⟨w, hmem, hnot⟩
  · obtain ⟨w, t, ht, hleft⟩ := h
    have hsub := condSignal_subset hwake
    rw [hnil] at hsub
    exact ⟨w, t, ht, hleft, fun hmem => absurd (hsub hmem) List.not_mem_nil⟩
  · obtain ⟨t, ht, hpc⟩ := hw.waiting hmem
    exact ⟨w, t, ht, by rw [hpc]; rfl, hnot⟩

/-- A worker that leaves has another one beside it; a worker that stays is awake, unless it goes to
sleep over an empty queue. -/
theorem Served.worker {s : State Fn Arg} {q : List (ThreadpoolTask Fn Arg)} (hs : Served s)
    (hq : QueueInv s q) {w : Nat} {e : Bool} {t t' : Worker Fn Arg} {σ' : Threadpool Fn Arg}
    (hw : s.workers[w]? = some t) (h : WorkerStep w s.pool e t σ' t')
    (hbesides : t.pc.left = false → t'.pc.left = true → s.pool.shutdown = false →
      StaysBesides w s) :
    Served { s with pool := σ', workers := s.workers.set w t' } := by
  have hstep : Step s (.worker w e) { s with pool := σ', workers := s.workers.set w t' } :=
    .worker hw h
  have hwaiters := hs.waiters.step hstep
  have hopen : σ'.shutdown = false → s.pool.shutdown = false := hstep.open_of_open
  have hw' : (s.workers.set w t')[w]? = some t' := getElem?_set_of_some hw t'
  refine ⟨hwaiters, fun hsh => ?_, fun hsh hsize => ?_⟩
  · cases ht' : t'.pc.left with
    | false => exact ⟨w, t', hw', ht'⟩
    | true =>
      cases ht : t.pc.left with
      | false =>
        obtain ⟨v, u, hv, hne, hu, -⟩ := hbesides ht ht' (hopen hsh)
        exact ⟨v, u, by rwa [List.getElem?_set_ne hne.symm], hu⟩
      | true =>
        exact exists_set (P := fun _ (u : Worker Fn Arg) => u.pc.left = false) hw
          (fun h => by rw [ht] at h; cases h) (hs.stayed (hopen hsh))
  · rcases h.leaves with ⟨ht', hsame, hlist⟩ | ⟨ht, ht', hwait, hsame⟩
    · have hsize' : 0 < s.pool.queueSize := hsame ▸ hsize
      cases ht : t.pc.left with
      | false =>
        obtain ⟨v, u, hv, hne, hu, hawake⟩ := hbesides ht ht' (hopen hsh)
        refine .inl ⟨v, u, by rwa [List.getElem?_set_ne hne.symm], hu, ?_⟩
        rw [hlist]
        exact hawake hsize'
      | true =>
        refine (hs.served (hopen hsh) hsize').imp (fun hawake => ?_) id
        obtain ⟨v, u, hv, hu, hmem⟩ := hawake
        have hne : w ≠ v := by
          rintro rfl
          rw [hw] at hv
          cases hv
          rw [ht] at hu
          cases hu
        exact ⟨v, u, by rwa [List.getElem?_set_ne hne], hu, by rwa [hlist]⟩
    · refine .inl ⟨w, t', hw', ht', hwaiters.not_mem hw' fun hwaiting => ?_⟩
      have hpc : t.pc = .wait := hwait hwaiting
      have hempty : s.pool.ring.size = 0 := by
        have hassert := hq.asserts (.worker w) (.worker t) (by simp [State.thread, hw])
        simpa [Local.queueAssert, hpc] using hassert
      rw [show σ'.queueSize = s.pool.ring.size from hsame hpc, hempty] at hsize
      exact absurd hsize (Int.lt_irrefl 0)

theorem Served.producer {s : State Fn Arg} (hs : Served s) {p : Nat} {wake : Option Nat}
    {t t' : Producer Fn Arg} {σ' : Threadpool Fn Arg} (hp : s.producers[p]? = some t)
    (h : ProducerStep p wake s.pool t σ' t') :
    Served { s with pool := σ', producers := s.producers.set p t' } := by
  have hstep : Step s (.producer p wake)
      { s with pool := σ', producers := s.producers.set p t' } := .producer hp h
  have hopen : σ'.shutdown = false → s.pool.shutdown = false := hstep.open_of_open
  refine ⟨hs.waiters.step hstep, fun hsh => hs.stayed (hopen hsh), fun hsh hsize => ?_⟩
  rcases h.served with hput | hwake | ⟨hpc, hsame, hlist⟩
  · exact .inr (exists_set_self (P := fun _ (u : Producer Fn Arg) => u.pc = .signalNotEmpty)
      hp hput)
  · exact .inl ((hs.stayed (hopen hsh)).signal hs.waiters hwake)
  · rcases hs.served (hopen hsh) (hsame ▸ hsize) with hawake | hsignal
    · exact .inl (hawake.mono [] (by simp) (hlist ▸ List.Subset.refl _))
    · exact .inr (exists_set (P := fun _ (u : Producer Fn Arg) => u.pc = .signalNotEmpty) hp
        (fun h => absurd h hpc) hsignal)

theorem Served.step {s s' : State Fn Arg} {l : Label Fn Arg}
    {q : List (ThreadpoolTask Fn Arg)} (hs : Served s) (hq : QueueInv s q) (h : Step s l s')
    (hl : LeavesAnother s l s') : Served s' := by
  have hwaiters : Waiters s' := hs.waiters.step h
  have hopen : s'.pool.shutdown = false → s.pool.shutdown = false := h.open_of_open
  cases h with
  | @worker w e t σ' t' hw h =>
    exact hs.worker hq hw h (hl w e t t' rfl hw (getElem?_set_of_some hw t'))
  | @call p task t hp hpc =>
    refine ⟨hwaiters, hs.stayed, fun hsh hsize => (hs.served hsh hsize).imp id fun h => ?_⟩
    exact exists_set (P := fun _ (u : Producer Fn Arg) => u.pc = .signalNotEmpty) hp
      (fun h => by rcases hpc with hpc | ⟨n, hpc⟩ <;> rw [hpc] at h <;> cases h) h
  | producer hp h => exact hs.producer hp h
  | @admin c a σ' a' new ha h =>
    have hsize' : σ'.queueSize = s.pool.queueSize := congrArg Ring.size h.ring
    refine ⟨hwaiters, fun hsh => exists_append new (hs.stayed (hopen hsh)), fun hsh hsize => ?_⟩
    exact (hs.served (hopen hsh) (hsize' ▸ hsize)).imp
      (fun hawake => hawake.mono new rfl h.notEmpty.1) id
  | @destroy d σ' d' hd h =>
    have hsize' : σ'.queueSize = s.pool.queueSize := congrArg Ring.size h.ring
    refine ⟨hwaiters, fun hsh => hs.stayed (hopen hsh), fun hsh hsize => ?_⟩
    exact (hs.served (hopen hsh) (hsize' ▸ hsize)).imp
      (fun hawake => hawake.mono [] (by simp) h.notEmpty) id
  | wakeWorker =>
    exact ⟨hwaiters, hs.stayed, fun hsh hsize => (hs.served hsh hsize).imp
      (fun hawake => hawake.mono [] (by simp) List.filter_sublist.subset) id⟩
  | wakeProducer => exact ⟨hwaiters, hs.stayed, hs.served⟩

variable {c : Setup Fn Arg} {ls : List (Label Fn Arg)} {s : State Fn Arg}

theorem create_served (hstarted : ∃ r ∈ c.started, r.tid?.isSome = true) :
    Served (threadpoolCreate c) where
  waiters := create_waiters c
  stayed _ := by
    obtain ⟨r, hmem, hsome⟩ := hstarted
    obtain ⟨tid, htid⟩ := Option.isSome_iff_exists.mp hsome
    have hstart : Worker.start tid ∈ (threadpoolCreate c).workers :=
      List.mem_map.mpr ⟨tid, List.mem_filterMap.mpr ⟨_, hmem, htid⟩, rfl⟩
    obtain ⟨w, hw⟩ := List.getElem?_of_mem hstart
    exact ⟨w, Worker.start tid, hw, rfl⟩
  served _ hsize := absurd hsize (Int.lt_irrefl 0)

theorem exec_served (hstarted : ∃ r ∈ c.started, r.tid?.isSome = true)
    (hleaves : Run.Always step LeavesAnother (threadpoolCreate c) ls)
    (hrun : Run.exec step (threadpoolCreate c) ls = some s) : Served s ∧ ∃ q, QueueInv s q := by
  classical
  refine Run.invariant_of_always (I := fun m => Served m ∧ ∃ q, QueueInv m q) ?_
    ⟨create_served hstarted, [], create_queueInv c⟩ hleaves hrun
  rintro m l m' ⟨hm, q, hq⟩ hs hl
  obtain ⟨q', -, hq'⟩ := hq.step (step_cases hs)
  exact ⟨hm.step hq (step_cases hs) hl, q', hq'⟩

theorem no_task_stranded (hstarted : ∃ r ∈ c.started, r.tid?.isSome = true)
    (hleaves : Run.Always step LeavesAnother (threadpoolCreate c) ls)
    (hrun : Run.exec step (threadpoolCreate c) ls = some s) : ¬ Stranded s := by
  intro hstranded
  obtain ⟨hserved, -⟩ := exec_served hstarted hleaves hrun
  rcases hserved.served hstranded.open_ hstranded.queued with hawake | ⟨p, t, hp, hpc⟩
  · obtain ⟨w, t, hw, hleft, hmem⟩ := hawake
    obtain ⟨hlt, rfl⟩ := List.getElem?_eq_some_iff.mp hw
    refine hmem (hstranded.workers w hlt ?_)
    rw [Worker.running]
    split
    · next why hpc => rw [hpc] at hleft; cases hleft
    · rfl
  · have houtside := hstranded.producers t (List.mem_of_getElem? hp)
    rw [hpc] at houtside
    cases houtside

theorem no_task_stranded_one_task :
    ∃ s, Run.exec step (threadpoolCreate smallPool) (addTask 0 ⟨0, some 1⟩ none) = some s ∧
      ¬ Stranded s := by
  obtain ⟨s, hs⟩ : ∃ s, Run.exec step (threadpoolCreate smallPool)
      (addTask 0 ⟨0, some 1⟩ none) = some s :=
    Option.isSome_iff_exists.mp (by decide +kernel)
  refine ⟨s, hs, no_task_stranded (by decide) ?_ hs⟩
  apply Run.always_of_mem
  simp [addTask, LeavesAnother]

instance (s : State Fn Arg) : Decidable (Stranded s) :=
  decidable_of_iff (s.pool.shutdown = false ∧ 0 < s.pool.queueSize ∧
      (∀ t ∈ s.producers, t.pc.outside = true) ∧ s.admin.pc ≠ .signalLoop ∧
      ∀ w (h : w < s.workers.length),
        s.workers[w].running = true → w ∈ s.pool.queueNotEmpty)
    ⟨fun ⟨h, hq, hp, ha, hw⟩ => ⟨h, hq, hp, ha, hw⟩, fun ⟨h, hq, hp, ha, hw⟩ => ⟨h, hq, hp, ha, hw⟩⟩

/-- The queue has grown a second worker and drains; the exit tokens of a shrink round that
found nobody asleep are still there.  The two workers go to sleep, the signal for a fifth task
wakes worker 0, and worker 0 takes a token instead of the task. -/
def strandingRun : List (Label Nat Nat) :=
  growRun ++ adminSteps 21 ++ workerSteps 0 55 ++ workerSteps 1 3 ++
    addTask 0 ⟨0, some 5⟩ (some 0) ++ workerSteps 0 4

theorem exit_token_strands_task :
    ∃ s, Run.exec step (threadpoolCreate growPool) strandingRun = some s ∧ Stranded s := by
  obtain ⟨s, hs, hstranded⟩ : ∃ s, Run.exec step (threadpoolCreate growPool) strandingRun =
      some s ∧ decide (Stranded s) = true :=
    (Option.any_eq_true _ _).mp (by decide +kernel)
  exact ⟨s, hs, of_decide_eq_true hstranded⟩

end Stranded

end LearnCLinux.ThreadPool
