import LearnCLinux.ThreadPool.Accounting
import LearnCLinux.ThreadPool.Ownership

/-! Where an accepted task is: finished, in the hands of one worker, or in the queue.  From this
follow a bound on the backlog and, for a pool of one worker, the order of the functions. -/

universe u v

namespace LearnCLinux.ThreadPool

open Threads

variable {Fn : Type u} {Arg : Type v}

def finished (c : Setup Fn Arg) (ls : List (Label Fn Arg)) : List (ThreadpoolTask Fn Arg) :=
  (events c ls).filterMap Event.finished

/-- The tasks taken and not finished, one for each worker that has one. -/
def State.inHand (s : State Fn Arg) : List (ThreadpoolTask Fn Arg) :=
  s.workers.filterMap Worker.inHand

def State.queued (s : State Fn Arg) : List (ThreadpoolTask Fn Arg) := s.pool.ring.contents

/-- The tasks that `threadpool_free` has given back with the queue. -/
def State.dropped (s : State Fn Arg) : List (ThreadpoolTask Fn Arg) :=
  if s.pool.allocated = true then [] else s.queued

def State.takeable (s : State Fn Arg) : List (ThreadpoolTask Fn Arg) :=
  if s.pool.allocated = true then s.queued else []

section Conservation

variable {c : Setup Fn Arg} {ls ks : List (Label Fn Arg)} {s s' : State Fn Arg}

theorem count_inHand [BEq (ThreadpoolTask Fn Arg)] (s : State Fn Arg)
    (task : ThreadpoolTask Fn Arg) :
    s.inHand.count task = s.workers.countP fun t => t.inHand.any (· == task) := by
  rw [State.inHand, List.count_filterMap]
  congr 1
  funext t
  cases t.inHand <;> simp

theorem exec_taken (hrun : Run.exec step (threadpoolCreate c) ls = some s) :
    accepted c ls = taken c ls ++ s.queued := by
  classical
  obtain ⟨q, hq, hinv⟩ := exec_queueInv c hrun
  rw [State.queued, hinv.ring.contents_eq, accepted_eq_taken hq]

theorem taken_perm (hrun : Run.exec step (threadpoolCreate c) ls = some s) :
    (taken c ls).Perm (finished c ls ++ s.inHand) := by
  classical
  rw [List.perm_iff_count]
  intro task
  have hbalance := exec_takenBalance (· == task) hrun
  rw [List.count_append, count_inHand, taken_eq]
  exact hbalance

theorem queued_eq (s : State Fn Arg) : s.queued = s.takeable ++ s.dropped := by
  rw [State.takeable, State.dropped]
  split
  · exact (List.append_nil _).symm
  · rfl

theorem Step.dropped {l : Label Fn Arg} (h : Step s l s') (hfreed : s.pool.allocated = false) :
    s'.pool.allocated = false ∧ s'.dropped = s.dropped := by
  cases h with
  | worker _ h =>
    cases h with
    | take _ halloc => cases halloc.symm.trans hfreed
    | _ => exact ⟨hfreed, rfl⟩
  | producer _ h =>
    cases h with
    | release _ halloc => cases halloc.symm.trans hfreed
    | put halloc => cases halloc.symm.trans hfreed
    | _ => exact ⟨hfreed, rfl⟩
  | admin _ h => cases h <;> exact ⟨hfreed, rfl⟩
  | destroy _ h =>
    cases h with
    | free => exact ⟨rfl, by simp only [State.dropped, hfreed]; rfl⟩
    | _ => exact ⟨hfreed, rfl⟩
  | _ => exact ⟨hfreed, rfl⟩

/-- Nothing accepted is lost, run twice or made up until `threadpool_free` gives the queue back, and
what it drops with it nobody runs any more. -/
theorem tasks_conserved (hrun : Run.exec step (threadpoolCreate c) ls = some s) :
    (accepted c ls).Perm (finished c ls ++ s.inHand ++ s.takeable ++ s.dropped) ∧
      (s.pool.allocated = false → ∀ ks s', Run.exec step s ks = some s' →
        s'.takeable = [] ∧ s'.dropped = s.dropped) := by
  constructor
  · rw [exec_taken hrun, queued_eq, List.append_assoc (finished c ls ++ s.inHand)]
    exact (taken_perm hrun).append_right _
  · intro hfreed ks s' hks
    obtain ⟨hfreed', hdropped⟩ := Run.invariant
      (I := fun m => m.pool.allocated = false ∧ m.dropped = s.dropped)
      (fun m l m' hm hl => (step_cases hl).dropped hm.1 |>.imp_right fun h => h.trans hm.2)
      ⟨hfreed, rfl⟩ hks
    exact ⟨if_neg (by simp [hfreed']), hdropped⟩

def twoTasksRun (n : Nat) : List (Label Nat Nat) :=
  addTask 0 ⟨0, some 1⟩ none ++ workerSteps 0 n ++ addTask 1 ⟨0, some 2⟩ none

theorem tasks_conserved_two_tasks :
    ∃ s, Run.exec step (threadpoolCreate smallPool) (twoTasksRun 13) = some s ∧
      s.takeable = [⟨0, some 2⟩] ∧ (accepted smallPool (twoTasksRun 13)).Perm
        (finished smallPool (twoTasksRun 13) ++ s.inHand ++ s.takeable ++ s.dropped) := by
  obtain ⟨s, hs, hqueued⟩ : ∃ s, Run.exec step (threadpoolCreate smallPool) (twoTasksRun 13) =
      some s ∧ decide (s.takeable = [⟨0, some 2⟩]) = true :=
    (Option.any_eq_true _ _).mp (by decide +kernel)
  exact ⟨s, hs, of_decide_eq_true hqueued, (tasks_conserved hs).1⟩

end Conservation

section Backlog

variable {c : Setup Fn Arg} {ls : List (Label Fn Arg)} {s : State Fn Arg}

theorem Worker.inHand_of_selfExited {t : Worker Fn Arg} (h : t.pc.selfExited = true) :
    t.inHand = none := by
  obtain ⟨tid, pc, task⟩ := t
  cases pc <;> simp_all [WorkerPc.selfExited, Worker.inHand, WorkerPc.inTask]

theorem length_inHand_le (s : State Fn Arg) : s.inHand.length ≤ s.liveWorkers := by
  rw [State.inHand, List.length_filterMap_eq_countP]
  refine List.countP_mono_left fun t _ hsome => ?_
  by_contra hself
  rw [Worker.inHand_of_selfExited (by simpa using hself)] at hsome
  cases hsome

theorem exec_surplus_nonneg (hrun : Run.exec step (threadpoolCreate c) ls = some s) :
    0 ≤ s.surplus := by
  refine Run.invariant (I := fun m => 0 ≤ m.surplus) (fun m l m' hm hs => ?_)
    (create_surplus_nonneg c) hrun
  rw [(step_cases hs).surplus]
  omega

theorem liveWorkers_le (hmin : c.minThrNum ≤ c.maxThrNum)
    (hrun : Run.exec step (threadpoolCreate c) ls = some s) : s.liveWorkers ≤ c.maxThrNum := by
  have hmax : s.pool.maxThrNum = c.maxThrNum := (exec_constants hrun).2.2
  have hle := (exec_bounded hmin hrun).live_le
  have hsurplus := exec_surplus_nonneg hrun
  rw [State.surplus] at hsurplus
  omega

theorem length_queued_le (hrun : Run.exec step (threadpoolCreate c) ls = some s) :
    s.queued.length ≤ c.queueMaxSize := by
  classical
  obtain ⟨q, -, hinv⟩ := exec_queueInv c hrun
  have hcap : s.pool.ring.capacity = c.queueMaxSize := (exec_constants hrun).1
  rw [State.queued, hinv.ring.contents_eq, ← hcap]
  exact hinv.ring.length_le

/-- What has been accepted and is not finished fits in the queue and the workers' hands, however
fast the producers are. -/
theorem backlog_le (hmin : c.minThrNum ≤ c.maxThrNum)
    (hrun : Run.exec step (threadpoolCreate c) ls = some s) :
    (accepted c ls).length ≤ (finished c ls).length + c.maxThrNum + c.queueMaxSize := by
  have htaken := (taken_perm hrun).length_eq
  have hhand := (length_inHand_le s).trans (liveWorkers_le hmin hrun)
  have hqueue := length_queued_le hrun
  rw [List.length_append] at htaken
  rw [exec_taken hrun, List.length_append]
  omega

/-- One task runs and another fills the queue. -/
theorem backlog_le_full :
    (accepted smallPool (twoTasksRun 11)).length = 2 ∧
    (accepted smallPool (twoTasksRun 11)).length ≤
      (finished smallPool (twoTasksRun 11)).length + 1 + 1 := by
  obtain ⟨s, hs⟩ : ∃ s, Run.exec step (threadpoolCreate smallPool) (twoTasksRun 11) = some s :=
    Option.isSome_iff_exists.mp (by decide +kernel)
  exact ⟨by decide +kernel, backlog_le (Nat.le_refl 1) hs⟩

end Backlog

section Order

variable {c : Setup Fn Arg} {ls : List (Label Fn Arg)} {s s' : State Fn Arg}

/-- The worker that has not left by the self-exit branch has all that is in hand. -/
theorem inHand_eq_of_live {w : Nat} {t : Worker Fn Arg} (hone : s.liveWorkers ≤ 1)
    (hw : s.workers[w]? = some t) (ht : t.pc.selfExited = false) :
    s.inHand = t.inHand.toList := by
  have hcount : s.workers.countP (fun u => !u.pc.selfExited) ≤ 1 := hone
  refine filterMap_eq_of_unique (fun u hu => ?_) hcount hw (by simp [ht])
  exact Worker.inHand_of_selfExited (by simpa using hu)

theorem Worker.events_order {w : Nat} {e : Bool} {σ σ' : Threadpool Fn Arg}
    {t t' : Worker Fn Arg} (h : WorkerStep w σ e t σ' t') :
    (t'.inHand = t.inHand ∧ (t.events w t').filterMap Event.taken = [] ∧
        (t.events w t').filterMap Event.finished = []) ∨
      (t.pc.selfExited = false ∧ t'.pc.selfExited = false ∧
        t.inHand.toList ++ (t.events w t').filterMap Event.taken =
          (t.events w t').filterMap Event.finished ++ t'.inHand.toList) := by
  cases h with
  | take => exact .inr ⟨rfl, rfl, rfl⟩
  | @taskReturn tid task => cases task <;> exact .inr ⟨rfl, rfl, rfl⟩
  | _ => exact .inl ⟨rfl, rfl, rfl⟩

/-- What was taken is finished in the same order, up to what is in hand. -/
def InOrder (tr : List (Event Fn Arg)) (s : State Fn Arg) : Prop :=
  tr.filterMap Event.taken = tr.filterMap Event.finished ++ s.inHand

theorem InOrder.step {tr : List (Event Fn Arg)} {l : Label Fn Arg} (ho : InOrder tr s)
    (h : Step s l s') (hone : s.liveWorkers ≤ 1) (hone' : s'.liveWorkers ≤ 1) :
    InOrder (tr ++ observe s l s') s' := by
  rw [InOrder] at ho
  rw [InOrder, List.filterMap_append, List.filterMap_append, ho]
  cases h with
  | @worker w e t σ' t' hw h =>
    have hw' : (s.workers.set w t')[w]? = some t' := getElem?_set_of_some hw t'
    rw [observe_worker hw hw']
    rcases Worker.events_order h with ⟨hsame, htaken, hfinished⟩ | ⟨hlive, hlive', hevents⟩
    · rw [htaken, hfinished, List.append_nil, List.append_nil]
      congr 1
      exact (filterMap_set_of_eq hw hsame).symm
    · rw [inHand_eq_of_live hone hw hlive, inHand_eq_of_live hone' hw' hlive']
      rw [List.append_assoc, hevents, List.append_assoc]
  | @producer p wake t σ' t' hp h =>
    obtain ⟨htaken, hfinished, -⟩ := Producer.events_taken s.pool t
    rw [observe_producer hp, htaken, hfinished, List.append_nil, List.append_nil]
    rfl
  | @admin c a σ' a' new ha h =>
    have hnew : new.filterMap Worker.inHand = [] := by
      refine List.filterMap_eq_nil_iff.mpr fun t ht => ?_
      obtain ⟨tid, rfl⟩ := h.new_start t ht
      rfl
    simp [observe, State.inHand, List.filterMap_append, hnew]
  | _ => simp [observe, State.inHand, List.filterMap_cons, Event.taken, Event.finished]

/-- With one worker at most the functions run one after the other, in the order in which
`threadpool_add_task` accepted them. -/
theorem one_worker_in_order (hmin : c.minThrNum ≤ c.maxThrNum) (hone : c.maxThrNum ≤ 1)
    (hrun : Run.exec step (threadpoolCreate c) ls = some s) :
    accepted c ls = finished c ls ++ s.inHand ++ s.queued ∧ s.inHand.length ≤ 1 := by
  have hlive : ∀ {ks m}, Run.exec step (threadpoolCreate c) ks = some m → m.liveWorkers ≤ 1 :=
    fun hks => (liveWorkers_le hmin hks).trans hone
  have halways : Run.Always step (fun m _ m' => m.liveWorkers ≤ 1 ∧ m'.liveWorkers ≤ 1)
      (threadpoolCreate c) ls := by
    refine Run.always_iff.mpr fun ks l ms m m' _ hks hm => ⟨hlive hks, ?_⟩
    have hnext : Run.exec step m [l] = some m' := Run.exec_cons.mpr ⟨m', hm, rfl⟩
    exact hlive (Run.exec_append.mpr ⟨m, hks, hnext⟩)
  have horder : InOrder (events c ls) s := by
    refine Run.trace_invariant (I := InOrder) observe
      (fun _ _ _ _ hm hs hl => hm.step (step_cases hs) hl.1 hl.2) [] ?_ halways hrun
    have hnone : (threadpoolCreate c).inHand = [] := by
      refine List.filterMap_eq_nil_iff.mpr fun t ht => ?_
      obtain ⟨tid, rfl⟩ := create_workers_start c ht
      rfl
    rw [InOrder, hnone]
    rfl
  refine ⟨?_, (length_inHand_le s).trans (hlive hrun)⟩
  rw [exec_taken hrun, taken_eq, horder]
  rfl

theorem one_worker_in_order_second :
    ∃ s, Run.exec step (threadpoolCreate smallPool) (twoTasksRun 13 ++ workerSteps 0 5) = some s ∧
      s.inHand = [⟨0, some 2⟩] ∧ accepted smallPool (twoTasksRun 13 ++ workerSteps 0 5) =
        finished smallPool (twoTasksRun 13 ++ workerSteps 0 5) ++ s.inHand ++ s.queued := by
  obtain ⟨s, hs, hhand⟩ : ∃ s, Run.exec step (threadpoolCreate smallPool)
      (twoTasksRun 13 ++ workerSteps 0 5) = some s ∧ decide (s.inHand = [⟨0, some 2⟩]) = true :=
    (Option.any_eq_true _ _).mp (by decide +kernel)
  exact ⟨s, hs, of_decide_eq_true hhand,
    (one_worker_in_order (Nat.le_refl 1) (Nat.le_refl 1) hs).1⟩

end Order

end LearnCLinux.ThreadPool
