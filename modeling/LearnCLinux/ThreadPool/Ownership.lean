import Mathlib.Data.List.Nodup
import LearnCLinux.ThreadPool.Queue

/-! Who still needs an argument when `threadpool_add_task` frees it.  The books balance at every
step: what was taken is what was finished and what some worker has in hand. -/

universe u v

namespace LearnCLinux.ThreadPool

open Threads

variable {Fn : Type u} {Arg : Type v}

def Event.called : Event Fn Arg → Option (ThreadpoolTask Fn Arg)
  | .call task => some task
  | _ => none

def Event.accepted : Event Fn Arg → Option (ThreadpoolTask Fn Arg)
  | .accept task => some task
  | _ => none

def Event.taken : Event Fn Arg → Option (ThreadpoolTask Fn Arg)
  | .take _ task => some task
  | _ => none

def Event.finished : Event Fn Arg → Option (ThreadpoolTask Fn Arg)
  | .finish _ task => some task
  | _ => none

def events (c : Setup Fn Arg) (ls : List (Label Fn Arg)) : List (Event Fn Arg) :=
  Run.trace step observe (threadpoolCreate c) ls

theorem puts_queue (es : List (Event Fn Arg)) :
    Fifo.puts (es.filterMap Event.queue) = es.filterMap Event.accepted := by
  induction es with
  | nil => rfl
  | cons e es ih =>
    cases e <;> simp [List.filterMap_cons, Event.queue, Event.accepted, Fifo.puts, ih]

theorem takes_queue (es : List (Event Fn Arg)) :
    Fifo.takes (es.filterMap Event.queue) = es.filterMap Event.taken := by
  induction es with
  | nil => rfl
  | cons e es ih =>
    cases e <;> simp [List.filterMap_cons, Event.queue, Event.taken, Fifo.takes, ih]

theorem queueEvents_trace (c : Setup Fn Arg) (ls : List (Label Fn Arg)) :
    Run.trace step queueEvents (threadpoolCreate c) ls = (events c ls).filterMap Event.queue :=
  Run.trace_filterMap Event.queue step observe _ ls

theorem accepted_eq (c : Setup Fn Arg) (ls : List (Label Fn Arg)) :
    accepted c ls = (events c ls).filterMap Event.accepted := by
  rw [accepted, queueEvents_trace, puts_queue]

theorem taken_eq (c : Setup Fn Arg) (ls : List (Label Fn Arg)) :
    taken c ls = (events c ls).filterMap Event.taken := by
  rw [taken, queueEvents_trace, takes_queue]

/-- From the copy out of the queue to the return of the function.  A task function that ends its
thread never returns. -/
def WorkerPc.inTask : WorkerPc → Bool
  | .broadcastNotFull | .unlock | .lockBusy | .incBusy | .unlockBusy | .run => true
  | .unlockExit why | .exit why | .exited why => why = .task
  | _ => false

def Worker.inHand (t : Worker Fn Arg) : Option (ThreadpoolTask Fn Arg) :=
  if t.pc.inTask then t.task else none

def ProducerPc.inFlight : ProducerPc → Bool
  | .lock | .testFull | .wait | .waiting | .testShutdown | .clearArg | .put => true
  | _ => false

/-- The task the producer may still put in the queue. -/
def Producer.offer (t : Producer Fn Arg) : Option (ThreadpoolTask Fn Arg) :=
  if t.pc.inFlight then t.task else none

section Balance

variable (P : ThreadpoolTask Fn Arg → Bool)

theorem Worker.events_balance {w : Nat} {e : Bool} {σ σ' : Threadpool Fn Arg}
    {t t' : Worker Fn Arg} (h : WorkerStep w σ e t σ' t') :
    ((t.events w t').filterMap Event.taken).countP P + (if t.inHand.any P then 1 else 0) =
      ((t.events w t').filterMap Event.finished).countP P +
        (if t'.inHand.any P then 1 else 0) := by
  cases h with
  | take => simp [Worker.events, Worker.inHand, WorkerPc.inTask, Event.taken, Event.finished]
  | @taskReturn tid task =>
    cases task <;>
      simp [Worker.events, Worker.inHand, WorkerPc.inTask, Event.taken, Event.finished]
  | _ => simp [Worker.events, Worker.inHand, WorkerPc.inTask]

theorem Worker.events_accepted (w : Nat) (t t' : Worker Fn Arg) :
    (t.events w t').filterMap Event.accepted = [] ∧
      (t.events w t').filterMap Event.called = [] := by
  rw [Worker.events]
  split
  · cases t'.task <;> exact ⟨rfl, rfl⟩
  · cases t.task <;> exact ⟨rfl, rfl⟩
  · exact ⟨rfl, rfl⟩

theorem Producer.events_taken (σ : Threadpool Fn Arg) (t : Producer Fn Arg) :
    (t.events σ).filterMap Event.taken = [] ∧ (t.events σ).filterMap Event.finished = [] ∧
      (t.events σ).filterMap Event.called = [] ∧
      (t.events σ).filterMap Event.accepted = if t.pc = .put then t.task.toList else [] := by
  obtain ⟨pc, task⟩ := t
  cases pc with
  | put => cases task <;> exact ⟨rfl, rfl, rfl, rfl⟩
  | clearArg =>
    simp only [Producer.events]
    split
    · exact ⟨rfl, rfl, rfl, rfl⟩
    · next slot _ =>
      cases slot.arg <;> exact ⟨rfl, rfl, rfl, rfl⟩
  | _ => exact ⟨rfl, rfl, rfl, rfl⟩

theorem ProducerStep.offer {p : Nat} {wake : Option Nat} {σ σ' : Threadpool Fn Arg}
    {t t' : Producer Fn Arg} (h : ProducerStep p wake σ t σ' t') :
    ((t.events σ).filterMap Event.accepted).countP P + (if t'.offer.any P then 1 else 0) ≤
      if t.offer.any P then 1 else 0 := by
  rw [(Producer.events_taken σ t).2.2.2]
  cases h <;> simp [Producer.offer, ProducerPc.inFlight]

theorem observe_worker {w : Nat} {e : Bool} {s s' : State Fn Arg} {t t' : Worker Fn Arg}
    (ht : s.workers[w]? = some t) (ht' : s'.workers[w]? = some t') :
    observe s (.worker w e) s' = t.events w t' := by
  simp only [observe, ht, ht']

theorem observe_producer {p : Nat} {wake : Option Nat} {s s' : State Fn Arg}
    {t : Producer Fn Arg} (ht : s.producers[p]? = some t) :
    observe s (.producer p wake) s' = t.events s.pool := by
  simp only [observe, ht]

/-- What was taken is finished or in some worker's hands. -/
def TakenBalance (tr : List (Event Fn Arg)) (s : State Fn Arg) : Prop :=
  (tr.filterMap Event.taken).countP P =
    (tr.filterMap Event.finished).countP P + s.workers.countP fun t => t.inHand.any P

theorem TakenBalance.step {tr : List (Event Fn Arg)} {s s' : State Fn Arg} {l : Label Fn Arg}
    (hb : TakenBalance P tr s) (h : Step s l s') : TakenBalance P (tr ++ observe s l s') s' := by
  simp only [TakenBalance, List.filterMap_append, List.countP_append] at hb ⊢
  cases h with
  | @worker w e t σ' t' hw h =>
    have hw' : (s.workers.set w t')[w]? = some t' := getElem?_set_of_some hw t'
    have hcount := countP_set_add (fun u => u.inHand.any P) hw t'
    have hstep := Worker.events_balance P h
    rw [observe_worker hw hw']
    dsimp only
    omega
  | @producer p wake t σ' t' hp h =>
    obtain ⟨htaken, hfinished, -⟩ := Producer.events_taken s.pool t
    rw [observe_producer hp, htaken, hfinished]
    simpa using hb
  | admin ha h =>
    have hnew : ∀ t ∈ _, (Worker.inHand t).any P = false := fun t ht => by
      obtain ⟨tid, rfl⟩ := h.new_start t ht
      rfl
    have hzero := List.countP_eq_zero.mpr fun t ht => by simpa using hnew t ht
    simp only [List.countP_append]
    simp only [observe, List.filterMap_nil, List.countP_nil]
    omega
  | _ => simpa [observe, List.filterMap_cons, Event.taken, Event.finished] using hb

/-- A call puts its task in the queue at most once. -/
def AcceptedBalance (tr : List (Event Fn Arg)) (s : State Fn Arg) : Prop :=
  (tr.filterMap Event.accepted).countP P + s.producers.countP (fun t => t.offer.any P) ≤
    (tr.filterMap Event.called).countP P

theorem AcceptedBalance.step {tr : List (Event Fn Arg)} {s s' : State Fn Arg}
    {l : Label Fn Arg} (hb : AcceptedBalance P tr s) (h : Step s l s') :
    AcceptedBalance P (tr ++ observe s l s') s' := by
  simp only [AcceptedBalance, List.filterMap_append, List.countP_append] at hb ⊢
  cases h with
  | @worker w e t σ' t' hw h =>
    have hw' : (s.workers.set w t')[w]? = some t' := getElem?_set_of_some hw t'
    obtain ⟨haccepted, hcalled⟩ := Worker.events_accepted w t t'
    rw [observe_worker hw hw', haccepted, hcalled]
    simpa using hb
  | @call p task t hp hpc =>
    have hcount := countP_set_add (fun u => u.offer.any P) hp ⟨.lock, some task⟩
    have hidle : t.offer.any P = false := by
      rcases hpc with hpc | ⟨n, hpc⟩ <;> simp [Producer.offer, hpc, ProducerPc.inFlight]
    have hoffer : (Producer.mk .lock (some task)).offer.any P = P task := rfl
    simp only [hidle, hoffer] at hcount
    simp only [observe, List.filterMap_cons, List.filterMap_nil, Event.accepted, Event.called,
      List.countP_singleton, List.countP_nil]
    simp only [Bool.false_eq_true, if_false] at hcount
    omega
  | @producer p wake t σ' t' hp h =>
    have hcount := countP_set_add (fun u => u.offer.any P) hp t'
    have hstep := h.offer P
    obtain ⟨-, -, hcalled, -⟩ := Producer.events_taken s.pool t
    rw [observe_producer hp, hcalled]
    dsimp only [List.countP_nil]
    omega
  | _ => simpa [observe, List.filterMap_cons, Event.accepted, Event.called] using hb

end Balance

theorem WorkerStep.inHand {w : Nat} {e : Bool} {σ σ' : Threadpool Fn Arg}
    {t t' : Worker Fn Arg} (h : WorkerStep w σ e t σ' t') {task : ThreadpoolTask Fn Arg}
    (htask : t'.inHand = some task) :
    task ∈ (t.events w t').filterMap Event.taken ∨ t.inHand = some task := by
  cases h with
  | take =>
    left
    simpa [Worker.inHand, WorkerPc.inTask, Worker.events, Event.taken, eq_comm] using htask
  | _ => first | exact .inr htask | cases htask

theorem ProducerStep.offer_of {p : Nat} {wake : Option Nat} {σ σ' : Threadpool Fn Arg}
    {t t' : Producer Fn Arg} (h : ProducerStep p wake σ t σ' t')
    {task : ThreadpoolTask Fn Arg} (htask : t'.offer = some task) : t.offer = some task := by
  cases h <;> first | exact htask | cases htask

theorem Step.queued_of {s s' : State Fn Arg} {l : Label Fn Arg} (h : Step s l s')
    {task : ThreadpoolTask Fn Arg} (htask : task ∈ (observe s l s').filterMap Event.accepted) :
    ∃ t ∈ s.producers, t.offer = some task := by
  cases h with
  | @worker w e t σ' t' hw h =>
    have hw' : (s.workers.set w t')[w]? = some t' := getElem?_set_of_some hw t'
    rw [observe_worker hw hw', (Worker.events_accepted w t t').1] at htask
    cases htask
  | @producer p wake t σ' t' hp h =>
    rw [observe_producer hp, (Producer.events_taken s.pool t).2.2.2] at htask
    split at htask
    · next hpc =>
      refine ⟨t, List.mem_of_getElem? hp, ?_⟩
      rw [Producer.offer, hpc]
      simpa [ProducerPc.inFlight] using htask
    · cases htask
  | _ => simp [observe, Event.accepted] at htask

theorem Step.inHand_of {s s' : State Fn Arg} {l : Label Fn Arg} (h : Step s l s') {w : Nat}
    {t' : Worker Fn Arg} (hw' : s'.workers[w]? = some t') {task : ThreadpoolTask Fn Arg}
    (htask : t'.inHand = some task) : task ∈ (observe s l s').filterMap Event.taken ∨
      ∃ t, s.workers[w]? = some t ∧ t.inHand = some task := by
  cases h with
  | @worker v e t σ' u' hv h =>
    by_cases hvw : v = w
    · subst hvw
      have hv' : (s.workers.set v u')[v]? = some u' := getElem?_set_of_some hv u'
      rw [hv'] at hw'
      cases hw'
      rw [observe_worker hv hv']
      exact (h.inHand htask).imp id fun hold => ⟨t, hv, hold⟩
    · rw [List.getElem?_set_ne hvw] at hw'
      exact .inr ⟨t', hw', htask⟩
  | @admin c a σ' a' new ha h =>
    rcases List.mem_append.mp (List.mem_of_getElem? hw') with hold | hnew
    · by_cases hlt : w < s.workers.length
      · rw [List.getElem?_append_left hlt] at hw'
        exact .inr ⟨t', hw', htask⟩
      · rw [List.getElem?_append_right (Nat.le_of_not_lt hlt)] at hw'
        obtain ⟨tid, rfl⟩ := h.new_start t' (List.mem_of_getElem? hw')
        cases htask
    · obtain ⟨tid, rfl⟩ := h.new_start t' hnew
      cases htask
  | _ => exact .inr ⟨t', hw', htask⟩

theorem Step.offer_of {s s' : State Fn Arg} {l : Label Fn Arg} (h : Step s l s')
    {t' : Producer Fn Arg} (ht' : t' ∈ s'.producers) {task : ThreadpoolTask Fn Arg}
    (htask : t'.offer = some task) :
    (∃ t ∈ s.producers, t.offer = some task) ∨ ∃ p, l = .call p task := by
  cases h with
  | @call p task' t hp hpc =>
    rcases List.mem_or_eq_of_mem_set ht' with hold | rfl
    · exact .inl ⟨t', hold, htask⟩
    · cases htask
      exact .inr ⟨p, rfl⟩
  | @producer p wake t σ' u' hp h =>
    rcases List.mem_or_eq_of_mem_set ht' with hold | rfl
    · exact .inl ⟨t', hold, htask⟩
    · exact .inl ⟨t, List.mem_of_getElem? hp, h.offer_of htask⟩
  | _ => exact .inl ⟨t', ht', htask⟩

/-- What is queued after a step or taken in it was queued before or on offer. -/
theorem QueueInv.provenance {s s' : State Fn Arg} {l : Label Fn Arg}
    {q : List (ThreadpoolTask Fn Arg)} (hq : QueueInv s q) (h : Step s l s') :
    ∃ q', QueueInv s' q' ∧ ∀ task,
      task ∈ (observe s l s').filterMap Event.taken ∨ task ∈ q' →
        task ∈ q ∨ ∃ t ∈ s.producers, t.offer = some task := by
  classical
  obtain ⟨q', hexec, hq'⟩ := hq.step h
  refine ⟨q', hq', fun task htask => ?_⟩
  rw [← takes_queue] at htask
  refine (Fifo.mem_of_exec hexec htask).imp id fun hput => ?_
  rw [queueEvents, puts_queue] at hput
  exact h.queued_of hput

/-- The slots recall the accepted tasks; one whose argument was freed holds NULL. -/
def RecallsAccepted (tr : List (Event Fn Arg)) (s : State Fn Arg) : Prop :=
  s.pool.ring.Recalls (fun slot => slot.arg = none) (tr.filterMap Event.accepted)

/-- Every step does to the ring one of the things a queue does, and accepts what it puts there. -/
theorem QueueInv.ring_step {s s' : State Fn Arg} {l : Label Fn Arg}
    {q : List (ThreadpoolTask Fn Arg)} (hq : QueueInv s q) (h : Step s l s') :
    Ring.Step (fun slot => slot.arg = none) s.pool.ring
      ((observe s l s').filterMap Event.accepted) s'.pool.ring := by
  cases h with
  | @worker w e t σ' t' hw h =>
    have hw' : (s.workers.set w t')[w]? = some t' := getElem?_set_of_some hw t'
    rw [observe_worker hw hw', (Worker.events_accepted w t t').1]
    change Ring.Step _ _ _ σ'.ring
    rcases h.ring with ⟨-, task, -, -, hring⟩ | ⟨-, hring⟩
    · rw [hring]
      exact .pop
    · rw [hring]
      exact .same
  | @producer p wake t σ' t' hp h =>
    rw [observe_producer hp, (Producer.events_taken s.pool t).2.2.2]
    change Ring.Step _ _ _ σ'.ring
    rcases h.ring with ⟨hpc, task, htask, hring⟩ | ⟨hpc, slot, hslot, hring⟩ | ⟨hpc, hring⟩
    · have hmodulus : s.pool.queueMaxSize ≠ 0 :=
        hq.modulus (t := .producer p) (b := .producer t) (by simp [State.thread, hp])
          (by simp [Local.atModulus, hpc])
      rw [hring, hpc, htask]
      exact .push (Nat.pos_of_ne_zero hmodulus)
    · rw [hring, hpc]
      exact .setRear hslot
    · rw [hring, if_neg hpc]
      exact .same
  | @admin c a σ' a' new ha h =>
    change Ring.Step _ _ _ σ'.ring
    rw [h.ring]
    exact .same
  | @destroy d σ' d' hd h =>
    change Ring.Step _ _ _ σ'.ring
    rw [h.ring]
    exact .same
  | _ => exact .same

theorem RecallsAccepted.step {tr : List (Event Fn Arg)} {s s' : State Fn Arg}
    {l : Label Fn Arg} {q : List (ThreadpoolTask Fn Arg)} (hr : RecallsAccepted tr s)
    (hq : QueueInv s q) (h : Step s l s') : RecallsAccepted (tr ++ observe s l s') s' := by
  rw [RecallsAccepted, List.filterMap_append]
  exact Ring.Recalls.step hr (hq.ring_step h)

section Runs

variable {c : Setup Fn Arg} {ls : List (Label Fn Arg)} {s : State Fn Arg}

theorem exec_takenBalance (P : ThreadpoolTask Fn Arg → Bool)
    (hrun : Run.exec step (threadpoolCreate c) ls = some s) :
    TakenBalance P (events c ls) s := by
  refine Run.trace_invariant (I := TakenBalance P) observe
    (fun _ _ _ _ hm hs _ => hm.step P (step_cases hs)) [] ?_ (Run.always_true _ ls) hrun
  have hzero : (threadpoolCreate c).workers.countP (fun t => t.inHand.any P) = 0 := by
    rw [List.countP_eq_zero]
    intro t ht
    obtain ⟨tid, -, rfl⟩ := List.mem_map.mp ht
    exact Bool.false_ne_true
  simp [TakenBalance, hzero]

theorem exec_acceptedBalance (P : ThreadpoolTask Fn Arg → Bool)
    (hrun : Run.exec step (threadpoolCreate c) ls = some s) :
    AcceptedBalance P (events c ls) s := by
  refine Run.trace_invariant (I := AcceptedBalance P) observe
    (fun _ _ _ _ hm hs _ => hm.step P (step_cases hs)) [] ?_ (Run.always_true _ ls) hrun
  have hzero : (threadpoolCreate c).producers.countP (fun t => t.offer.any P) = 0 := by
    rw [List.countP_eq_zero]
    intro t ht
    rw [List.eq_of_mem_replicate ht]
    exact Bool.false_ne_true
  simp [AcceptedBalance, hzero]

theorem exec_recallsAccepted (hrun : Run.exec step (threadpoolCreate c) ls = some s) :
    RecallsAccepted (events c ls) s := by
  classical
  refine (Run.trace_invariant (I := fun tr m => RecallsAccepted tr m ∧ ∃ q, QueueInv m q)
    observe ?_ [] ?_ (Run.always_true _ ls) hrun).1
  · rintro tr m l m' ⟨hm, q, hq⟩ hs -
    obtain ⟨q', -, hq'⟩ := hq.step (step_cases hs)
    exact ⟨hm.step hq (step_cases hs), q', hq'⟩
  · exact ⟨Ring.recalls_nil _ _ _, [], create_queueInv c⟩

def calledArgs (c : Setup Fn Arg) (ls : List (Label Fn Arg)) : List Arg :=
  ((events c ls).filterMap Event.called).filterMap ThreadpoolTask.arg

/-- The task last queued in slot `queue_rear`, if the queue has gone round: it was accepted
`queue_max_size` tasks ago. -/
def rearTask (c : Setup Fn Arg) (ls : List (Label Fn Arg)) : Option (ThreadpoolTask Fn Arg) :=
  if c.queueMaxSize ≤ (accepted c ls).length then
    (accepted c ls)[(accepted c ls).length - c.queueMaxSize]?
  else none

theorem called_arg_le_one [DecidableEq Arg] (hdistinct : (calledArgs c ls).Nodup) (a : Arg) :
    ((events c ls).filterMap Event.called).countP (fun task => task.arg == some a) ≤ 1 := by
  have hcount : (calledArgs c ls).count a =
      ((events c ls).filterMap Event.called).countP (fun task => task.arg == some a) :=
    List.count_filterMap
  rw [← hcount]
  exact List.nodup_iff_count_le_one.mp hdistinct a

theorem accepted_arg_le_one [DecidableEq Arg] (hdistinct : (calledArgs c ls).Nodup)
    (hrun : Run.exec step (threadpoolCreate c) ls = some s) (a : Arg) :
    (accepted c ls).countP (fun task => task.arg == some a) ≤ 1 := by
  have hbalance := exec_acceptedBalance (fun task => task.arg == some a) hrun
  have hone := called_arg_le_one hdistinct a
  rw [accepted_eq]
  simp only [AcceptedBalance] at hbalance
  omega

theorem exists_room (hrun : Run.exec step (threadpoolCreate c) ls = some s) {p : Nat}
    {t : Producer Fn Arg} (hp : s.producers[p]? = some t) (hpc : t.pc = .clearArg) :
    ∃ q, accepted c ls = taken c ls ++ q ∧ q.length < c.queueMaxSize := by
  classical
  obtain ⟨q, hq, hinv⟩ := exec_queueInv c hrun
  have hcap : s.pool.ring.capacity = c.queueMaxSize := (exec_constants hrun).1
  have hroom : s.pool.ring.size ≠ s.pool.ring.capacity := by
    have hassert := hinv.asserts (.producer p) (.producer t) (by simp [State.thread, hp])
    simpa [Local.queueAssert, hpc] using hassert
  exact ⟨q, accepted_eq_taken hq, hcap ▸ hinv.ring.length_lt hroom⟩

theorem rearTask_eq_slot (hrun : Run.exec step (threadpoolCreate c) ls = some s) {p : Nat}
    {t : Producer Fn Arg} {slot task : ThreadpoolTask Fn Arg} {a : Arg}
    (hp : s.producers[p]? = some t) (hpc : t.pc = .clearArg)
    (hslot : s.pool.taskQueue[s.pool.queueRear]? = some slot) (harg : slot.arg = some a)
    (htask : rearTask c ls = some task) : task = slot ∧ task ∈ taken c ls := by
  obtain ⟨q, hconserve, hroom⟩ := exists_room hrun hp hpc
  have hcap : s.pool.ring.capacity = c.queueMaxSize := (exec_constants hrun).1
  rw [rearTask] at htask
  split at htask
  · next hlap =>
    have hrecalls : RecallsAccepted (events c ls) s := exec_recallsAccepted hrun
    rw [RecallsAccepted, ← accepted_eq] at hrecalls
    have hrear := hrecalls.rear_slot (hcap ▸ Nat.lt_of_le_of_lt (Nat.zero_le _) hroom)
      (hcap ▸ hlap) hslot (by rw [harg]; exact nofun)
    rw [hcap, htask] at hrear
    refine ⟨Option.some.inj hrear, ?_⟩
    have hlt : (taken c ls ++ q).length - c.queueMaxSize < (taken c ls).length := by
      rw [hconserve] at hlap
      rw [List.length_append] at hlap ⊢
      omega
    rw [hconserve, List.getElem?_append_left hlt] at htask
    exact List.mem_of_getElem? htask
  · cases htask

theorem mem_finished {es : List (Event Fn Arg)} {task : ThreadpoolTask Fn Arg} :
    task ∈ es.filterMap Event.finished ↔ ∃ w, Event.finish w task ∈ es := by
  rw [List.mem_filterMap]
  constructor
  · rintro ⟨e, he, hfinished⟩
    cases e with
    | finish w task' => cases hfinished; exact ⟨w, he⟩
    | _ => cases hfinished
  · rintro ⟨w, hw⟩
    exact ⟨_, hw, rfl⟩

theorem exists_finish (hrun : Run.exec step (threadpoolCreate c) ls = some s)
    {task : ThreadpoolTask Fn Arg} (htaken : task ∈ taken c ls)
    (hnot : ∀ u ∈ s.workers, u.inHand ≠ some task) :
    ∃ w, Event.finish w task ∈ events c ls := by
  classical
  have hbalance := exec_takenBalance (fun other => decide (other = task)) hrun
  have hpos : 0 < (taken c ls).countP (fun other => decide (other = task)) :=
    List.countP_pos_iff.mpr ⟨task, htaken, by simp⟩
  have hzero : s.workers.countP (fun u => u.inHand.any fun other => decide (other = task)) = 0 := by
    rw [List.countP_eq_zero]
    intro u hu hany
    obtain ⟨other, hother, heq⟩ := (Option.any_eq_true _ _).mp hany
    exact hnot u hu (hother.trans (congrArg some (of_decide_eq_true heq)))
  rw [TakenBalance, ← taken_eq, hzero, Nat.add_zero] at hbalance
  rw [hbalance] at hpos
  obtain ⟨other, hother, heq⟩ := List.countP_pos_iff.mp hpos
  exact mem_finished.mp (of_decide_eq_true heq ▸ hother)

theorem not_inHand_of_finish (hdistinct : (calledArgs c ls).Nodup)
    (hrun : Run.exec step (threadpoolCreate c) ls = some s) {w : Nat}
    {task : ThreadpoolTask Fn Arg} {a : Arg} (hfinish : Event.finish w task ∈ events c ls)
    (harg : task.arg = some a) :
    ∀ u ∈ s.workers, ∀ other, u.inHand = some other → other.arg ≠ some a := by
  classical
  obtain ⟨q, hq, -⟩ := exec_queueInv c hrun
  have hconserve : accepted c ls = taken c ls ++ q := accepted_eq_taken hq
  have hbalance := exec_takenBalance (fun other => other.arg == some a) hrun
  have hone := accepted_arg_le_one hdistinct hrun a
  have hpos : 0 < ((events c ls).filterMap Event.finished).countP
      (fun other => other.arg == some a) :=
    List.countP_pos_iff.mpr ⟨task, mem_finished.mpr ⟨w, hfinish⟩, by simp [harg]⟩
  rw [hconserve, List.countP_append] at hone
  rw [TakenBalance, ← taken_eq] at hbalance
  have hzero : s.workers.countP (fun u => u.inHand.any fun other => other.arg == some a) = 0 := by
    omega
  intro u hu other hother heq
  have hnone := List.countP_eq_zero.mp hzero u hu
  simp [hother, heq] at hnone

theorem release_after_return_iff (hdistinct : (calledArgs c ls).Nodup)
    (hrun : Run.exec step (threadpoolCreate c) ls = some s) {p : Nat} {t : Producer Fn Arg}
    {slot : ThreadpoolTask Fn Arg} {a : Arg} (hp : s.producers[p]? = some t)
    (hpc : t.pc = .clearArg) (hslot : s.pool.taskQueue[s.pool.queueRear]? = some slot)
    (harg : slot.arg = some a) :
    (∃ task ∈ taken c ls, rearTask c ls = some task ∧ task.arg = some a ∧
      ∃ w, Event.finish w task ∈ events c ls) ↔
    c.queueMaxSize ≤ (accepted c ls).length ∧
      ∀ u ∈ s.workers, ∀ task, u.inHand = some task → task.arg ≠ some a := by
  constructor
  · rintro ⟨task, -, hrear, htask, w, hfinish⟩
    refine ⟨?_, not_inHand_of_finish hdistinct hrun hfinish htask⟩
    rw [rearTask] at hrear
    split at hrear
    · assumption
    · cases hrear
  · rintro ⟨hlap, hnot⟩
    obtain ⟨task, htask⟩ : ∃ task, rearTask c ls = some task := by
      obtain ⟨q, -, hroom⟩ := exists_room hrun hp hpc
      rw [rearTask, if_pos hlap]
      exact ⟨_, List.getElem?_eq_getElem (by omega)⟩
    obtain ⟨rfl, htaken⟩ := rearTask_eq_slot hrun hp hpc hslot harg htask
    exact ⟨task, htaken, htask, harg,
      exists_finish hrun htaken fun u hu hinHand => hnot u hu task hinHand harg⟩

def secondAddRun (n : Nat) : List (Label Nat Nat) :=
  addTask 0 ⟨0, some 1⟩ none ++ workerSteps 0 n ++
    .call 1 ⟨0, some 2⟩ :: List.replicate 3 (.producer 1 none)

theorem release_after_return_finished :
    ∃ s, Run.exec step (threadpoolCreate smallPool) (secondAddRun 13) = some s ∧
      ∃ task ∈ taken smallPool (secondAddRun 13), rearTask smallPool (secondAddRun 13) =
        some task ∧ task.arg = some 1 ∧ ∃ w, Event.finish w task ∈
          events smallPool (secondAddRun 13) := by
  obtain ⟨s, hs, hcond⟩ : ∃ s, Run.exec step (threadpoolCreate smallPool) (secondAddRun 13) =
      some s ∧ decide (s.producers[1]? = some (Producer.mk .clearArg (some ⟨0, some 2⟩)) ∧
        s.pool.taskQueue[s.pool.queueRear]? = some ⟨0, some 1⟩ ∧
        ∀ u ∈ s.workers, u.inHand = none) = true :=
    (Option.any_eq_true _ _).mp (by decide +kernel)
  obtain ⟨hp, hslot, hnone⟩ := of_decide_eq_true hcond
  refine ⟨s, hs, (release_after_return_iff (by decide +kernel) hs hp rfl hslot rfl).mpr ?_⟩
  refine ⟨by decide +kernel, fun u hu task htask => ?_⟩
  rw [hnone u hu] at htask
  cases htask

theorem argument_freed_under_running_task :
    ∃ s s', Run.exec step (threadpoolCreate smallPool) (secondAddRun 9) = some s ∧
      step s (.producer 1 none) = some s' ∧
      observe s (.producer 1 none) s' = [.release 1] ∧
      (calledArgs smallPool (secondAddRun 9)).Nodup ∧
      (∃ u ∈ s.workers, u.pc = .run ∧ u.inHand = some ⟨0, some 1⟩) ∧
      ∀ w, Event.finish w ⟨0, some 1⟩ ∉ events smallPool (secondAddRun 9) := by
  obtain ⟨s, hs, hcond⟩ : ∃ s, Run.exec step (threadpoolCreate smallPool) (secondAddRun 9) =
      some s ∧ (step s (.producer 1 none)).any (fun s' =>
        decide (observe s (.producer 1 none) s' = [.release 1] ∧
          ∃ u ∈ s.workers, u.pc = .run ∧ u.inHand = some ⟨0, some 1⟩)) = true :=
    (Option.any_eq_true _ _).mp (by decide +kernel)
  obtain ⟨s', hs', hrelease⟩ := (Option.any_eq_true _ _).mp hcond
  obtain ⟨hobserve, hworker⟩ := of_decide_eq_true hrelease
  have hfinished : (events smallPool (secondAddRun 9)).filterMap Event.finished = [] := by
    decide +kernel
  refine ⟨s, s', hs, hs', hobserve, by decide +kernel, hworker, fun w hw => ?_⟩
  have hmem := mem_finished.mpr ⟨w, hw⟩
  rw [hfinished] at hmem
  exact List.not_mem_nil hmem

end Runs

end LearnCLinux.ThreadPool
