import Mathlib.Data.List.Induction
import LearnCLinux.ThreadPool.Ownership

/-! Whose pointers `threadpool_add_task` frees.  Until the first lap reaches it a slot holds what
`malloc` left there, and the test for NULL cannot tell that from the argument of a task. -/

universe u v

namespace LearnCLinux.ThreadPool

variable {Fn : Type u} {Arg : Type v}

def State.callArg (s : State Fn Arg) : Label Fn Arg → Option Arg
  | .producer p _ => (s.producers[p]?.bind Producer.task).bind ThreadpoolTask.arg
  | _ => none

/-- Each pointer the run frees was the argument of an earlier call, and is freed once. -/
def FreesHanded (c : Setup Fn Arg) (ls : List (Label Fn Arg)) : Prop :=
  ∀ ks l ms s s', ls = ks ++ l :: ms → Run.exec step (threadpoolCreate c) ks = some s →
    step s l = some s' → ∀ a, Event.release a ∈ observe s l s' →
      a ∈ calledArgs c ks ∧ s.callArg l ≠ some a ∧ Event.release a ∉ events c ks

/-- After `ks` a call clears the rear slot. -/
structure ClearsAfter (c : Setup Fn Arg) (ls ks : List (Label Fn Arg)) (s : State Fn Arg)
    (p : Nat) (s' : State Fn Arg) : Prop where
  run : Run.exec step (threadpoolCreate c) ks = some s
  clears : ∃ t, s.producers[p]? = some t ∧ t.pc = .clearArg
  next : ∃ wake ms, ls = ks ++ .producer p wake :: ms ∧ step s (.producer p wake) = some s'

/-- The slots that calls clear on the first lap were NULL when `malloc` returned them. -/
def FirstLapNull (c : Setup Fn Arg) (ls : List (Label Fn Arg)) : Prop :=
  ∀ ks s p s', ClearsAfter c ls ks s p s' → ∀ slot,
    c.slots[(accepted c ks).length]? = some slot → slot.arg = none

theorem Producer.release_mem {σ : Threadpool Fn Arg} {t : Producer Fn Arg} {a : Arg}
    (h : Event.release a ∈ t.events σ) :
    t.pc = .clearArg ∧ ∃ slot, σ.taskQueue[σ.queueRear]? = some slot ∧ slot.arg = some a := by
  obtain ⟨pc, task⟩ := t
  cases pc with
  | clearArg =>
    refine ⟨rfl, ?_⟩
    simp only [Producer.events] at h
    split at h
    · cases h
    · next slot hslot => exact ⟨slot, hslot, by simpa [eq_comm] using h⟩
  | put => simp [Producer.events] at h
  | _ => cases h

theorem Worker.release_notMem (w : Nat) (t t' : Worker Fn Arg) (a : Arg) :
    Event.release a ∉ t.events w t' := by
  rw [Worker.events]
  split <;> simp

/-- Only a call that clears the rear slot frees anything: the argument it finds there. -/
theorem Step.release_of {s s' : State Fn Arg} {l : Label Fn Arg} (h : Step s l s') {a : Arg}
    (ha : Event.release a ∈ observe s l s') :
    ∃ p wake t slot, l = .producer p wake ∧ s.producers[p]? = some t ∧ t.pc = .clearArg ∧
      s.pool.ring.slots[s.pool.ring.rear]? = some slot ∧ slot.arg = some a ∧
      ∃ blank, blank.arg = none ∧ s'.pool.ring = s.pool.ring.setRear blank := by
  cases h with
  | @worker w e t σ' t' hw h =>
    rw [observe_worker hw (Threads.getElem?_set_of_some hw t')] at ha
    exact absurd ha (Worker.release_notMem w t t' a)
  | @producer p wake t σ' t' hp h =>
    rw [observe_producer hp] at ha
    obtain ⟨hpc, slot, hslot, harg⟩ := Producer.release_mem ha
    refine ⟨p, wake, t, slot, rfl, hp, hpc, hslot, harg, ?_⟩
    cases h with
    | release => exact ⟨_, rfl, rfl⟩
    | keepNull hslot' _ hnull =>
      cases hslot.symm.trans hslot'
      rw [hnull] at harg
      cases harg
    | _ => cases hpc
  | call => simp [observe] at ha
  | _ => cases ha

def Filling (producers : List (Producer Fn Arg)) : Prop :=
  ∃ (p : Nat) (t : Producer Fn Arg), producers[p]? = some t ∧ t.pc = .put

theorem Filling.set {producers : List (Producer Fn Arg)} {p : Nat} {t t' : Producer Fn Arg}
    (hp : producers[p]? = some t) (hpc : t.pc ≠ .put) (h : Filling producers) :
    Filling (producers.set p t') :=
  Threads.exists_set (P := fun _ (u : Producer Fn Arg) => u.pc = .put) hp
    (fun hput => absurd hput hpc) h

theorem Step.untouched {s s' : State Fn Arg} {l : Label Fn Arg} (h : Step s l s')
    {slots : List (ThreadpoolTask Fn Arg)} {tr : List (Event Fn Arg)}
    (hu : s.pool.ring.Untouched slots (Filling s.producers) (tr.filterMap Event.accepted))
    (hr : RecallsAccepted tr s) : s'.pool.ring.Untouched slots (Filling s'.producers)
      (tr.filterMap Event.accepted ++ (observe s l s').filterMap Event.accepted) := by
  cases h with
  | @worker w e t σ' t' hw h =>
    have hw' : (s.workers.set w t')[w]? = some t' := Threads.getElem?_set_of_some hw t'
    rw [observe_worker hw hw', (Worker.events_accepted w t t').1, List.append_nil]
    change σ'.ring.Untouched _ _ _
    rcases h.ring with ⟨-, task, -, -, hring⟩ | ⟨-, hring⟩
    · rw [hring]
      exact hu
    · rw [hring]
      exact hu
  | @call p task t hp hpc =>
    have hput : t.pc ≠ .put := by
      rcases hpc with hpc | ⟨n, hpc⟩ <;> simp [hpc]
    simpa [observe, List.filterMap_cons, Event.accepted] using hu.mono (Filling.set hp hput)
  | @producer p wake t σ' t' hp h =>
    rw [observe_producer hp, (Producer.events_taken s.pool t).2.2.2]
    change σ'.ring.Untouched _ _ _
    cases h with
    | put => exact hu.push hr
    | @release task =>
      have hfilling : Filling (s.producers.set p ⟨.put, task⟩) :=
        Threads.exists_set_self (P := fun _ (u : Producer Fn Arg) => u.pc = .put) hp rfl
      rw [if_neg (by simp), List.append_nil]
      exact hu.setRear hr hfilling
    | _ =>
      rw [if_neg (by simp), List.append_nil]
      exact hu.mono (Filling.set hp (by simp))
  | @admin c a σ' a' new ha h =>
    change σ'.ring.Untouched _ _ _
    rw [h.ring]
    simpa [observe] using hu
  | @destroy d σ' d' hd h =>
    change σ'.ring.Untouched _ _ _
    rw [h.ring]
    simpa [observe] using hu
  | _ => simpa [observe, Threadpool.ring] using hu

theorem ClearsAfter.release {c : Setup Fn Arg} {ls ks : List (Label Fn Arg)}
    {s s' : State Fn Arg} {p : Nat} (h : ClearsAfter c ls ks s p s')
    {slot : ThreadpoolTask Fn Arg} {a : Arg}
    (hslot : s.pool.taskQueue[s.pool.queueRear]? = some slot) (harg : slot.arg = some a)
    (wake : Option Nat) : Event.release a ∈ observe s (.producer p wake) s' := by
  obtain ⟨t, hp, hpc⟩ := h.clears
  rw [observe_producer hp, Producer.events, hpc]
  simp [hslot, harg]

section Runs

variable {c : Setup Fn Arg} {ls ks : List (Label Fn Arg)} {s s' : State Fn Arg}

theorem events_concat {l : Label Fn Arg} (hrun : Run.exec step (threadpoolCreate c) ks = some s)
    (hs : step s l = some s') : events c (ks ++ [l]) = events c ks ++ observe s l s' := by
  rw [events, Run.trace_append hrun]
  simp [events, Run.trace, hs]

/-- A slot holds what `malloc` left in it until a call clears it for its first task. -/
theorem exec_untouched (hrun : Run.exec step (threadpoolCreate c) ks = some s) :
    s.pool.ring.Untouched c.slots (Filling s.producers) (accepted c ks) := by
  classical
  rw [accepted_eq]
  refine (Run.trace_invariant (I := fun tr m => m.pool.ring.Untouched c.slots (Filling m.producers)
    (tr.filterMap Event.accepted) ∧ RecallsAccepted tr m ∧ ∃ q, QueueInv m q)
    observe ?_ [] ?_ (Run.always_true _ ks) hrun).1
  · rintro tr m l m' ⟨huntouched, hrecalls, q, hq⟩ hs -
    have hstep := step_cases hs
    obtain ⟨q', -, hq'⟩ := hq.step hstep
    refine ⟨?_, hrecalls.step hq hstep, q', hq'⟩
    rw [List.filterMap_append]
    exact hstep.untouched huntouched hrecalls
  · exact ⟨fun k _ _ => .inl rfl, Ring.recalls_nil _ _ _, [], create_queueInv c⟩

theorem rear_slot_first_lap (hrun : Run.exec step (threadpoolCreate c) ks = some s)
    {p : Nat} {t : Producer Fn Arg} (hp : s.producers[p]? = some t) (hpc : t.pc = .clearArg)
    (hlap : (accepted c ks).length < c.queueMaxSize) :
    s.pool.ring.slots[s.pool.ring.rear]? = c.slots[(accepted c ks).length]? := by
  classical
  obtain ⟨q, -, hq⟩ := exec_queueInv c hrun
  have hcap : s.pool.ring.capacity = c.queueMaxSize := (exec_constants hrun).1
  have hrecalls : RecallsAccepted (events c ks) s := exec_recallsAccepted hrun
  rw [RecallsAccepted, ← accepted_eq] at hrecalls
  refine (exec_untouched hrun).rear_slot hrecalls (hcap ▸ hlap) ?_
  -- the call has the mutex, so no other one is between the two
  rintro ⟨p', t', hp', hpc'⟩
  have hsame : Tid.producer p' = Tid.producer p :=
    hq.locks.lock.unique (b := .producer t) (l := .producer t') (by simp [State.thread, hp])
      (by simp [Local.holdsLock, hpc, ProducerPc.holdsLock]) (by simp [State.thread, hp'])
      (by simp [Local.holdsLock, hpc', ProducerPc.holdsLock])
  cases hsame
  cases hp.symm.trans hp'
  rw [hpc] at hpc'
  cases hpc'

theorem rear_slot_later_lap (hrun : Run.exec step (threadpoolCreate c) ks = some s)
    {p : Nat} {t : Producer Fn Arg} {slot : ThreadpoolTask Fn Arg} {a : Arg}
    (hp : s.producers[p]? = some t) (hpc : t.pc = .clearArg)
    (hslot : s.pool.ring.slots[s.pool.ring.rear]? = some slot) (harg : slot.arg = some a)
    (hlap : c.queueMaxSize ≤ (accepted c ks).length) :
    (accepted c ks)[(accepted c ks).length - c.queueMaxSize]? = some slot := by
  obtain ⟨q, -, hroom⟩ := exists_room hrun hp hpc
  obtain ⟨task, htask⟩ : ∃ task,
      (accepted c ks)[(accepted c ks).length - c.queueMaxSize]? = some task :=
    ⟨_, List.getElem?_eq_getElem (by omega)⟩
  have hrear : rearTask c ks = some task := by rw [rearTask, if_pos hlap, htask]
  obtain ⟨rfl, -⟩ := rearTask_eq_slot hrun hp hpc hslot harg hrear
  exact htask

theorem accepted_arg_mem (hrun : Run.exec step (threadpoolCreate c) ks = some s)
    {task : ThreadpoolTask Fn Arg} {a : Arg} (htask : task ∈ accepted c ks)
    (harg : task.arg = some a) : a ∈ calledArgs c ks := by
  classical
  have hbalance := exec_acceptedBalance (fun other => other.arg == some a) hrun
  have hpos : 0 < (accepted c ks).countP (fun other => other.arg == some a) :=
    List.countP_pos_iff.mpr ⟨task, htask, by simp [harg]⟩
  rw [accepted_eq] at hpos
  simp only [AcceptedBalance] at hbalance
  obtain ⟨other, hother, heq⟩ := List.countP_pos_iff.mp (by omega :
    0 < ((events c ks).filterMap Event.called).countP (fun other => other.arg == some a))
  exact List.mem_filterMap.mpr ⟨other, hother, by simpa using heq⟩

/-- Each freed argument has left the queue: a later task is in its slot, or the slot is about to
be filled and holds NULL. -/
def FreedRetired (c : Setup Fn Arg) (ks : List (Label Fn Arg)) (s : State Fn Arg) : Prop :=
  ∀ a, Event.release a ∈ events c ks → ∃ j task, (accepted c ks)[j]? = some task ∧
    task.arg = some a ∧
    s.pool.ring.Retired (fun slot => slot.arg = none) (accepted c ks) j

theorem exec_ringStep {l : Label Fn Arg}
    (hrun : Run.exec step (threadpoolCreate c) ks = some s) (hs : step s l = some s') :
    ∃ new, accepted c (ks ++ [l]) = accepted c ks ++ new ∧
      Ring.Step (fun slot => slot.arg = none) s.pool.ring new s'.pool.ring := by
  classical
  obtain ⟨q, -, hq⟩ := exec_queueInv c hrun
  refine ⟨_, ?_, hq.ring_step (step_cases hs)⟩
  rw [accepted_eq, accepted_eq, events_concat hrun hs, List.filterMap_append]

theorem FreedRetired.step {l : Label Fn Arg} (hf : FreedRetired c ks s)
    (hrun : Run.exec step (threadpoolCreate c) ks = some s) (hs : step s l = some s')
    (hlap : ∀ a, Event.release a ∈ observe s l s' → c.queueMaxSize ≤ (accepted c ks).length) :
    FreedRetired c (ks ++ [l]) s' := by
  have hcap : s.pool.ring.capacity = c.queueMaxSize := (exec_constants hrun).1
  obtain ⟨new, haccepted, hring⟩ := exec_ringStep hrun hs
  intro a ha
  rw [events_concat hrun hs, List.mem_append] at ha
  rw [haccepted]
  rcases ha with hold | hnow
  · obtain ⟨j, task, htask, harg, hretired⟩ := hf a hold
    obtain ⟨hlt, -⟩ := List.getElem?_eq_some_iff.mp htask
    exact ⟨j, task, by rw [List.getElem?_append_left hlt, htask], harg, hretired.step hring⟩
  · have hlater := hlap a hnow
    obtain ⟨p, wake, t, slot, rfl, hp, hpc, hslot, harg, blank, hblank, hset⟩ :=
      (step_cases hs).release_of hnow
    have hold := rear_slot_later_lap hrun hp hpc hslot harg hlater
    obtain ⟨hlt, -⟩ := List.getElem?_eq_some_iff.mp hold
    refine ⟨_, slot, by rw [List.getElem?_append_left hlt, hold], harg, ?_⟩
    rw [hset]
    refine Ring.retired_setRear ?_ hblank
    rw [List.length_append, hcap]
    omega

theorem calledArgs_append (ms : List (Label Fn Arg))
    (hrun : Run.exec step (threadpoolCreate c) ks = some s) :
    ∃ later, calledArgs c (ks ++ ms) = calledArgs c ks ++ later := by
  simp only [calledArgs, events, Run.trace_append hrun, List.filterMap_append]
  exact ⟨_, rfl⟩

theorem FirstLapNull.later_lap (hnull : FirstLapNull c ls) {l : Label Fn Arg}
    {ms : List (Label Fn Arg)} (hls : ls = ks ++ l :: ms)
    (hrun : Run.exec step (threadpoolCreate c) ks = some s) (hs : step s l = some s') {a : Arg}
    (ha : Event.release a ∈ observe s l s') : c.queueMaxSize ≤ (accepted c ks).length := by
  obtain ⟨p, wake, t, slot, rfl, hp, hpc, hslot, harg, -⟩ := (step_cases hs).release_of ha
  by_contra hlap
  have hfirst := rear_slot_first_lap hrun hp hpc (Nat.lt_of_not_le hlap)
  have hnone := hnull ks s p s' ⟨hrun, ⟨t, hp, hpc⟩, wake, ms, hls, hs⟩ slot
    (hfirst.symm.trans hslot)
  rw [harg] at hnone
  cases hnone

theorem FirstLapNull.freedRetired (hnull : FirstLapNull c ls) {ms : List (Label Fn Arg)}
    (hls : ls = ks ++ ms) (hrun : Run.exec step (threadpoolCreate c) ks = some s) :
    FreedRetired c ks s := by
  refine Run.history_invariant (I := fun ks s => ∀ ms, ls = ks ++ ms → FreedRetired c ks s)
    ?_ ?_ hrun ms hls
  · intro ms _ a ha
    cases ha
  · intro ks l m m' hm ih hs ms hls
    rw [List.append_assoc] at hls
    exact (ih _ hls).step hm hs fun a ha => hnull.later_lap hls hm hs ha

theorem offer_arg_ne (hdistinct : (calledArgs c ks).Nodup)
    (hrun : Run.exec step (threadpoolCreate c) ks = some s) {p : Nat} {t : Producer Fn Arg}
    {task other : ThreadpoolTask Fn Arg} {a : Arg} (hp : s.producers[p]? = some t)
    (hoffer : t.offer = some other) (htask : task ∈ accepted c ks) (harg : task.arg = some a) :
    other.arg ≠ some a := by
  classical
  intro hother
  have hbalance := exec_acceptedBalance (fun task => task.arg == some a) hrun
  have hone := called_arg_le_one hdistinct a
  have hqueued : 0 < (accepted c ks).countP (fun task => task.arg == some a) :=
    List.countP_pos_iff.mpr ⟨task, htask, by simp [harg]⟩
  have hoffered : 0 < s.producers.countP fun u => u.offer.any fun task => task.arg == some a :=
    List.countP_pos_iff.mpr ⟨t, List.mem_of_getElem? hp, by simp [hoffer, hother]⟩
  rw [accepted_eq] at hqueued
  simp only [AcceptedBalance] at hbalance
  omega

theorem FirstLapNull.freesHanded (hnull : FirstLapNull c ls) (hdistinct : (calledArgs c ls).Nodup) :
    FreesHanded c ls := by
  classical
  intro ks l ms s s' hls hrun hs a ha
  have hlap := hnull.later_lap hls hrun hs ha
  obtain ⟨p, wake, t, slot, rfl, hp, hpc, hslot, harg, -⟩ := (step_cases hs).release_of ha
  have hold := rear_slot_later_lap hrun hp hpc hslot harg hlap
  have hqueued : slot ∈ accepted c ks := List.mem_of_getElem? hold
  have hprefix : (calledArgs c ks).Nodup := by
    obtain ⟨later, hlater⟩ := calledArgs_append (.producer p wake :: ms) hrun
    rw [hls, hlater] at hdistinct
    exact hdistinct.of_append_left
  refine ⟨accepted_arg_mem hrun hqueued harg, fun hcall => ?_, fun hfreed => ?_⟩
  · simp only [State.callArg, hp, Option.bind_some] at hcall
    obtain ⟨other, hother, hotherArg⟩ := Option.bind_eq_some_iff.mp hcall
    have hoffer : t.offer = some other := by
      rw [Producer.offer, hpc, ← hother]
      rfl
    exact offer_arg_ne hprefix hrun hp hoffer hqueued harg hotherArg
  · obtain ⟨j, task, htask, htaskArg, hretired⟩ := hnull.freedRetired hls hrun a hfreed
    have hone := accepted_arg_le_one hprefix hrun a
    have hj : j = (accepted c ks).length - c.queueMaxSize :=
      Threads.index_unique hone htask (by simp [htaskArg]) hold (by simp [harg])
    have hcap : s.pool.ring.capacity = c.queueMaxSize := (exec_constants hrun).1
    -- its slot is the rear one, which was made NULL when it was freed
    have hblank : slot.arg = none := hretired.blank (by rw [hcap]; omega) slot hslot
    rw [harg] at hblank
    cases hblank

/-- The first lap frees whatever `malloc` left in the slots: nothing, or something that has to be
a pointer handed over for the run to free none but these. -/
theorem frees_handed_of_first_lap_null (hdistinct : (calledArgs c ls).Nodup) :
    (FirstLapNull c ls → FreesHanded c ls) ∧
    (FreesHanded c ls → ∀ ks s p s', ClearsAfter c ls ks s p s' → ∀ slot a,
      c.slots[(accepted c ks).length]? = some slot → slot.arg = some a →
        a ∈ calledArgs c ks) := by
  refine ⟨fun hnull => hnull.freesHanded hdistinct, fun hfrees ks s p s' h slot a hslot harg => ?_⟩
  obtain ⟨t, hp, hpc⟩ := h.clears
  obtain ⟨wake, ms, hls, hs⟩ := h.next
  obtain ⟨hlt, -⟩ := List.getElem?_eq_some_iff.mp hslot
  rw [c.slots_length] at hlt
  have hrear := (rear_slot_first_lap h.run hp hpc hlt).trans hslot
  exact (hfrees ks _ ms s s' hls h.run hs a (h.release hrear harg wake)).1

theorem frees_handed_second_task :
    Event.release 1 ∈ events smallPool (secondAddRun 13 ++ [.producer 1 none]) ∧
      FreesHanded smallPool (secondAddRun 13 ++ [.producer 1 none]) := by
  refine ⟨by decide +kernel, (frees_handed_of_first_lap_null (by decide +kernel)).1 ?_⟩
  intro ks s p s' _ slot hslot
  have hmem : slot ∈ [⟨0, none⟩] := List.mem_of_getElem? hslot
  rw [List.mem_singleton.mp hmem]

/-- `smallPool` where `malloc` hands out memory that was in use before. -/
def stalePool : Setup Nat Nat :=
  { smallPool with
    slots := [⟨0, some 7⟩]
    slots_length := rfl }

theorem stale_pointer_freed :
    (calledArgs stalePool (addTask 0 ⟨0, some 1⟩ none)).Nodup ∧
      ¬ FreesHanded stalePool (addTask 0 ⟨0, some 1⟩ none) := by
  refine ⟨by decide +kernel, fun hfrees => ?_⟩
  obtain ⟨s, hs, hcond⟩ : ∃ s, Run.exec step (threadpoolCreate stalePool)
      ((addTask 0 ⟨0, some 1⟩ none).take 4) = some s ∧
      (step s (.producer 0 none)).any (fun s' =>
        decide (Event.release 7 ∈ observe s (.producer 0 none) s')) = true :=
    (Option.any_eq_true _ _).mp (by decide +kernel)
  obtain ⟨s', hs', hrelease⟩ := (Option.any_eq_true _ _).mp hcond
  have hhanded := (hfrees ((addTask 0 ⟨0, some 1⟩ none).take 4) (.producer 0 none)
    ((addTask 0 ⟨0, some 1⟩ none).drop 5) s s' rfl hs hs' 7 (of_decide_eq_true hrelease)).1
  have hnone : 7 ∉ calledArgs stalePool ((addTask 0 ⟨0, some 1⟩ none).take 4) := by decide +kernel
  exact hnone hhanded

end Runs

end LearnCLinux.ThreadPool
