import LearnCLinux.Library.Run
import LearnCLinux.Library.Threads

/-! `thread/thread_lock.c`: a producer and a consumer that change one counter under a mutex and
print it, and `main`, which clears `running` and joins the two.  An increment is a load and a
store, so that two of them could get mixed up. -/

namespace LearnCLinux.Thread.ThreadLock

open Threads

inductive Who : Type
  | producter
  | consumer
  deriving DecidableEq

inductive Pc : Type
  | test
  | lock
  | load
  | store
  | print
  | unlock
  | returned
  deriving DecidableEq

/-- `item` is the register between the load and the store. -/
structure Locals where
  pc : Pc
  item : Int32
  deriving DecidableEq

structure Globals where
  mutex : Option Who
  bufferHasItem : Int32
  running : Bool
  deriving DecidableEq

inductive MainPc : Type
  | stop
  | joinConsumer
  | joinProducter
  | destroy
  | returned
  deriving DecidableEq

structure State extends Globals where
  producter : Locals
  consumer : Locals
  main : MainPc
  deriving DecidableEq

def start : State where
  mutex := none
  bufferHasItem := 0
  running := true
  producter := ⟨.test, 0⟩
  consumer := ⟨.test, 0⟩
  main := .stop

inductive Label : Type
  | thread : Who → Label
  | main
  deriving DecidableEq

section Code

/-- A step of `while (running)` around a change of the counter. -/
def handle (self : Who) (change : Int32) (g : Globals) (t : Locals) : Option (Globals × Locals) :=
  match t.pc with
  | .test => some (g, { t with pc := if g.running then .lock else .returned })
  | .lock =>
    if g.mutex = none then some ({ g with mutex := some self }, { t with pc := .load }) else none
  | .load => some (g, ⟨.store, g.bufferHasItem⟩)
  | .store => some ({ g with bufferHasItem := t.item + change }, { t with pc := .print })
  | .print => some (g, { t with pc := .unlock })
  | .unlock => some ({ g with mutex := none }, { t with pc := .test })
  | .returned => none

def producterF : Globals → Locals → Option (Globals × Locals) := handle .producter 1

def consumerF : Globals → Locals → Option (Globals × Locals) := handle .consumer (-1)

/-- From `running = 0` on. -/
def main (s : State) : Option State :=
  match s.main with
  | .stop => some { s with running := false, main := .joinConsumer }
  | .joinConsumer =>
    if s.consumer.pc = .returned then some { s with main := .joinProducter } else none
  | .joinProducter =>
    if s.producter.pc = .returned then some { s with main := .destroy } else none
  | .destroy => some { s with main := .returned }
  | .returned => none

def step (s : State) : Label → Option State
  | .thread .producter => (producterF s.toGlobals s.producter).map fun (g, t) =>
    { s with toGlobals := g, producter := t }
  | .thread .consumer => (consumerF s.toGlobals s.consumer).map fun (g, t) =>
    { s with toGlobals := g, consumer := t }
  | .main => main s

/-- A printed line: who prints, and the number. -/
def observe (s : State) : Label → State → List (Who × Int32)
  | .thread .producter, _ =>
    if s.producter.pc = .print then [(.producter, s.bufferHasItem)] else []
  | .thread .consumer, _ =>
    if s.consumer.pc = .print then [(.consumer, s.bufferHasItem)] else []
  | .main, _ => []

def printed (ls : List Label) : List (Who × Int32) := Run.trace step observe start ls

end Code

section Inversion

def State.thread (s : State) : Who → Locals
  | .producter => s.producter
  | .consumer => s.consumer

def State.set (s : State) (g : Globals) (t : Locals) : Who → State
  | .producter => { s with toGlobals := g, producter := t }
  | .consumer => { s with toGlobals := g, consumer := t }

def Who.change : Who → Int32
  | .producter => 1
  | .consumer => -1

inductive HandleStep (self : Who) (g : Globals) : Locals → Globals → Locals → Prop
  | enter {item} : g.running = true → HandleStep self g ⟨.test, item⟩ g ⟨.lock, item⟩
  | leave {item} : g.running = false → HandleStep self g ⟨.test, item⟩ g ⟨.returned, item⟩
  | lock {item} : g.mutex = none →
      HandleStep self g ⟨.lock, item⟩ { g with mutex := some self } ⟨.load, item⟩
  | load {item} : HandleStep self g ⟨.load, item⟩ g ⟨.store, g.bufferHasItem⟩
  | store {item} : HandleStep self g ⟨.store, item⟩
      { g with bufferHasItem := item + self.change } ⟨.print, item⟩
  | print {item} : HandleStep self g ⟨.print, item⟩ g ⟨.unlock, item⟩
  | unlock {item} : HandleStep self g ⟨.unlock, item⟩ { g with mutex := none } ⟨.test, item⟩

inductive Step (s : State) : Label → State → Prop
  | thread {w g t} : HandleStep w s.toGlobals (s.thread w) g t → Step s (.thread w) (s.set g t w)
  | stop : s.main = .stop → Step s .main { s with running := false, main := .joinConsumer }
  | joinConsumer : s.main = .joinConsumer → s.consumer.pc = .returned →
      Step s .main { s with main := .joinProducter }
  | joinProducter : s.main = .joinProducter → s.producter.pc = .returned →
      Step s .main { s with main := .destroy }
  | destroy : s.main = .destroy → Step s .main { s with main := .returned }

variable {s s' : State} {l : Label} {w : Who} {g g' : Globals} {t t' : Locals}

theorem handle_cases (h : handle w w.change g t = some (g', t')) : HandleStep w g t g' t' := by
  obtain ⟨pc, item⟩ := t
  cases pc <;> simp only [handle] at h
  case test =>
    cases hrunning : g.running with
    | true =>
      rw [hrunning] at h
      cases h
      exact .enter hrunning
    | false =>
      rw [hrunning] at h
      cases h
      exact .leave hrunning
  case lock => split at h <;> cases h; exact .lock ‹_›
  case load => cases h; exact .load
  case store => cases h; exact .store
  case print => cases h; exact .print
  case unlock => cases h; exact .unlock
  case returned => cases h

theorem step_cases (h : step s l = some s') : Step s l s' := by
  cases l with
  | thread w =>
    cases w with
    | producter =>
      obtain ⟨⟨g, t⟩, hhandle, rfl⟩ := Option.map_eq_some_iff.mp h
      exact .thread (w := .producter) (handle_cases hhandle)
    | consumer =>
      obtain ⟨⟨g, t⟩, hhandle, rfl⟩ := Option.map_eq_some_iff.mp h
      exact .thread (w := .consumer) (handle_cases hhandle)
  | main =>
    rw [step, main] at h
    cases hpc : s.main <;> simp only [hpc] at h
    case stop => cases h; exact .stop hpc
    case joinConsumer => split at h <;> cases h; exact .joinConsumer hpc ‹_›
    case joinProducter => split at h <;> cases h; exact .joinProducter hpc ‹_›
    case destroy => cases h; exact .destroy hpc
    case returned => cases h

@[simp] theorem set_globals : (s.set g t w).toGlobals = g := by cases w <;> rfl

@[simp] theorem set_main : (s.set g t w).main = s.main := by cases w <;> rfl

@[simp] theorem set_thread_self : (s.set g t w).thread w = t := by cases w <;> rfl

theorem set_thread_other {v : Who} (h : v ≠ w) : (s.set g t w).thread v = s.thread v := by
  cases w <;> cases v <;> first | rfl | exact absurd rfl h

theorem observe_thread : observe s (.thread w) s' =
    if (s.thread w).pc = .print then [(w, s.bufferHasItem)] else [] := by
  cases w <;> rfl

end Inversion

section Exclusion

def Locals.holds (t : Locals) : Bool :=
  match t.pc with
  | .load | .store | .print | .unlock => true
  | _ => false

def State.threads (s : State) (w : Who) : Option Locals := some (s.thread w)

variable {s s' : State} {l : Label} {w : Who} {g : Globals} {t : Locals}

theorem moves_set (s : State) (g : Globals) (t : Locals) (w : Who) :
    Moves (fun _ => False) s.threads (s.set g t w).threads w (s.thread w) t where
  before := rfl
  after := by rw [State.threads, set_thread_self]
  others v hv := by
    left
    rw [State.threads, set_thread_other hv, State.threads]

theorem HandleStep.mutexOp {t' : Locals} (h : HandleStep w g t g' t') :
    MutexOp w t.holds t'.holds g.mutex g'.mutex := by
  cases h with
  | lock hfree => exact .inl ⟨hfree, rfl⟩
  | unlock => exact .inr (.inl ⟨rfl, rfl, rfl⟩)
  | _ => exact .inr (.inr ⟨rfl, rfl⟩)

end Exclusion

section Counting

def total (lines : List (Who × Int32)) : Int :=
  lines.countP (fun line => decide (line.1 = .producter)) -
    lines.countP fun line => decide (line.1 = .consumer)

def Numbered (lines : List (Who × Int32)) : Prop :=
  ∀ before w n after, lines = before ++ (w, n) :: after →
    n = Int32.ofInt (total (before ++ [(w, n)]))

/-- What the owner of the mutex knows of the counter, where `n` is the total of the lines. -/
def Locals.Counted (w : Who) (t : Locals) (counter n : Int32) : Prop :=
  match t.pc with
  | .load | .unlock => counter = n
  | .store => t.item = counter ∧ counter = n
  | .print => counter = n + w.change
  | _ => False

structure Counted (lines : List (Who × Int32)) (s : State) : Prop where
  exclusive : Exclusive Locals.holds s.mutex s.threads
  numbered : Numbered lines
  free : s.mutex = none → s.bufferHasItem = Int32.ofInt (total lines)
  owner : ∀ w, s.mutex = some w →
    (s.thread w).Counted w s.bufferHasItem (Int32.ofInt (total lines))

variable {s s' : State} {l : Label} {w : Who} {g : Globals} {t t' : Locals}
  {lines : List (Who × Int32)}

theorem total_concat (lines : List (Who × Int32)) (w : Who) (n : Int32) :
    Int32.ofInt (total (lines ++ [(w, n)])) = Int32.ofInt (total lines) + w.change := by
  have hone : Int32.ofInt 1 = 1 := rfl
  cases w with
  | producter =>
    have hsum : total (lines ++ [(.producter, n)]) = total lines + 1 := by
      simp only [total, List.countP_append, List.countP_singleton]
      simp
      omega
    rw [hsum, Int32.ofInt_add, hone, Who.change]
  | consumer =>
    have hsum : total (lines ++ [(.consumer, n)]) = total lines + -1 := by
      simp only [total, List.countP_append, List.countP_singleton]
      simp
      omega
    rw [hsum, Int32.ofInt_add, Who.change]
    rfl

theorem Numbered.concat (h : Numbered lines) {n : Int32}
    (hn : n = Int32.ofInt (total lines) + w.change) : Numbered (lines ++ [(w, n)]) := by
  intro before v m after heq
  rcases List.eq_nil_or_concat after with rfl | ⟨after', last, rfl⟩
  · obtain ⟨rfl, hlast⟩ := List.append_inj' heq rfl
    cases hlast
    rw [total_concat, hn]
  · rw [List.concat_eq_append, ← List.cons_append, ← List.append_assoc] at heq
    obtain ⟨hlines, -⟩ := List.append_inj' heq rfl
    exact h before v m after' hlines

theorem start_counted : Counted [] start where
  exclusive v t hv hholds := by
    cases v <;> cases hv <;> cases hholds
  numbered before v n after h := by simp at h
  free _ := rfl
  owner v hv := by cases hv

theorem Locals.Counted.holds {counter n : Int32} (h : t.Counted w counter n) :
    t.holds = true := by
  obtain ⟨pc, item⟩ := t
  cases pc <;> first | rfl | exact h.elim

theorem Counted.inside (hexclusive : Exclusive Locals.holds g.mutex (s.set g t w).threads)
    (hnumbered : Numbered lines) (hmutex : g.mutex = some w)
    (ht : t.Counted w g.bufferHasItem (Int32.ofInt (total lines))) :
    Counted lines (s.set g t w) where
  exclusive := by rwa [set_globals]
  numbered := hnumbered
  free hfree := by
    rw [set_globals, hmutex] at hfree
    cases hfree
  owner v hv := by
    rw [set_globals, hmutex] at hv
    cases hv
    rwa [set_globals, set_thread_self]

theorem Counted.outside (hc : Counted lines s) (ht : (s.thread w).holds = false)
    (ht' : t.holds = false) : Counted lines (s.set s.toGlobals t w) where
  exclusive := by
    rw [set_globals]
    refine hc.exclusive.step (moves_set s _ t w) (.inr (.inr ⟨?_, rfl⟩)) fun _ hnew => hnew.elim
    rw [ht, ht']
  numbered := hc.numbered
  free hfree := by
    rw [set_globals] at hfree ⊢
    exact hc.free hfree
  owner v hv := by
    rw [set_globals] at hv ⊢
    have hcounted := hc.owner v hv
    have hvw : v ≠ w := by
      rintro rfl
      rw [hcounted.holds] at ht
      cases ht
    rwa [set_thread_other hvw]

theorem Counted.thread_step (hc : Counted lines s)
    (h : HandleStep w s.toGlobals (s.thread w) g t) :
    Counted (lines ++ observe s (.thread w) s') (s.set g t w) := by
  have hexclusive : Exclusive Locals.holds g.mutex (s.set g t w).threads :=
    hc.exclusive.step (moves_set s g t w) h.mutexOp fun _ hnew => hnew.elim
  have hmutex : (s.thread w).holds = true → s.mutex = some w := hc.exclusive w _ rfl
  have hcounted := hc.owner w
  have houtside := hc.outside (w := w) (t := t)
  rw [observe_thread]
  generalize s.thread w = before at h hmutex hcounted houtside
  cases h with
  | enter | leave =>
    rw [if_neg nofun, List.append_nil]
    exact houtside rfl rfl
  | lock hfree =>
    rw [if_neg nofun, List.append_nil]
    exact .inside hexclusive hc.numbered rfl (hc.free hfree)
  | load =>
    rw [if_neg nofun, List.append_nil]
    exact .inside hexclusive hc.numbered (hmutex rfl) ⟨rfl, hcounted (hmutex rfl)⟩
  | @store item =>
    obtain ⟨hitem, hcounter⟩ : item = s.bufferHasItem ∧ _ := hcounted (hmutex rfl)
    rw [if_neg nofun, List.append_nil]
    refine .inside hexclusive hc.numbered (hmutex rfl) ?_
    change item + w.change = _ + w.change
    rw [hitem, hcounter]
  | print =>
    have hcounter : s.bufferHasItem = _ := hcounted (hmutex rfl)
    rw [if_pos rfl]
    refine .inside hexclusive (hc.numbered.concat hcounter) (hmutex rfl) ?_
    rw [Locals.Counted, total_concat, hcounter]
  | unlock =>
    have hcounter : s.bufferHasItem = _ := hcounted (hmutex rfl)
    rw [if_neg nofun, List.append_nil]
    refine ⟨by rwa [set_globals], hc.numbered, fun _ => ?_, fun v hv => ?_⟩
    · rwa [set_globals]
    · rw [set_globals] at hv
      cases hv

theorem Counted.step (hc : Counted lines s) (h : Step s l s') :
    Counted (lines ++ observe s l s') s' := by
  cases h with
  | thread h => exact hc.thread_step h
  | _ =>
    rw [observe, List.append_nil]
    exact ⟨hc.exclusive, hc.numbered, hc.free, hc.owner⟩

end Counting

section Printed

variable {ls : List Label} {s : State}

theorem printed_counted (hrun : Run.exec step start ls = some s) : Counted (printed ls) s := by
  have hall : Run.Always step (fun _ _ _ => True) start ls := Run.always_true start ls
  exact Run.trace_invariant (I := Counted) observe (fun _ _ _ _ hc hs _ => hc.step (step_cases hs))
    [] start_counted hall hrun

/-- No increment or decrement is lost, and none shows twice: each line has the number of the
producer's lines less that of the consumer's, both up to itself, and between two critical sections
that is the counter. -/
theorem lines_numbered (hrun : Run.exec step start ls = some s) :
    Numbered (printed ls) ∧
      (s.mutex = none → s.bufferHasItem = Int32.ofInt (total (printed ls))) := by
  have hcounted := printed_counted hrun
  exact ⟨hcounted.numbered, hcounted.free⟩

def oneLineEach : List Label :=
  [.thread .producter, .thread .producter, .thread .consumer, .thread .producter,
    .thread .producter, .thread .producter, .thread .producter, .thread .consumer,
    .thread .consumer, .thread .consumer, .thread .consumer]

theorem lines_numbered_one_each :
    ∃ s, Run.exec step start oneLineEach = some s ∧
      printed oneLineEach = [(.producter, 1), (.consumer, 0)] ∧ Numbered (printed oneLineEach) := by
  obtain ⟨s, hs⟩ : ∃ s, Run.exec step start oneLineEach = some s :=
    Option.isSome_iff_exists.mp (by decide)
  exact ⟨s, hs, by decide, (lines_numbered hs).1⟩

end Printed

section Shutdown

variable {s s' : State} {l : Label} {ls ks : List Label} {w : Who} {g g' : Globals}
  {t t' : Locals} {lines : List (Who × Int32)}

def Pc.remaining : Pc → Nat
  | .lock => 6
  | .load => 5
  | .store => 4
  | .print => 3
  | .unlock => 2
  | .test => 1
  | .returned => 0

def MainPc.remaining : MainPc → Nat
  | .stop => 4
  | .joinConsumer => 3
  | .joinProducter => 2
  | .destroy => 1
  | .returned => 0

def State.remaining (s : State) : Nat :=
  s.producter.pc.remaining + s.consumer.pc.remaining + s.main.remaining

theorem HandleStep.remaining_lt (h : HandleStep w g t g' t') (hstopped : g.running = false) :
    g'.running = false ∧ t'.pc.remaining < t.pc.remaining := by
  cases h with
  | enter hrunning => cases hstopped.symm.trans hrunning
  | _ => exact ⟨hstopped, by simp [Pc.remaining]⟩

theorem Step.remaining_lt (h : Step s l s') (hstopped : s.running = false) :
    s'.running = false ∧ s'.remaining < s.remaining := by
  cases h with
  | @thread w g t h =>
    obtain ⟨hstopped', hless⟩ := h.remaining_lt hstopped
    refine ⟨by rwa [set_globals], ?_⟩
    cases w <;> simp only [State.remaining, State.set, State.thread] at hless ⊢ <;> omega
  | stop hpc => exact ⟨rfl, by simp [State.remaining, hpc, MainPc.remaining]⟩
  | joinConsumer hpc | joinProducter hpc | destroy hpc =>
    exact ⟨hstopped, by simp [State.remaining, hpc, MainPc.remaining]⟩

theorem remaining_le (s : State) : s.remaining ≤ 16 := by
  have hpc : ∀ pc : Pc, pc.remaining ≤ 6 := by rintro ⟨⟩ <;> decide
  have hmain : s.main.remaining ≤ 4 := by cases s.main <;> decide
  have hproducter := hpc s.producter.pc
  have hconsumer := hpc s.consumer.pc
  rw [State.remaining]
  omega

theorem handle_eq_none {change : Int32} (h : handle w change g t = none) :
    t.pc = .returned ∨ t.pc = .lock ∧ g.mutex ≠ none := by
  obtain ⟨pc, item⟩ := t
  cases pc <;> simp only [handle] at h
  case lock => split at h <;> cases h; exact .inr ⟨rfl, ‹_›⟩
  case returned => exact .inl rfl
  all_goals cases h

theorem step_thread_eq_none (h : step s (.thread w) = none) :
    (s.thread w).pc = .returned ∨ (s.thread w).pc = .lock ∧ s.mutex ≠ none := by
  cases w with
  | producter => exact handle_eq_none (Option.map_eq_none_iff.mp h)
  | consumer => exact handle_eq_none (Option.map_eq_none_iff.mp h)

/-- The program comes to rest at its end only: the owner of the mutex can go on. -/
theorem counted_rests (hc : Counted lines s) (hrest : ∀ l, step s l = none) :
    s.main = .returned ∧ s.mutex = none ∧ ∀ w, (s.thread w).pc = .returned := by
  have hmutex : s.mutex = none := by
    refine Option.eq_none_iff_forall_ne_some.mpr fun w hw => ?_
    have hcounted := hc.owner w hw
    rcases step_thread_eq_none (hrest (.thread w)) with hpc | ⟨hpc, -⟩ <;>
      rw [Locals.Counted, hpc] at hcounted <;> exact hcounted
  have hreturned : ∀ w, (s.thread w).pc = .returned := fun w =>
    (step_thread_eq_none (hrest (.thread w))).resolve_right fun hwait => hwait.2 hmutex
  refine ⟨?_, hmutex, hreturned⟩
  have hmain := hrest .main
  have hproducter : s.producter.pc = .returned := hreturned .producter
  have hconsumer : s.consumer.pc = .returned := hreturned .consumer
  rw [step, main] at hmain
  cases hpc : s.main with
  | returned => rfl
  | stop | destroy => simp [hpc] at hmain
  | joinConsumer => simp [hpc, hconsumer] at hmain
  | joinProducter => simp [hpc, hproducter] at hmain

/-- However the threads are scheduled, the program ends within 16 steps of `running = 0`: both
threads have left their loops, nobody has the mutex, and `main` returns. -/
theorem shuts_down (hrun : Run.exec step start ls = some s) (hstopped : s.running = false)
    (hks : Run.exec step s ks = some s') :
    ks.length ≤ 16 ∧ ((∀ l, step s' l = none) →
      s'.main = .returned ∧ s'.mutex = none ∧ ∀ w, (s'.thread w).pc = .returned) := by
  have hlength := Run.length_add_le (I := fun m => m.running = false)
    (fun m l m' hm hl => (step_cases hl).remaining_lt hm) hstopped hks
  have hle := remaining_le s
  exact ⟨by omega, counted_rests (printed_counted (Run.exec_append.mpr ⟨s, hrun, hks⟩))⟩

def lastSteps : List Label :=
  List.replicate 5 (.thread .producter) ++ List.replicate 6 (.thread .consumer) ++
    List.replicate 3 .main

theorem shuts_down_one_inside :
    ∃ s s', Run.exec step start (oneLineEach.take 3 ++ [.main]) = some s ∧
      Run.exec step s lastSteps = some s' ∧
      (s'.main = .returned ∧ s'.mutex = none ∧ ∀ w, (s'.thread w).pc = .returned) := by
  obtain ⟨s, hs, hcond⟩ : ∃ s, Run.exec step start (oneLineEach.take 3 ++ [.main]) = some s ∧
      (!s.running && (Run.exec step s lastSteps).any fun s' => (step s' .main).isNone &&
        (step s' (.thread .producter)).isNone && (step s' (.thread .consumer)).isNone) = true :=
    (Option.any_eq_true _ _).mp (by decide)
  obtain ⟨hstopped, hend⟩ := Bool.and_eq_true_iff.mp hcond
  obtain ⟨s', hs', hnone⟩ := (Option.any_eq_true _ _).mp hend
  simp only [Bool.and_eq_true, Option.isNone_iff_eq_none] at hnone
  refine ⟨s, s', hs, hs', (shuts_down hs (by simpa using hstopped) hs').2 ?_⟩
  rintro (⟨⟨⟩⟩ | ⟨⟩)
  · exact hnone.1.2
  · exact hnone.2
  · exact hnone.1.1

end Shutdown

end LearnCLinux.Thread.ThreadLock
