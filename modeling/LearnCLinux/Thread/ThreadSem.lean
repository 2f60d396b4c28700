import LearnCLinux.Library.Run

/-! `thread/thread_sem.c`: a producer that posts a semaphore, a consumer that waits for it, and
`main`, which clears `running` and joins the two. -/

namespace LearnCLinux.Thread.ThreadSem

def semValueMax : Nat := 2147483647

/-- Where a thread stands in its loop; `call` is `sem_post` or `sem_wait`. -/
inductive Pc : Type
  | test
  | call
  | getvalue
  | returned
  deriving DecidableEq

structure Locals where
  pc : Pc
  semVal : Nat
  deriving DecidableEq

inductive MainPc : Type
  | stop
  | joinProducter
  | joinConmuser
  | destroy
  | returned
  deriving DecidableEq

structure State where
  sem : Nat
  running : Bool
  producter : Locals
  conmuser : Locals
  main : MainPc
  deriving DecidableEq

def start : State where
  sem := 16
  running := true
  producter := ⟨.test, 0⟩
  conmuser := ⟨.test, 0⟩
  main := .stop

inductive Label : Type
  | producter
  | conmuser
  | main
  deriving DecidableEq

section Code

/-- At the greatest value `sem_post` fails. -/
def semPost (sem : Nat) : Option Nat := some (if sem < semValueMax then sem + 1 else sem)

/-- `none` while the caller has to wait. -/
def semWait (sem : Nat) : Option Nat := if sem = 0 then none else some (sem - 1)

/-- A step of `while (running)` around `call`. -/
def handle (call : Nat → Option Nat) (s : State) (t : Locals) : Option (Nat × Locals) :=
  match t.pc with
  | .test => some (s.sem, { t with pc := if s.running then .call else .returned })
  | .call => (call s.sem).map fun sem => (sem, { t with pc := .getvalue })
  | .getvalue => some (s.sem, { pc := .test, semVal := s.sem })
  | .returned => none

def producterHandle (s : State) : Option State :=
  (handle semPost s s.producter).map fun (sem, t) => { s with sem, producter := t }

def conmuserHandle (s : State) : Option State :=
  (handle semWait s s.conmuser).map fun (sem, t) => { s with sem, conmuser := t }

/-- From `running = 0` on. -/
def main (s : State) : Option State :=
  match s.main with
  | .stop => some { s with running := false, main := .joinProducter }
  | .joinProducter =>
    if s.producter.pc = .returned then some { s with main := .joinConmuser } else none
  | .joinConmuser => if s.conmuser.pc = .returned then some { s with main := .destroy } else none
  | .destroy => some { s with main := .returned }
  | .returned => none

def step (s : State) : Label → Option State
  | .producter => producterHandle s
  | .conmuser => conmuserHandle s
  | .main => main s

end Code

section Properties

/-- The producer has left its loop, and the consumer waits for a post that nobody makes. -/
def Stuck (s : State) : Prop := s.producter.pc = .returned ∧ s.sem = 0 ∧ s.conmuser.pc = .call

instance (s : State) : Decidable (Stuck s) :=
  inferInstanceAs (Decidable (s.producter.pc = .returned ∧ s.sem = 0 ∧ s.conmuser.pc = .call))

/-- The consumer waits, and the producer is not about to post. -/
def Drained (s : State) : Prop := s.sem = 0 ∧ s.conmuser.pc = .call ∧ s.producter.pc ≠ .call

instance (s : State) : Decidable (Drained s) :=
  inferInstanceAs (Decidable (s.sem = 0 ∧ s.conmuser.pc = .call ∧ s.producter.pc ≠ .call))

def NotStuck (_ : State) (_ : Label) (s' : State) : Prop := ¬ Stuck s'

/-- `running` is not cleared while the semaphore is drained. -/
def StopsUndrained (s : State) (l : Label) (_ : State) : Prop :=
  l = .main → s.main = .stop → ¬ Drained s

instance (s : State) (l : Label) (s' : State) : Decidable (StopsUndrained s l s') :=
  inferInstanceAs (Decidable (l = .main → s.main = .stop → ¬ Drained s))

end Properties

section Inversion

inductive HandleStep (call : Nat → Option Nat) (s : State) (t : Locals) : Nat → Locals → Prop
  | enter : t.pc = .test → s.running = true → HandleStep call s t s.sem { t with pc := .call }
  | leave : t.pc = .test → s.running = false → HandleStep call s t s.sem { t with pc := .returned }
  | call {sem} : t.pc = .call → call s.sem = some sem →
      HandleStep call s t sem { t with pc := .getvalue }
  | getvalue : t.pc = .getvalue → HandleStep call s t s.sem ⟨.test, s.sem⟩

inductive Step (s : State) : Label → State → Prop
  | producter {sem t} : HandleStep semPost s s.producter sem t →
      Step s .producter { s with sem, producter := t }
  | conmuser {sem t} : HandleStep semWait s s.conmuser sem t →
      Step s .conmuser { s with sem, conmuser := t }
  | stop : s.main = .stop → Step s .main { s with running := false, main := .joinProducter }
  | joinProducter : s.main = .joinProducter → s.producter.pc = .returned →
      Step s .main { s with main := .joinConmuser }
  | joinConmuser : s.main = .joinConmuser → s.conmuser.pc = .returned →
      Step s .main { s with main := .destroy }
  | destroy : s.main = .destroy → Step s .main { s with main := .returned }

variable {call : Nat → Option Nat} {s s' : State} {t t' : Locals} {sem : Nat} {l : Label}

theorem handle_cases (h : handle call s t = some (sem, t')) : HandleStep call s t sem t' := by
  rw [handle] at h
  cases hpc : t.pc with
  | test =>
    cases hrunning : s.running with
    | true =>
      simp only [hpc, hrunning, if_true] at h
      cases h
      exact .enter hpc hrunning
    | false =>
      simp only [hpc, hrunning] at h
      cases h
      exact .leave hpc hrunning
  | call =>
    simp only [hpc] at h
    obtain ⟨sem', hsem, heq⟩ := Option.map_eq_some_iff.mp h
    cases heq
    exact .call hpc hsem
  | getvalue =>
    simp only [hpc] at h
    cases h
    exact .getvalue hpc
  | returned =>
    simp only [hpc] at h
    cases h

theorem step_cases (h : step s l = some s') : Step s l s' := by
  cases l with
  | producter =>
    obtain ⟨⟨sem, t⟩, hhandle, rfl⟩ := Option.map_eq_some_iff.mp h
    exact .producter (handle_cases hhandle)
  | conmuser =>
    obtain ⟨⟨sem, t⟩, hhandle, rfl⟩ := Option.map_eq_some_iff.mp h
    exact .conmuser (handle_cases hhandle)
  | main =>
    rw [step, main] at h
    cases hpc : s.main with
    | stop =>
      simp only [hpc] at h
      cases h
      exact .stop hpc
    | joinProducter =>
      simp only [hpc] at h
      split at h
      · cases h
        exact .joinProducter hpc ‹_›
      · cases h
    | joinConmuser =>
      simp only [hpc] at h
      split at h
      · cases h
        exact .joinConmuser hpc ‹_›
      · cases h
    | destroy =>
      simp only [hpc] at h
      cases h
      exact .destroy hpc
    | returned =>
      simp only [hpc] at h
      cases h

end Inversion

section Stopped

variable {s s' : State} {l : Label} {sem sem' : Nat}

theorem semPost_ne_zero (h : semPost sem = some sem') : sem' ≠ 0 := by
  rw [semPost, Option.some_inj] at h
  split at h
  · omega
  · next hfull =>
    have hmax : 0 < semValueMax := by decide
    omega

theorem semWait_eq_none_iff : semWait sem = none ↔ sem = 0 := by
  rw [semWait]
  split
  · next hzero => simp [hzero]
  · next hne => simp [hne]

theorem ne_zero_of_semWait (h : semWait sem = some sem') : sem ≠ 0 := by
  intro hzero
  rw [semWait_eq_none_iff.mpr hzero] at h
  cases h

theorem Step.stopped (h : Step s l s') (hstopped : s.running = false) : s'.running = false := by
  cases h <;> first | exact hstopped | rfl

/-- Behind the write the semaphore stays drained, or never gets drained. -/
theorem Step.drained_iff (h : Step s l s') (hstopped : s.running = false) :
    Drained s' ↔ Drained s := by
  cases h with
  | producter h =>
    cases h with
    | enter hpc hrunning => cases hstopped.symm.trans hrunning
    | leave hpc => simp [Drained, hpc]
    | call hpc hsem => simp [Drained, hpc, semPost_ne_zero hsem]
    | getvalue hpc => simp [Drained, hpc]
  | conmuser h =>
    cases h with
    | enter hpc hrunning => cases hstopped.symm.trans hrunning
    | leave hpc => simp [Drained, hpc]
    | call hpc hsem => simp [Drained, hpc, ne_zero_of_semWait hsem]
    | getvalue hpc => simp [Drained, hpc]
  | stop => rfl
  | joinProducter => rfl
  | joinConmuser => rfl
  | destroy => rfl

def Pc.remaining : Pc → Nat
  | .call => 3
  | .getvalue => 2
  | .test => 1
  | .returned => 0

def MainPc.remaining : MainPc → Nat
  | .stop => 4
  | .joinProducter => 3
  | .joinConmuser => 2
  | .destroy => 1
  | .returned => 0

def remaining (s : State) : Nat :=
  s.producter.pc.remaining + s.conmuser.pc.remaining + s.main.remaining

theorem HandleStep.remaining_lt {call : Nat → Option Nat} {t t' : Locals}
    (h : HandleStep call s t sem t') (hstopped : s.running = false) :
    t'.pc.remaining < t.pc.remaining := by
  cases h with
  | enter hpc hrunning => cases hstopped.symm.trans hrunning
  | leave hpc => simp [hpc, Pc.remaining]
  | call hpc => simp [hpc, Pc.remaining]
  | getvalue hpc => simp [hpc, Pc.remaining]

theorem Step.remaining_lt (h : Step s l s') (hstopped : s.running = false) :
    remaining s' < remaining s := by
  cases h with
  | producter h =>
    have hless := h.remaining_lt hstopped
    simp only [remaining]
    omega
  | conmuser h =>
    have hless := h.remaining_lt hstopped
    simp only [remaining]
    omega
  | stop hpc => simp [remaining, hpc, MainPc.remaining]
  | joinProducter hpc => simp [remaining, hpc, MainPc.remaining]
  | joinConmuser hpc => simp [remaining, hpc, MainPc.remaining]
  | destroy hpc => simp [remaining, hpc, MainPc.remaining]

theorem handle_eq_none {call : Nat → Option Nat} {t : Locals} (h : handle call s t = none) :
    t.pc = .returned ∨ t.pc = .call ∧ call s.sem = none := by
  rw [handle] at h
  cases hpc : t.pc with
  | returned => exact .inl rfl
  | call =>
    simp only [hpc] at h
    exact .inr ⟨rfl, Option.map_eq_none_iff.mp h⟩
  | test => simp [hpc] at h
  | getvalue => simp [hpc] at h

/-- Nobody can go on: `main` has returned, or the consumer waits in vain. -/
theorem returned_or_stuck (h : ∀ l, step s l = none) : s.main = .returned ∨ Stuck s := by
  have hproducter : s.producter.pc = .returned := by
    have hnone := Option.map_eq_none_iff.mp (h .producter)
    exact (handle_eq_none hnone).resolve_right fun hwait => nomatch hwait.2
  rcases handle_eq_none (Option.map_eq_none_iff.mp (h .conmuser)) with hconmuser | ⟨hpc, hwait⟩
  · left
    have hmain := h .main
    rw [step, main] at hmain
    cases hpc : s.main with
    | returned => rfl
    | stop => simp [hpc] at hmain
    | joinProducter => simp [hpc, hproducter] at hmain
    | joinConmuser => simp [hpc, hconmuser] at hmain
    | destroy => simp [hpc] at hmain
  · right
    exact ⟨hproducter, semWait_eq_none_iff.mp hwait, hpc⟩

end Stopped

section Runs

variable {s s' m : State} {l : Label} {ls : List Label}

theorem Stuck.drained (h : Stuck s) : Drained s := by
  obtain ⟨hreturned, hzero, hcall⟩ := h
  exact ⟨hzero, hcall, by rw [hreturned]; decide⟩

theorem Drained.stuck (h : Drained s) (hreturned : s.producter.pc = .returned) : Stuck s :=
  ⟨hreturned, h.1, h.2.1⟩

theorem Step.running (h : Step s l s') : s'.running = s.running ∨
    l = .main ∧ s.main = .stop ∧ s' = { s with running := false, main := .joinProducter } := by
  cases h with
  | stop hpc => exact .inr ⟨rfl, hpc, rfl⟩
  | producter => exact .inl rfl
  | conmuser => exact .inl rfl
  | joinProducter => exact .inl rfl
  | joinConmuser => exact .inl rfl
  | destroy => exact .inl rfl

theorem Step.returned (h : Step s l s') :
    (s.producter.pc = .returned → s'.producter.pc = .returned) ∧
      (s'.producter.pc = .returned → s.producter.pc = .returned ∨ s.running = false) := by
  cases h with
  | producter h =>
    cases h with
    | enter hpc => simp [hpc]
    | leave hpc hstopped => simp [hpc, hstopped]
    | call hpc => simp [hpc]
    | getvalue hpc => simp [hpc]
  | conmuser => exact ⟨id, .inl⟩
  | stop => exact ⟨id, .inl⟩
  | joinProducter => exact ⟨id, .inl⟩
  | joinConmuser => exact ⟨id, .inl⟩
  | destroy => exact ⟨id, .inl⟩

/-- The producer has not left before the write, and the semaphore is not drained behind it. -/
structure Undrained (s : State) : Prop where
  stopped : s.producter.pc = .returned → s.running = false
  undrained : s.running = false → ¬ Drained s

theorem Undrained.not_stuck (hu : Undrained s) : ¬ Stuck s := by
  intro hstuck
  exact hu.undrained (hu.stopped hstuck.1) hstuck.drained

theorem Undrained.step (hu : Undrained s) (h : Step s l s') (hstop : StopsUndrained s l s') :
    Undrained s' := by
  rcases h.running with hsame | ⟨hl, hpc, rfl⟩
  · constructor
    · intro hreturned
      rw [hsame]
      exact (h.returned.2 hreturned).elim hu.stopped id
    · intro hstopped
      rw [hsame] at hstopped
      rw [h.drained_iff hstopped]
      exact hu.undrained hstopped
  · exact ⟨fun _ => rfl, fun _ => hstop hl hpc⟩

theorem start_undrained : Undrained start where
  stopped := by decide
  undrained := by decide

/-- The consumer waits in vain, and `main` for one of the threads. -/
structure Hopeless (s : State) : Prop where
  stopped : s.running = false
  drained : Drained s
  joining : s.main = .joinProducter ∨ s.main = .joinConmuser

theorem Hopeless.step (hh : Hopeless s) (h : Step s l s') : Hopeless s' where
  stopped := h.stopped hh.stopped
  drained := (h.drained_iff hh.stopped).mpr hh.drained
  joining := by
    cases h with
    | producter => exact hh.joining
    | conmuser => exact hh.joining
    | stop => exact .inl rfl
    | joinProducter => exact .inr rfl
    | joinConmuser hpc hreturned => cases hh.drained.2.1.symm.trans hreturned
    | destroy hpc =>
      rcases hh.joining with hjoin | hjoin
      · cases hjoin.symm.trans hpc
      · cases hjoin.symm.trans hpc

theorem exec_hopeless (hh : Hopeless s) (h : Run.exec step s ls = some s') : Hopeless s' :=
  Run.invariant (fun _ _ _ hh hs => hh.step (step_cases hs)) hh h

theorem Hopeless.not_returned (hh : Hopeless s) : s.main ≠ .returned := by
  intro hreturned
  rcases hh.joining with hjoin | hjoin
  · cases hjoin.symm.trans hreturned
  · cases hjoin.symm.trans hreturned

theorem step_stop (hpc : s.main = .stop) :
    step s .main = some { s with running := false, main := .joinProducter } := by
  rw [step, main, hpc]

theorem Drained.hopeless (hd : Drained s) :
    Hopeless { s with running := false, main := .joinProducter } :=
  ⟨rfl, hd, .inl rfl⟩

/-- A run in which the producer leaves its loop never gets stuck if and only if the semaphore is not
drained when `main` clears `running`. -/
theorem shuts_down_iff (h : Run.exec step start ls = some s) :
    Run.Always step NotStuck start ls ↔
      (s.producter.pc = .returned → Run.Always step StopsUndrained start ls) := by
  constructor
  · intro hnot hreturned
    have hfinal : ¬ Stuck s :=
      Run.invariant_of_always (I := fun s => ¬ Stuck s) (fun _ _ _ _ _ hs => hs)
        start_undrained.not_stuck hnot h
    rw [Run.always_iff]
    rintro ks l ms m m' rfl hm hstep rfl hpc hdrained
    obtain ⟨n, hn, hrest⟩ := Run.exec_append.mp h
    cases hm.symm.trans hn
    obtain ⟨n', hn', hrest⟩ := Run.exec_cons.mp hrest
    rw [step_stop hpc] at hn'
    cases hn'
    exact hfinal ((exec_hopeless hdrained.hopeless hrest).drained.stuck hreturned)
  · intro hstop
    by_cases hreturned : s.producter.pc = .returned
    · apply (hstop hreturned).of_invariant (I := Undrained) _ _ start_undrained
      · exact fun s l s' hu hs hl => hu.step (step_cases hs) hl
      · exact fun s l s' hu hs hl => (hu.step (step_cases hs) hl).not_stuck
    · -- nobody has left a loop that the producer is still in
      refine (Run.Always.of_final (F := fun s => s.producter.pc ≠ .returned) ?_ h hreturned).2
      intro s l s' hs hne
      refine ⟨fun hold => hne ((step_cases hs).returned.1 hold), fun hstuck => hne hstuck.1⟩

def onePost : List Label :=
  [.producter, .producter, .main, .producter, .producter, .conmuser, .main, .main, .main]

theorem shuts_down_one_post : ∃ s, Run.exec step start onePost = some s ∧ s.main = .returned ∧
    Run.Always step NotStuck start onePost := by
  have hrun : Run.exec step start onePost =
      some ⟨17, false, ⟨.returned, 17⟩, ⟨.returned, 0⟩, .returned⟩ := by decide +kernel
  exact ⟨_, hrun, rfl, (shuts_down_iff hrun).mpr fun _ => by decide +kernel⟩

theorem Pc.remaining_le (pc : Pc) : pc.remaining ≤ 3 := by
  cases pc <;> decide

theorem remaining_stopped_le (s : State) :
    remaining { s with running := false, main := .joinProducter } ≤ 9 := by
  have hproducter := s.producter.pc.remaining_le
  have hconmuser := s.conmuser.pc.remaining_le
  simp only [remaining, MainPc.remaining]
  omega

theorem exec_undrained (hstopped : s.running = false) (hd : ¬ Drained s)
    (h : Run.exec step s ls = some s') : ¬ Drained s' := by
  have hkept : ∀ s l s', s.running = false ∧ ¬ Drained s → step s l = some s' →
      s'.running = false ∧ ¬ Drained s' := by
    rintro s l s' ⟨hstopped, hd⟩ hs
    refine ⟨(step_cases hs).stopped hstopped, ?_⟩
    rwa [(step_cases hs).drained_iff hstopped]
  exact (Run.invariant hkept ⟨hstopped, hd⟩ h).2

/-- A run behind the write that cannot go on has taken nine steps at most, and `main` has returned
unless the semaphore was drained. -/
theorem returned_iff (hpc : s.main = .stop) (h : Run.exec step s (.main :: ls) = some s')
    (hend : ∀ l, step s' l = none) : ls.length ≤ 9 ∧ (s'.main = .returned ↔ ¬ Drained s) := by
  obtain ⟨m, hm, hrest⟩ := Run.exec_cons.mp h
  rw [step_stop hpc] at hm
  cases hm
  constructor
  · have hkept : ∀ s l s', s.running = false → step s l = some s' →
        s'.running = false ∧ remaining s' < remaining s := by
      intro s l s' hstopped hs
      exact ⟨(step_cases hs).stopped hstopped, (step_cases hs).remaining_lt hstopped⟩
    have hlength := Run.length_add_le (I := fun s => s.running = false) hkept rfl hrest
    have hleft := remaining_stopped_le s
    omega
  · constructor
    · intro hreturned hd
      exact (exec_hopeless hd.hopeless hrest).not_returned hreturned
    · intro hundrained
      have hfinal : ¬ Drained s' :=
        exec_undrained (s := { s with running := false, main := .joinProducter }) rfl hundrained
          hrest
      exact (returned_or_stuck hend).resolve_right fun hstuck => hfinal hstuck.drained

/-- The consumer takes all sixteen and tests `running` once more, before the producer's first
step. -/
def drain : List Label := List.replicate 49 .conmuser ++ [.main, .producter]

/-- The consumer waits in `sem_wait`, and `main` for the consumer. -/
theorem drained_consumer_stuck :
    ∃ s, Run.exec step start drain = some s ∧ Stuck s ∧
      ∀ ls s', Run.exec step s ls = some s' → s'.main ≠ .returned := by
  obtain ⟨s, hs, hcond⟩ : ∃ s, Run.exec step start drain = some s ∧
      decide (Stuck s ∧ s.running = false ∧ s.main = .joinProducter) = true :=
    (Option.any_eq_true _ _).mp (by decide +kernel)
  obtain ⟨hstuck, hstopped, hjoin⟩ := of_decide_eq_true hcond
  have hhopeless : Hopeless s := ⟨hstopped, hstuck.drained, .inl hjoin⟩
  exact ⟨s, hs, hstuck, fun ls s' h => (exec_hopeless hhopeless h).not_returned⟩

end Runs

end LearnCLinux.Thread.ThreadSem
