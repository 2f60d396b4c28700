import Mathlib.Data.List.Induction
import Mathlib.Logic.Function.Basic
import Mathlib.Tactic.IntervalCases
import LearnCLinux.Library.Run
import LearnCLinux.Library.Threads

/-! `process/communication/sem/sem.c`: the System V semaphore behind `Sem_P` and `Sem_V`, and
processes that guard a critical section with the two. -/

namespace LearnCLinux.Process.Sem

/-- The value of each semaphore: which set it is in, and its number there. -/
abbrev Sems := Int × Nat → Option Nat

structure Sembuf where
  semNum : Nat
  semOp : Int
  semFlg : Nat

def ipcNowait : Nat := 0o4000

/-- An operation 0 waits for the value 0, any other one for a result that is not negative. -/
def proceeds (val : Nat) (semOp : Int) : Bool :=
  if semOp = 0 then val = 0 else 0 ≤ val + semOp

/-- `semop(sem_id, &sops, 1)`: the semaphores afterwards and what it returns, `none` while the
caller has to wait. -/
def semop (semId : Int) (sops : Sembuf) (sems : Sems) : Option (Sems × Int) :=
  match sems (semId, sops.semNum) with
  | none => some (sems, -1)
  | some val =>
    if proceeds val sops.semOp = true then
      some (Function.update sems (semId, sops.semNum) (some (val + sops.semOp).toNat), 0)
    else if sops.semFlg &&& ipcNowait ≠ 0 then some (sems, -1)
    else none

/-- `CreateSem(key, value)`, where `semget` returned `semget`. -/
def createSem (semget : Int) (value : Nat) (sems : Sems) : Sems × Int :=
  if semget = -1 then (sems, -1)
  else (Function.update sems (semget, 0) (some value), semget)

def semP (semId : Int) (sems : Sems) : Option (Sems × Int) :=
  semop semId ⟨0, 1, ipcNowait⟩ sems

def semV (semId : Int) (sems : Sems) : Option (Sems × Int) :=
  semop semId ⟨0, -1, ipcNowait⟩ sems

/-- `GetvalueSem`: -1 where `semctl` finds no such set. -/
def getvalueSem (semId : Int) (sems : Sems) : Int :=
  match sems (semId, 0) with
  | none => -1
  | some val => val

inductive Pc : Type
  | semP
  | critical
  | semV
  deriving DecidableEq

structure State where
  sems : Sems
  procs : List Pc

/-- `n` processes and the semaphore `CreateSem(key, 1)` has made for them. -/
def start (semget : Int) (sems : Sems) (n : Nat) : State :=
  ⟨(createSem semget 1 sems).1, List.replicate n .semP⟩

/-- Process `i` goes on: `Sem_P`, the critical section if that returned 0, `Sem_V`, and again. -/
def step (semId : Int) (s : State) (i : Nat) : Option State :=
  match s.procs[i]? with
  | none => none
  | some .semP => (semP semId s.sems).map fun r =>
    ⟨r.1, s.procs.set i (if r.2 = 0 then .critical else .semV)⟩
  | some .critical => some ⟨s.sems, s.procs.set i .semV⟩
  | some .semV => (semV semId s.sems).map fun r => ⟨r.1, s.procs.set i .semP⟩

theorem semop_eq {semId : Int} (sops : Sembuf) {sems : Sems} {val : Nat}
    (hval : sems (semId, sops.semNum) = some val) (hproceeds : proceeds val sops.semOp = true) :
    semop semId sops sems = some (Function.update sems (semId, sops.semNum)
      (some (val + sops.semOp).toNat), 0) := by
  simp only [semop, hval, hproceeds, if_true]

/-- `Sem_P` adds to the semaphore, and so it always succeeds. -/
theorem semP_eq {semId : Int} {sems : Sems} {val : Nat} (hval : sems (semId, 0) = some val) :
    semP semId sems = some (Function.update sems (semId, 0) (some (val + 1)), 0) := by
  have hproceeds : proceeds val 1 = true := by
    rw [proceeds, if_neg (by decide)]
    exact decide_eq_true (by omega)
  rw [semP, semop_eq ⟨0, 1, ipcNowait⟩ hval hproceeds]
  rfl

theorem semV_eq {semId : Int} {sems : Sems} {val : Nat}
    (hval : sems (semId, 0) = some (val + 1)) :
    semV semId sems = some (Function.update sems (semId, 0) (some val), 0) := by
  have hproceeds : proceeds (val + 1) (-1) = true := by
    rw [proceeds, if_neg (by decide)]
    exact decide_eq_true (by omega)
  have hvalue : ((val + 1 : Nat) + (-1 : Int)).toNat = val := by omega
  rw [semV, semop_eq ⟨0, -1, ipcNowait⟩ hval hproceeds, hvalue]

def Pc.next : Pc → Pc
  | .semP => .critical
  | .critical => .semV
  | .semV => .semP

def Pc.between (pc : Pc) : Bool := pc ≠ .semP

@[simp] theorem between_semP : Pc.between .semP = false := rfl

@[simp] theorem between_critical : Pc.between .critical = true := rfl

@[simp] theorem between_semV : Pc.between .semV = true := rfl

/-- The value is one more than the number of processes between their two calls. -/
def Counted (semId : Int) (s : State) : Prop :=
  s.sems (semId, 0) = some (1 + s.procs.countP Pc.between)

theorem Counted.step {semId : Int} {s : State} (h : Counted semId s) {i : Nat} {pc : Pc}
    (hpc : s.procs[i]? = some pc) : ∃ sems, step semId s i = some ⟨sems, s.procs.set i pc.next⟩ ∧
      Counted semId ⟨sems, s.procs.set i pc.next⟩ := by
  have hcount := Threads.countP_set_add Pc.between hpc pc.next
  cases pc with
  | semP =>
    have hmore : (s.procs.set i .critical).countP Pc.between = s.procs.countP Pc.between + 1 := by
      simpa [Pc.next] using hcount
    refine ⟨_, by simp only [Sem.step, hpc, semP_eq h]; rfl, ?_⟩
    simp [Counted, Pc.next, hmore, Nat.add_assoc]
  | critical =>
    have hsame : (s.procs.set i .semV).countP Pc.between = s.procs.countP Pc.between := by
      simpa [Pc.next] using hcount
    refine ⟨s.sems, by simp only [Sem.step, hpc]; rfl, ?_⟩
    rw [Counted, Pc.next, hsame]
    exact h
  | semV =>
    have hless : (s.procs.set i .semP).countP Pc.between + 1 = s.procs.countP Pc.between := by
      simpa [Pc.next] using hcount
    have hval : s.sems (semId, 0) = some (1 + (s.procs.set i .semP).countP Pc.between + 1) := by
      rw [h, ← hless, Nat.add_assoc]
    refine ⟨_, by simp only [Sem.step, hpc, semV_eq hval]; rfl, ?_⟩
    simp [Counted, Pc.next]

def pcAfter : Nat → Pc
  | 0 => .semP
  | k + 1 => (pcAfter k).next

theorem pcAfter_mod (k : Nat) : pcAfter (k % 3) = pcAfter k := by
  induction k using Nat.strongRecOn with
  | ind k ih =>
    by_cases hlt : k < 3
    · rw [Nat.mod_eq_of_lt hlt]
    · obtain ⟨m, rfl⟩ := Nat.exists_eq_add_of_le' (Nat.le_of_not_lt hlt)
      rw [Nat.add_mod_right, ih m (by omega)]
      simp only [pcAfter]
      cases pcAfter m <;> rfl

theorem pcAfter_eq_critical (k : Nat) : pcAfter k = .critical ↔ k % 3 = 1 := by
  rw [← pcAfter_mod]
  have hlt : k % 3 < 3 := Nat.mod_lt _ (by decide)
  interval_cases k % 3 <;> decide

/-- The schedule alone says where the processes stand. -/
structure Scheduled (semId : Int) (n : Nat) (ls : List Nat) (s : State) : Prop where
  counted : Counted semId s
  pc : ∀ i, s.procs[i]? = if i < n then some (pcAfter (ls.count i)) else none

section Runs

variable {semId : Int} {n : Nat} {ls : List Nat} {s : State}

theorem start_scheduled (hsem : semId ≠ -1) (sems : Sems) (n : Nat) :
    Scheduled semId n [] (start semId sems n) where
  counted := by
    have hzero : (List.replicate n Pc.semP).countP Pc.between = 0 := by
      rw [List.countP_eq_zero]
      intro pc hpc
      rw [List.eq_of_mem_replicate hpc]
      exact Bool.false_ne_true
    simp [Counted, start, createSem, hsem, hzero]
  pc i := by simp [start, pcAfter, List.getElem?_replicate]

theorem Scheduled.step (h : Scheduled semId n ls s) {i : Nat} (hi : i < n) :
    ∃ s', step semId s i = some s' ∧ Scheduled semId n (ls ++ [i]) s' := by
  have hpc : s.procs[i]? = some (pcAfter (ls.count i)) := by rw [h.pc, if_pos hi]
  obtain ⟨sems, hstep, hcounted⟩ := h.counted.step hpc
  refine ⟨_, hstep, hcounted, fun j => ?_⟩
  by_cases hij : i = j
  · subst hij
    rw [Threads.getElem?_set_of_some hpc, if_pos hi]
    simp [pcAfter]
  · rw [List.getElem?_set_ne hij, h.pc]
    simp [hij]

theorem exec_scheduled (hsem : semId ≠ -1) (sems : Sems) (hls : ∀ i ∈ ls, i < n) :
    ∃ s, Run.exec (step semId) (start semId sems n) ls = some s ∧ Scheduled semId n ls s := by
  induction ls using List.reverseRecOn with
  | nil => exact ⟨_, rfl, start_scheduled hsem sems n⟩
  | append_singleton ls i ih =>
    obtain ⟨s, hs, hsched⟩ := ih fun j hj => hls j (List.mem_append_left _ hj)
    obtain ⟨s', hs', hsched'⟩ := hsched.step (hls i (by simp))
    exact ⟨s', Run.exec_append.mpr ⟨s, hs, Run.exec_cons.mpr ⟨s', hs', rfl⟩⟩, hsched'⟩

end Runs

def MutualExclusion (s : State) : Prop :=
  ∀ i j : Nat, s.procs[i]? = some Pc.critical → s.procs[j]? = some Pc.critical → i = j

/-- When a process makes the first of the three steps of a round, no other one has just made the
first of its own. -/
def TakesTurns (ls : List Nat) : Prop :=
  ∀ k i : Nat, ls[k]? = some i → (ls.take k).count i % 3 = 0 →
    ∀ j ∈ ls.take k, (ls.take k).count j % 3 ≠ 1

instance (ls : List Nat) : Decidable (TakesTurns ls) :=
  Threads.decidableForall ls fun k i => (ls.take k).count i % 3 = 0 →
    ∀ j ∈ ls.take k, (ls.take k).count j % 3 ≠ 1

theorem takesTurns_iff {ls : List Nat} : TakesTurns ls ↔ ∀ ks i ms, ls = ks ++ i :: ms →
    ks.count i % 3 = 0 → ∀ j, ks.count j % 3 ≠ 1 := by
  constructor
  · rintro h ks i ms rfl hi j hj
    have hmem : j ∈ ks := List.count_pos_iff.mp (by omega)
    exact h ks.length i (by simp) (by simpa using hi) j (by simpa using hmem) (by simpa using hj)
  · intro h k i hk hi j _
    obtain ⟨hlt, rfl⟩ := List.getElem?_eq_some_iff.mp hk
    exact h (ls.take k) ls[k] (ls.drop (k + 1)) (by simp) hi j

theorem TakesTurns.unique {ls ks : List Nat} (h : TakesTurns ls) (hks : ks <+: ls) {i j : Nat}
    (hi : ks.count i % 3 = 1) (hj : ks.count j % 3 = 1) : i = j := by
  induction ks using List.reverseRecOn with
  | nil => cases hi
  | append_singleton ks l ih =>
    obtain ⟨ms, rfl⟩ := hks
    have hturn := takesTurns_iff.mp h ks l ms (by simp)
    by_contra hne
    simp only [List.count_append, List.count_singleton] at hi hj
    by_cases hli : l = i
    · subst hli
      have hlj : (l == j) = false := by simpa using hne
      simp only [beq_self_eq_true, if_true] at hi
      simp only [hlj, Bool.false_eq_true, if_false, Nat.add_zero] at hj
      exact hturn (by omega) j hj
    · have hli' : (l == i) = false := by simpa using hli
      simp only [hli', Bool.false_eq_true, if_false, Nat.add_zero] at hi
      by_cases hlj : l = j
      · subst hlj
        simp only [beq_self_eq_true, if_true] at hj
        exact hturn (by omega) i hi
      · have hlj' : (l == j) = false := by simpa using hlj
        simp only [hlj', Bool.false_eq_true, if_false, Nat.add_zero] at hj
        exact hne (ih ⟨l :: ms, by simp⟩ hi hj)

section Runs

variable {semId : Int} {n : Nat} {ls : List Nat} {s : State}

theorem Scheduled.critical (h : Scheduled semId n ls s) {i : Nat}
    (hi : s.procs[i]? = some Pc.critical) : ls.count i % 3 = 1 := by
  rw [h.pc] at hi
  split at hi
  · exact (pcAfter_eq_critical _).mp (Option.some.inj hi)
  · cases hi

theorem Scheduled.critical_of (h : Scheduled semId n ls s) {i : Nat} (hi : i < n)
    (hcount : ls.count i % 3 = 1) : s.procs[i]? = some Pc.critical := by
  rw [h.pc, if_pos hi, (pcAfter_eq_critical _).mpr hcount]

theorem scheduled_of_exec (hsem : semId ≠ -1) (sems : Sems) (hls : ∀ i ∈ ls, i < n)
    (hrun : Run.exec (step semId) (start semId sems n) ls = some s) : Scheduled semId n ls s := by
  obtain ⟨m, hm, hsched⟩ := exec_scheduled hsem sems hls
  cases hm.symm.trans hrun
  exact hsched

theorem mem_lt_of_exec (hsem : semId ≠ -1) (sems : Sems)
    (hrun : Run.exec (step semId) (start semId sems n) ls = some s) : ∀ i ∈ ls, i < n := by
  refine Run.history_invariant (I := fun ls _ => ∀ i ∈ ls, i < n) ?_ ?_ hrun
  · exact fun i hi => (List.not_mem_nil hi).elim
  · intro ls l m m' hm hls hm'
    have hl : l < n := by
      by_contra hge
      have hnone := (scheduled_of_exec hsem sems hls hm).pc l
      rw [if_neg hge] at hnone
      simp [step, hnone] at hm'
    intro i hi
    rcases List.mem_append.mp hi with hi | hi
    · exact hls i hi
    · exact List.mem_singleton.mp hi ▸ hl

/-- Between rounds the value is 1 again, whatever the sign of the two operations: a process by
itself sees no fault in them. -/
theorem getvalueSem_between_rounds (hsem : semId ≠ -1) (sems : Sems)
    (hrun : Run.exec (step semId) (start semId sems n) ls = some s)
    (hrounds : ∀ i, ls.count i % 3 = 0) : getvalueSem semId s.sems = 1 := by
  have hsched := scheduled_of_exec hsem sems (mem_lt_of_exec hsem sems hrun) hrun
  have hzero : s.procs.countP Pc.between = 0 := by
    rw [List.countP_eq_zero]
    intro pc hpc
    obtain ⟨i, hi⟩ := List.getElem?_of_mem hpc
    rw [hsched.pc] at hi
    split at hi
    · rw [← Option.some.inj hi, ← pcAfter_mod, hrounds i]
      exact Bool.false_ne_true
    · cases hi
  have hvalue := hsched.counted
  rw [Counted, hzero] at hvalue
  rw [getvalueSem, hvalue]
  rfl

theorem takesTurns_of_exclusion (hsem : semId ≠ -1) (sems : Sems) (hls : ∀ i ∈ ls, i < n)
    (h : ∀ ks s, ks <+: ls → Run.exec (step semId) (start semId sems n) ks = some s →
      MutualExclusion s) : TakesTurns ls := by
  rw [takesTurns_iff]
  rintro ks i ms rfl hi j hj
  have hji : j ≠ i := by
    rintro rfl
    omega
  have hj' : j ∈ ks := List.count_pos_iff.mp (by omega)
  have hlt : ∀ k ∈ ks ++ [i], k < n := fun k hk => hls k (by simp at hk ⊢; tauto)
  obtain ⟨s, hs, hsched⟩ := exec_scheduled hsem sems hlt
  refine hji (h (ks ++ [i]) s ⟨ms, by simp⟩ hs j i (hsched.critical_of (hls j (by simp [hj'])) ?_)
    (hsched.critical_of (hls i (by simp)) ?_))
  · simpa [List.count_singleton, Ne.symm hji] using hj
  · simp [Nat.add_mod, hi]

theorem TakesTurns.exclusion {ks : List Nat} (h : TakesTurns ls) (hsem : semId ≠ -1) (sems : Sems)
    (hls : ∀ i ∈ ls, i < n) (hks : ks <+: ls)
    (hrun : Run.exec (step semId) (start semId sems n) ks = some s) : MutualExclusion s := by
  intro i j hi hj
  have hlt : ∀ k ∈ ks, k < n := fun k hk => hls k (hks.subset hk)
  have hsched := scheduled_of_exec hsem sems hlt hrun
  exact h.unique hks (hsched.critical hi) (hsched.critical hj)

theorem le_one_of_exclusion (hsem : semId ≠ -1) (sems : Sems)
    (h : ∀ ls s, Run.exec (step semId) (start semId sems n) ls = some s → MutualExclusion s) :
    n ≤ 1 := by
  by_contra htwo
  have hlt : ∀ k ∈ [0, 1], k < n := by
    intro k hk
    simp only [List.mem_cons, List.not_mem_nil, or_false] at hk
    omega
  obtain ⟨s, hs, hsched⟩ := exec_scheduled hsem sems hlt
  have hsame := h [0, 1] s hs 0 1 (hsched.critical_of (by omega) (by decide))
    (hsched.critical_of (by omega) (by decide))
  cases hsame

theorem exclusion_of_le_one (hsem : semId ≠ -1) (sems : Sems) (hone : n ≤ 1)
    (hrun : Run.exec (step semId) (start semId sems n) ls = some s) : MutualExclusion s := by
  have hsched := scheduled_of_exec hsem sems (mem_lt_of_exec hsem sems hrun) hrun
  have hlt : ∀ k : Nat, s.procs[k]? = some Pc.critical → k < 1 := by
    intro k hk
    rw [hsched.pc] at hk
    split at hk
    · omega
    · cases hk
  intro i j hi hj
  have := hlt i hi
  have := hlt j hj
  omega

/-- The semaphore excludes nothing: the processes exclude each other in the schedules that do so
by themselves, and in all schedules only if there is no second process. -/
theorem mutual_exclusion_iff (hsem : semId ≠ -1) (sems : Sems) (n : Nat) :
    (∀ ls, (∀ i ∈ ls, i < n) →
      ((∀ ks s, ks <+: ls → Run.exec (step semId) (start semId sems n) ks = some s →
        MutualExclusion s) ↔ TakesTurns ls)) ∧
    ((∀ ls s, Run.exec (step semId) (start semId sems n) ls = some s → MutualExclusion s) ↔
      n ≤ 1) := by
  refine ⟨fun ls hls => ⟨takesTurns_of_exclusion hsem sems hls, fun h ks s hks hrun => ?_⟩,
    le_one_of_exclusion hsem sems, fun hone ls s hrun => ?_⟩
  · exact h.exclusion hsem sems hls hks hrun
  · exact exclusion_of_le_one hsem sems hone hrun

end Runs

theorem mutual_exclusion_three_rounds : TakesTurns [0, 0, 0, 1, 1, 1, 0, 0, 0] ∧
    ∀ ks s, ks <+: [0, 0, 0, 1, 1, 1, 0, 0, 0] →
      Run.exec (step 5) (start 5 (fun _ => none) 2) ks = some s → MutualExclusion s :=
  ⟨by decide, ((mutual_exclusion_iff (by decide) (fun _ => none) 2).1
    [0, 0, 0, 1, 1, 1, 0, 0, 0] (by decide)).mpr (by decide)⟩

/-- Two processes call `Sem_P`, and both calls return 0. -/
theorem two_processes_enter : ∃ s,
    Run.exec (step 5) (start 5 (fun _ => none) 2) [0, 1] = some s ∧ ¬ MutualExclusion s := by
  have hlt : ∀ i ∈ [0, 1], i < 2 := by decide
  obtain ⟨s, hs, hsched⟩ := exec_scheduled (show (5 : Int) ≠ -1 by decide) (fun _ => none) hlt
  refine ⟨s, hs, fun hexclusion => ?_⟩
  have hsame := hexclusion 0 1 (hsched.critical_of (by decide) (by decide))
    (hsched.critical_of (by decide) (by decide))
  cases hsame

end LearnCLinux.Process.Sem
