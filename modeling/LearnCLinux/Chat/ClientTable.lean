import LearnCLinux.Chat.ThreadServer

/-! The accesses to `cs_fds` in `practise/chat/thread_server.c`, one by one.  An access behind the
end of the table ends the run. -/

namespace LearnCLinux.Chat.ClientTable

open ThreadServer (Fd maxClient Pc)

/-- What `accept` and `pthread_create` return for a connection.  Descriptor 0 is open. -/
structure Connection where
  cs : Option Fd
  created : Bool
  cs_ne_zero : cs ≠ some 0

inductive MainPc : Type
  | accept
  | store (cs : Fd) (created : Bool)
  | create (created : Bool)
  | clear
  | incCount
  deriving DecidableEq

/-- `arg` points to `cs_fds[arg]`. -/
structure Thread where
  arg : Nat
  pc : Pc

structure State where
  csFds : List Fd
  count : Nat
  pc : MainPc
  threads : List Thread
  conns : List Connection

/-- The index of an access behind the end is noted. -/
inductive Server : Type
  | running (s : State)
  | outside (i : Nat)

inductive Label : Type
  | main
  | thread (w : Nat) (size : Int)

section Code

def access (i : Nat) (s : State) : Server := if i < maxClient then .running s else .outside i

def mainStep (s : State) : Option Server :=
  match s.pc with
  | .accept => match s.conns with
    | [] => none
    | x :: conns => match x.cs with
      | none => some (.running { s with conns })
      | some cs => some (.running { s with pc := .store cs x.created, conns })
  | .store cs created =>
    some (access s.count { s with csFds := s.csFds.set s.count cs, pc := .create created })
  | .create true =>
    some (access s.count { s with threads := s.threads ++ [⟨s.count, .read⟩], pc := .incCount })
  | .create false => some (access s.count { s with pc := .clear })
  | .clear => some (access s.count { s with csFds := s.csFds.set s.count 0, pc := .accept })
  | .incCount => some (.running { s with count := s.count + 1, pc := .accept })

def clientThread (s : State) (w : Nat) (t : Thread) (size : Int) : Option Server :=
  match t.pc with
  | .read => some (access t.arg { s with
      threads := s.threads.set w { t with pc := if size ≤ 0 then .close else .broadcast 0 } })
  | .broadcast i => some <| match s.csFds[i]? with
    | none => .outside i
    | some fd => .running { s with
        threads := s.threads.set w { t with pc := if fd ≠ 0 then .broadcast (i + 1) else .read } }
  | .close => some (access t.arg { s with threads := s.threads.set w { t with pc := .returned } })
  | .returned => none

def step : Server → Label → Option Server
  | .running s, .main => mainStep s
  | .running s, .thread w size => s.threads[w]?.bind fun t => clientThread s w t size
  | .outside _, _ => none

def start (conns : List Connection) : Server :=
  .running ⟨List.replicate maxClient 0, 0, .accept, [], conns⟩

end Code

section Properties

def Inside : Server → Prop
  | .running s => ∀ t ∈ s.threads, ∀ i, t.pc = .broadcast i → i < maxClient
  | .outside _ => False

def Connection.accepted (x : Connection) : Bool := x.cs.isSome

def served (conns : List Connection) : Nat := conns.countP fun x => x.accepted && x.created

/-- A connection is accepted only while fewer than nine threads have been created. -/
def Room (conns : List Connection) : Prop :=
  ∀ before x after, conns = before ++ x :: after → x.accepted = true →
    served before < maxClient - 1

def RoomFrom : Nat → List Connection → Prop
  | _, [] => True
  | n, x :: conns => (x.accepted = true → n < maxClient - 1) ∧ RoomFrom (n + served [x]) conns

theorem roomFrom_iff (n : Nat) (conns : List Connection) : RoomFrom n conns ↔
    ∀ before x after, conns = before ++ x :: after → x.accepted = true →
      n + served before < maxClient - 1 := by
  induction conns generalizing n with
  | nil =>
    refine iff_of_true trivial fun before x after h => ?_
    simp at h
  | cons y conns ih =>
    have hserved : ∀ before, served (y :: before) = served [y] + served before := by
      intro before
      rw [served, served, served, List.countP_cons, List.countP_singleton, Nat.add_comm]
    rw [RoomFrom, ih]
    constructor
    · rintro ⟨hfirst, hrest⟩ before x after heq hx
      cases before with
      | nil =>
        cases heq
        exact hfirst hx
      | cons z before =>
        cases heq
        rw [hserved, ← Nat.add_assoc]
        exact hrest before x after rfl hx
    · intro h
      refine ⟨h [] y conns rfl, fun before x after heq hx => ?_⟩
      have hlater := h (y :: before) x after (by rw [heq, List.cons_append]) hx
      rwa [hserved, ← Nat.add_assoc] at hlater

end Properties

def MainPc.pending : MainPc → Nat
  | .store _ created | .create created => created.toNat
  | .incCount => 1
  | _ => 0

structure Safe (s : State) : Prop where
  length : s.csFds.length = maxClient
  last : s.csFds[maxClient - 1]? = some 0
  room : RoomFrom (s.count + s.pc.pending) s.conns
  index : s.pc ≠ .accept → s.count < maxClient - 1
  threads : ∀ t ∈ s.threads, t.arg < maxClient ∧ ∀ i, t.pc = .broadcast i → i < maxClient

def SafeServer : Server → Prop
  | .running s => Safe s
  | .outside _ => False

section Steps

variable {s : State} {m m' : Server} {i w : Nat} {t : Thread} {size : Int} {cs : Fd} {l : Label}

theorem safe_access (hi : i < maxClient) (hs : Safe s) : SafeServer (access i s) := by
  rw [access, if_pos hi]
  exact hs

theorem Safe.count_lt (hs : Safe s) (hpc : s.pc ≠ .accept) : s.count < maxClient :=
  Nat.lt_of_lt_of_le (hs.index hpc) (Nat.sub_le ..)

theorem Safe.set (hs : Safe s) (hlt : s.count < maxClient - 1) (fd : Fd) {pc : MainPc}
    (hroom : RoomFrom (s.count + pc.pending) s.conns) :
    Safe { s with csFds := s.csFds.set s.count fd, pc } where
  length := (List.length_set ..).trans hs.length
  last := by rw [List.getElem?_set_ne (Nat.ne_of_lt hlt)]; exact hs.last
  room := hroom
  index _ := hlt
  threads := hs.threads

theorem Safe.move (hs : Safe s) {count : Nat} {pc : MainPc} {conns : List Connection}
    (hroom : RoomFrom (count + pc.pending) conns)
    (hindex : pc ≠ .accept → count < maxClient - 1) : Safe { s with count, pc, conns } where
  __ := hs
  room := hroom
  index := hindex

theorem Safe.create (hs : Safe s) (hlt : s.count < maxClient) :
    Safe { s with threads := s.threads ++ [⟨s.count, .read⟩] } where
  __ := hs
  threads t ht := by
    rcases List.mem_append.mp ht with hold | hnew
    · exact hs.threads t hold
    · cases List.mem_singleton.mp hnew
      exact ⟨hlt, by rintro i ⟨⟩⟩

theorem Safe.accept (hs : Safe s) (hpc : s.pc = .accept) (h : mainStep s = some m) :
    SafeServer m := by
  have hroom := hs.room
  rw [hpc] at hroom
  simp only [mainStep, hpc] at h
  split at h
  · cases h
  · next x conns heq =>
    rw [heq] at hroom
    obtain ⟨hnow, hlater⟩ := hroom
    split at h
    · next hnone =>
      cases h
      refine hs.move ?_ fun hne => absurd rfl hne
      simpa [hpc, served, Connection.accepted, hnone] using hlater
    · next cs hcs =>
      cases h
      have haccepted : x.accepted = true := by rw [Connection.accepted, hcs]; rfl
      refine hs.move ?_ fun _ => hnow haccepted
      cases hcreated : x.created <;>
        simpa [MainPc.pending, served, haccepted, hcreated] using hlater

theorem Safe.main (hs : Safe s) (h : mainStep s = some m) : SafeServer m := by
  have hroom := hs.room
  have hindex := hs.index
  cases hpc : s.pc with
  | accept => exact hs.accept hpc h
  | store cs created =>
    simp only [mainStep, hpc] at h
    cases h
    apply safe_access (hs.count_lt (by simp [hpc]))
    apply hs.set (hindex (by simp [hpc]))
    simpa [hpc, MainPc.pending] using hroom
  | create created =>
    have hlt := hs.count_lt (by simp [hpc])
    cases created with
    | true =>
      simp only [mainStep, hpc] at h
      cases h
      apply safe_access hlt
      refine (hs.create hlt).move ?_ fun _ => hindex (by simp [hpc])
      simpa [hpc, MainPc.pending] using hroom
    | false =>
      simp only [mainStep, hpc] at h
      cases h
      apply safe_access hlt
      refine hs.move ?_ fun _ => hindex (by simp [hpc])
      simpa [hpc, MainPc.pending] using hroom
  | clear =>
    simp only [mainStep, hpc] at h
    cases h
    apply safe_access (hs.count_lt (by simp [hpc]))
    apply hs.set (hindex (by simp [hpc]))
    simpa [hpc, MainPc.pending] using hroom
  | incCount =>
    simp only [mainStep, hpc] at h
    cases h
    refine hs.move ?_ fun hne => absurd rfl hne
    simpa [hpc, MainPc.pending] using hroom

theorem Safe.setThread (hs : Safe s) (ht : t ∈ s.threads) {pc : Pc}
    (hpc : ∀ i, pc = .broadcast i → i < maxClient) :
    Safe { s with threads := s.threads.set w { t with pc } } where
  __ := hs
  threads u hu := by
    rcases List.mem_or_eq_of_mem_set hu with hold | rfl
    · exact hs.threads u hold
    · exact ⟨(hs.threads t ht).1, hpc⟩

theorem Safe.clientThread (hs : Safe s) (ht : t ∈ s.threads)
    (h : clientThread s w t size = some m) : SafeServer m := by
  obtain ⟨harg, hloop⟩ := hs.threads t ht
  rw [ClientTable.clientThread] at h
  split at h
  · cases h
    apply safe_access harg
    apply hs.setThread ht
    intro i hi
    split at hi
    · cases hi
    · cases hi
      decide
  · next i hpc =>
    cases h
    have hi := hloop i hpc
    obtain ⟨fd, hfd⟩ : ∃ fd, s.csFds[i]? = some fd :=
      ⟨_, List.getElem?_eq_getElem (hs.length.symm ▸ hi)⟩
    simp only [hfd]
    refine Safe.setThread hs ht fun j hj => ?_
    split at hj
    · next hne =>
      cases hj
      -- the last entry is 0, so this is an earlier one
      refine Nat.lt_of_le_of_ne hi fun heq => hne ?_
      have hlast := hs.last
      rw [← heq, Nat.add_sub_cancel, hfd] at hlast
      exact Option.some.inj hlast
    · cases hj
  · cases h
    apply safe_access harg
    exact hs.setThread ht (by rintro i ⟨⟩)
  · cases h

theorem SafeServer.step (hm : SafeServer m) (h : step m l = some m') : SafeServer m' := by
  cases m with
  | outside i => exact hm.elim
  | running s =>
    cases l with
    | main => exact Safe.main hm h
    | thread w size =>
      obtain ⟨t, ht, h⟩ := Option.bind_eq_some_iff.mp h
      exact Safe.clientThread hm (List.mem_of_getElem? ht) h

theorem SafeServer.inside (hm : SafeServer m) : Inside m := by
  cases m with
  | outside i => exact hm
  | running s => exact fun t ht => (Safe.threads hm t ht).2

end Steps

section Outside

variable {csFds : List Fd} {count : Nat} {threads : List Thread} {x : Connection}
  {conns : List Connection} {cs : Fd}

theorem Connection.ne_zero (x : Connection) (hcs : x.cs = some cs) : cs ≠ 0 := by
  rintro rfl
  exact x.cs_ne_zero hcs

theorem connect_run (hlt : count < maxClient) (hcs : x.cs = some cs) :
    Run.exec step (.running ⟨csFds, count, .accept, threads, x :: conns⟩)
        (List.replicate 4 .main) = some (.running
      (if x.created then
        ⟨csFds.set count cs, count + 1, .accept, threads ++ [⟨count, .read⟩], conns⟩
      else ⟨(csFds.set count cs).set count 0, count, .accept, threads, conns⟩)) := by
  cases hcreated : x.created <;>
    simp [Run.exec, List.replicate, step, mainStep, access, hcs, hcreated, hlt]

theorem connect_eq {s s' : ThreadServer.State} (hcs : x.cs = some cs)
    (h : ThreadServer.connect s x.created (some cs) = some s') :
    Run.exec step (.running ⟨s.csFds, s.count, .accept, s.threads.map fun t => ⟨t.arg, t.pc⟩,
        x :: conns⟩) (List.replicate 4 .main) =
      some (.running ⟨s'.csFds, s'.count, .accept, s'.threads.map fun t => ⟨t.arg, t.pc⟩,
        conns⟩) := by
  rw [ThreadServer.connect] at h
  split at h
  · split at h
    · next hlt =>
      rw [connect_run hlt hcs]
      cases hcreated : x.created with
      | true =>
        rw [hcreated] at h
        cases h
        simp
      | false =>
        rw [hcreated] at h
        cases h
        rfl
    · cases h
  · cases h

structure Filled (csFds : List Fd) (count : Nat) (threads : List Thread) : Prop where
  length : csFds.length = maxClient
  bound : count ≤ maxClient - 1
  started : threads.length = count
  waiting : ∀ t ∈ threads, t.arg < maxClient ∧ t.pc = .read
  used : ∀ i, i < count → csFds[i]? ≠ some 0

theorem Filled.created (hf : Filled csFds count threads) (hlt : count < maxClient - 1)
    (hcs : cs ≠ 0) :
    Filled (csFds.set count cs) (count + 1) (threads ++ [⟨count, .read⟩]) where
  length := (List.length_set ..).trans hf.length
  bound := hlt
  started := by rw [List.length_append, hf.started]; rfl
  waiting t ht := by
    rcases List.mem_append.mp ht with hold | hnew
    · exact hf.waiting t hold
    · cases List.mem_singleton.mp hnew
      exact ⟨Nat.lt_of_lt_of_le hlt (Nat.sub_le ..), rfl⟩
  used i hi := by
    rcases Nat.lt_succ_iff_lt_or_eq.mp hi with hold | rfl
    · rw [List.getElem?_set_ne (Nat.ne_of_gt hold)]
      exact hf.used i hold
    · rw [List.getElem?_set_self (by rw [hf.length]; omega)]
      simpa using hcs

theorem Filled.failed (hf : Filled csFds count threads) :
    Filled ((csFds.set count cs).set count 0) count threads where
  __ := hf
  length := by rw [List.length_set, List.length_set, hf.length]
  used i hi := by
    rw [List.getElem?_set_ne (Nat.ne_of_gt hi), List.getElem?_set_ne (Nat.ne_of_gt hi)]
    exact hf.used i hi

theorem broadcast_run {s : State} (hused : ∀ i, i < maxClient → ∃ fd, s.csFds[i]? = some fd ∧ fd ≠ 0)
    {arg w : Nat} (hw : s.threads[w]? = some ⟨arg, .broadcast 0⟩) {n : Nat} (hn : n ≤ maxClient) :
    Run.exec step (.running s) (List.replicate n (.thread w 0)) =
      some (.running { s with threads := s.threads.set w ⟨arg, .broadcast n⟩ }) := by
  obtain ⟨hlt, hself⟩ := List.getElem?_eq_some_iff.mp hw
  induction n with
  | zero =>
    rw [← hself, List.set_getElem_self]
    rfl
  | succ n ih =>
    obtain ⟨fd, hfd, hne⟩ := hused n hn
    rw [List.replicate_succ']
    refine Run.exec_append.mpr ⟨_, ih (Nat.le_of_succ_le hn), Run.exec_cons.mpr ⟨_, ?_, rfl⟩⟩
    rw [step, List.getElem?_set_self hlt, Option.bind_some, clientThread]
    simp [hfd, hne]

theorem Filled.all_used (hf : Filled csFds count threads) (hcount : count = maxClient - 1)
    (hne : cs ≠ 0) : ∀ i, i < maxClient → ∃ fd, (csFds.set count cs)[i]? = some fd ∧ fd ≠ 0 := by
  intro i hi
  have hlt : i < csFds.length := hf.length.symm ▸ hi
  by_cases heq : i = count
  · rw [← heq, List.getElem?_set_self hlt]
    exact ⟨cs, rfl, hne⟩
  · have hold := hf.used i (by rw [hcount] at heq ⊢; omega)
    rw [List.getElem?_eq_getElem hlt] at hold
    rw [List.getElem?_set_ne (Ne.symm heq), List.getElem?_eq_getElem hlt]
    exact ⟨_, rfl, fun hzero => hold (congrArg some hzero)⟩

/-- The tenth connection fills the table, and a message sent before its thread is created, or fails
to be, runs behind the end. -/
theorem full_outside (hf : Filled csFds count threads) (hfull : ¬ count < maxClient - 1)
    (hcs : x.cs = some cs) :
    ∃ ls m, Run.exec step (.running ⟨csFds, count, .accept, threads, x :: conns⟩) ls = some m ∧
      ¬ Inside m := by
  have hne := x.ne_zero hcs
  have hcount : count = maxClient - 1 := Nat.le_antisymm hf.bound (Nat.le_of_not_lt hfull)
  obtain ⟨t, ht⟩ : ∃ t, threads[0]? = some t :=
    ⟨_, List.getElem?_eq_getElem (by rw [hf.started, hcount]; decide)⟩
  obtain ⟨harg, hpc⟩ := hf.waiting t (List.mem_of_getElem? ht)
  have hused := hf.all_used hcount hne
  have hlt : 0 < threads.length := (List.getElem?_eq_some_iff.mp ht).1
  have hread : (threads.set 0 ⟨t.arg, .broadcast 0⟩)[0]? = some ⟨t.arg, .broadcast 0⟩ :=
    List.getElem?_set_self hlt
  have hloop := broadcast_run
    (s := ⟨csFds.set count cs, count, .create x.created, threads.set 0 ⟨t.arg, .broadcast 0⟩,
      conns⟩) hused hread (Nat.le_refl _)
  refine ⟨.main :: .main :: .thread 0 1 :: List.replicate maxClient (.thread 0 0), _,
    Run.exec_cons.mpr ⟨.running ⟨csFds, count, .store cs x.created, threads, conns⟩, ?_,
      Run.exec_cons.mpr ⟨.running ⟨csFds.set count cs, count, .create x.created, threads, conns⟩, ?_,
        Run.exec_cons.mpr ⟨_, ?_, hloop⟩⟩⟩, ?_⟩
  · simp [step, mainStep, hcs]
  · simp [step, mainStep, access, hcount, maxClient]
  · simp [step, clientThread, ht, hpc, access, harg]
  · intro hinside
    have hlast := hinside ⟨t.arg, .broadcast maxClient⟩
      (List.mem_of_getElem? (List.getElem?_set_self (by simpa using hlt))) maxClient rfl
    exact Nat.lt_irrefl _ hlast

theorem exists_outside (hf : Filled csFds count threads) (hroom : ¬ RoomFrom count conns) :
    ∃ ls m, Run.exec step (.running ⟨csFds, count, .accept, threads, conns⟩) ls = some m ∧
      ¬ Inside m := by
  induction conns generalizing csFds count threads with
  | nil => exact absurd trivial hroom
  | cons x conns ih =>
    rw [RoomFrom] at hroom
    cases hcs : x.cs with
    | none =>
      have haccepted : x.accepted = false := by rw [Connection.accepted, hcs]; rfl
      have hrest : ¬ RoomFrom count conns := by
        simpa [haccepted, served] using hroom
      obtain ⟨ls, m, hrun, hm⟩ := ih hf hrest
      refine ⟨.main :: ls, m, Run.exec_cons.mpr ⟨_, ?_, hrun⟩, hm⟩
      simp [step, mainStep, hcs]
    | some cs =>
      by_cases hlt : count < maxClient - 1
      · have haccepted : x.accepted = true := by rw [Connection.accepted, hcs]; rfl
        have hne := x.ne_zero hcs
        have hinside : count < maxClient := Nat.lt_of_lt_of_le hlt (Nat.sub_le ..)
        cases hcreated : x.created with
        | true =>
          have hrest : ¬ RoomFrom (count + 1) conns := by
            simpa [haccepted, hcreated, served, hlt] using hroom
          obtain ⟨ls, m, hlater, hm⟩ := ih (hf.created hlt hne) hrest
          refine ⟨List.replicate 4 .main ++ ls, m,
            Run.exec_append.mpr ⟨_, connect_run hinside hcs, ?_⟩, hm⟩
          rw [hcreated]
          exact hlater
        | false =>
          have hrest : ¬ RoomFrom count conns := by
            simpa [haccepted, hcreated, served, hlt] using hroom
          obtain ⟨ls, m, hlater, hm⟩ := ih hf.failed hrest
          refine ⟨List.replicate 4 .main ++ ls, m,
            Run.exec_append.mpr ⟨_, connect_run hinside hcs, ?_⟩, hm⟩
          rw [hcreated]
          exact hlater
      · exact full_outside hf hlt hcs

end Outside

section Runs

/-- For every sequence of connections, in whatever order `main` and the threads take their steps and
whatever the clients send. -/
theorem table_inside_iff (conns : List Connection) :
    (∀ ls m, Run.exec step (start conns) ls = some m → Inside m) ↔ Room conns := by
  have hroom : Room conns ↔ RoomFrom 0 conns := by
    rw [roomFrom_iff]
    simp only [Nat.zero_add]
    rfl
  rw [hroom]
  constructor
  · intro hall
    by_contra hfull
    have hfilled : Filled (List.replicate maxClient 0) 0 [] :=
      ⟨rfl, Nat.zero_le _, rfl, nofun, nofun⟩
    obtain ⟨ls, m, hrun, hm⟩ := exists_outside hfilled hfull
    exact hm (hall ls m hrun)
  · intro hfree ls m hrun
    have hstart : SafeServer (start conns) :=
      ⟨rfl, rfl, by simpa [MainPc.pending] using hfree, fun hne => absurd rfl hne, nofun⟩
    exact (Run.invariant (fun _ _ _ hm h => hm.step h) hstart hrun).inside

def clients (n : Nat) : List Connection :=
  (List.range n).map fun i => ⟨some (i + 4), true, by simp⟩

/-- The eleventh client is stored behind the table; and before that a message of the first client
runs behind it when the tenth has been stored. -/
theorem eleventh_client_outside :
    Run.exec step (start (clients 11)) (List.replicate 42 .main) = some (.outside 10) ∧
    Run.exec step (start (clients 10))
      (List.replicate 38 .main ++ .thread 0 1 :: List.replicate 11 (.thread 0 0)) =
        some (.outside 10) ∧
    ¬ ∀ conns ls m, Run.exec step (start conns) ls = some m → Inside m := by
  have hstored : Run.exec step (start (clients 11)) (List.replicate 42 .main) =
      some (.outside 10) := rfl
  exact ⟨hstored, rfl, fun hall => hall _ _ _ hstored⟩

end Runs

end LearnCLinux.Chat.ClientTable
