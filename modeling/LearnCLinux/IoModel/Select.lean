import LearnCLinux.Library.Run
import LearnCLinux.Library.SlotTable
import LearnCLinux.Library.Threads

/-! `socket/io_model/select.c`: the client table `fds`, and the rounds of the main loop that
serve, drop and store clients. -/

namespace LearnCLinux.IoModel.Select

abbrev Fd := Int

def maxClient : Nat := 10

structure State where
  ss : Fd
  fds : List Fd
  connections : Int
  /-- A history variable: the clients accepted, not refused, and not disconnected. -/
  connected : List Fd
  deriving DecidableEq

def start (ss : Fd) : State where
  ss := ss
  fds := List.replicate maxClient 0
  connections := 0
  connected := []

/-- What the surroundings decide in a round: what `select` returns and leaves in its two sets,
what `recv` returns for the client of each entry, and what `accept` returns. -/
structure Round where
  res : Int
  rd : List Fd
  wd : List Fd
  size : Nat → Int
  accepted : Int

section Code

def maxClientOf (fds : List Fd) (ss : Fd) : Fd :=
  let tmp := fds.foldl (fun tmp fd => if tmp < fd then fd else tmp) (fds.headD 0)
  if tmp > ss then tmp else ss

/-- The clients put into both sets. -/
def watched (s : State) : List Fd := s.fds.filter (· ≠ 0)

/-- `select` looks at the descriptors below its first argument and only takes some out. -/
def selects (s : State) (r : Round) : Bool :=
  r.rd.all (fun fd => decide (fd = s.ss ∨ fd ∈ watched s) && decide (fd < maxClientOf s.fds s.ss + 1))
    && r.wd.all fun fd => decide (fd ∈ watched s) && decide (fd < maxClientOf s.fds s.ss + 1)

/-- `server_handle`, with what `recv` returned. -/
def serverHandle (s : State) (c_fd : Fd) (size : Int) : Int × State :=
  if size ≤ 0 then (-1, { s with connected := s.connected.filter (· ≠ c_fd) })
  else (0, s)

def handleEntry (r : Round) (s : State) (i : Nat) : State :=
  match s.fds[i]? with
  | none => s
  | some fd =>
    if fd ∈ r.rd ∧ fd ∈ r.wd then
      let (res, s) := serverHandle s fd (r.size i)
      if res < 0 then { s with fds := s.fds.set i 0, connections := s.connections - 1 }
      else s
    else s

def handleReady (r : Round) (s : State) : State := (List.range maxClient).foldl (handleEntry r) s

/-- `connections` is counted anew at the start of a round. -/
def recount (s : State) : State := { s with connections := s.fds.countP (· ≠ 0) }

/-- A descriptor `accept` returns is positive and not open. -/
def accept (s : State) (cs : Int) : Option State :=
  if cs < 0 then some s
  else if 0 < cs ∧ cs ≠ s.ss ∧ cs ∉ s.connected then
    if s.connections + 1 ≥ maxClient then some s
    else if 0 ≤ s.connections then
      some { s with
        fds := s.fds.set s.connections.toNat cs
        connections := s.connections + 1
        connected := s.connected ++ [cs] }
    else none
  else none

def step (s : State) (r : Round) : Option State :=
  if selects s r then
    if r.res ≤ 0 then some (recount s)
    else
      let s := handleReady r (recount s)
      if s.ss ∈ r.rd then accept s r.accepted else some s
  else none

end Code

section Rounds

variable (s : State) (r : Round)

def leaves (i : Nat) : Bool :=
  (s.fds[i]?.any fun fd => decide (fd ∈ r.rd ∧ fd ∈ r.wd)) && decide (r.size i ≤ 0)

def occupied (i : Nat) : Bool := s.fds[i]?.any (· ≠ 0)

def remaining : Nat := (List.range maxClient).countP fun i => occupied s i && !leaves s r i

def Stores : Prop :=
  0 < r.res ∧ s.ss ∈ r.rd ∧ 0 ≤ r.accepted ∧ remaining s r + 1 < maxClient

/-- A new client is stored only in an entry that is free, or freed in the same round. -/
def SlotFree (_ : State) : Prop :=
  Stores s r → occupied s (remaining s r) = true → leaves s r (remaining s r) = true

/-- `fds[connections++] = cs` overwrites no client. -/
def KeepsEntries (_ : State) : Prop :=
  let m := handleReady r (recount s)
  0 < r.res → m.ss ∈ r.rd → 0 ≤ r.accepted → m.connections + 1 < maxClient →
    m.fds[m.connections.toNat]? = some 0

/-- Each client connected has one entry, and each entry in use is of such a client. -/
def TableExact : Prop :=
  (∀ c ∈ s.connected, ∃! i, i < s.fds.length ∧ s.fds[i]? = some c) ∧
    ∀ fd ∈ s.fds, fd ≠ 0 → fd ∈ s.connected

end Rounds

section Inversion

variable {s s' : State} {r : Round}

theorem accept_cases {cs : Int} (h : accept s cs = some s') :
    s' = s ∨ (0 < cs ∧ cs ∉ s.connected ∧ s.connections + 1 < maxClient ∧
      s' = { s with
        fds := s.fds.set s.connections.toNat cs
        connections := s.connections + 1
        connected := s.connected ++ [cs] }) := by
  rw [accept] at h
  split at h
  · cases h
    exact .inl rfl
  split at h
  · next hopen =>
    split at h
    · cases h
      exact .inl rfl
    · next hroom =>
      split at h <;> cases h
      exact .inr ⟨hopen.1, hopen.2.2, Int.not_le.mp hroom, rfl⟩
  · cases h

theorem step_cases (h : step s r = some s') : selects s r = true ∧
    (s' = recount s ∨ s' = handleReady r (recount s) ∨
      0 < r.res ∧ (handleReady r (recount s)).ss ∈ r.rd ∧
        accept (handleReady r (recount s)) r.accepted = some s') := by
  rw [step] at h
  split at h
  · next hselects =>
    refine ⟨hselects, ?_⟩
    split at h
    · cases h
      exact .inl rfl
    · next hres =>
      dsimp only at h
      split at h
      · next hss => exact .inr (.inr ⟨Int.not_le.mp hres, hss, h⟩)
      · exact .inr (.inl (Option.some.inj h).symm)
  · cases h

end Inversion

section Loop

variable {s : State} {r : Round}

theorem handleEntry_eq (i : Nat) : handleEntry r s i =
    if leaves s r i then
      { s with
        fds := s.fds.set i 0
        connections := s.connections - 1
        connected := s.connected.filter fun c => s.fds[i]? ≠ some c }
    else s := by
  rw [handleEntry, leaves]
  cases hfd : s.fds[i]? with
  | none => simp
  | some fd =>
    by_cases hready : fd ∈ r.rd ∧ fd ∈ r.wd
    · by_cases hsize : r.size i ≤ 0
      · simp [hready, hsize, serverHandle, eq_comm]
      · simp [hready, hsize, serverHandle]
    · simp [hready]

theorem leaves_iff {i : Nat} : leaves s r i = true ↔
    ∃ fd, s.fds[i]? = some fd ∧ (fd ∈ r.rd ∧ fd ∈ r.wd) ∧ r.size i ≤ 0 := by
  rw [leaves]
  cases s.fds[i]? <;> simp

theorem leaves_congr {s' : State} {i : Nat} (h : s'.fds[i]? = s.fds[i]?) :
    leaves s' r i = leaves s r i := by
  rw [leaves, leaves, h]

/-- Entry `i` is looked at once, and until then it is what it was at the start. -/
theorem foldl_handleEntry (s : State) (r : Round) (n : Nat) :
    (∀ i : Nat, ((List.range n).foldl (handleEntry r) s).fds[i]? =
      if i < n ∧ leaves s r i = true then some 0 else s.fds[i]?) ∧
    ((List.range n).foldl (handleEntry r) s).connections =
      s.connections - ((List.range n).countP (leaves s r) : Nat) := by
  induction n with
  | zero => simp
  | succ n ih =>
    obtain ⟨hfds, hconnections⟩ := ih
    have hleaves : leaves ((List.range n).foldl (handleEntry r) s) r n = leaves s r n := by
      apply leaves_congr
      rw [hfds]
      simp
    rw [List.range_succ, List.foldl_append, List.foldl_cons, List.foldl_nil, handleEntry_eq, hleaves,
      List.countP_append, List.countP_singleton]
    cases hn : leaves s r n with
    | false =>
      refine ⟨fun i => ?_, by simpa using hconnections⟩
      rw [if_neg (by simp), hfds]
      by_cases hi : i = n
      · simp [hi, hn]
      · have hiff : i < n ↔ i < n + 1 := by omega
        simp only [hiff]
    | true =>
      rw [if_pos rfl]
      constructor
      · intro i
        rw [List.getElem?_set]
        by_cases hi : n = i
        · subst hi
          have hlt : n < ((List.range n).foldl (handleEntry r) s).fds.length := by
            obtain ⟨fd, hfd, -⟩ := leaves_iff.mp hn
            have hget := hfds n
            rw [if_neg (by simp), hfd] at hget
            exact (List.getElem?_eq_some_iff.mp hget).1
          simp [hn, hlt]
        · have hiff : i < n ↔ i < n + 1 := by omega
          rw [if_neg hi, hfds]
          simp only [hiff]
      · simp only [hconnections, if_true]
        omega

theorem ne_zero_of_selects (h : selects s r = true) {fd : Fd} (hfd : fd ∈ r.wd) : fd ≠ 0 := by
  rw [selects, Bool.and_eq_true, List.all_eq_true, List.all_eq_true] at h
  have hwatched := (Bool.and_eq_true_iff.mp (h.2 fd hfd)).1
  have hmem := List.mem_filter.mp (of_decide_eq_true hwatched)
  exact of_decide_eq_true hmem.2

theorem occupied_of_leaves (h : selects s r = true) {i : Nat} (hi : leaves s r i = true) :
    occupied s i = true := by
  obtain ⟨fd, hfd, hready, -⟩ := leaves_iff.mp hi
  simp [occupied, hfd, ne_zero_of_selects h hready.2]

theorem handleReady_connections (h : selects s r = true) (hlength : s.fds.length = maxClient) :
    (handleReady r (recount s)).connections = remaining s r := by
  have hcount : (recount s).connections = ((List.range maxClient).countP (occupied s) : Nat) := by
    rw [recount, Threads.countP_eq_range, hlength]
    rfl
  have hsplit : (List.range maxClient).countP (occupied s) +
      (List.range maxClient).countP (fun _ => false) =
      remaining s r + (List.range maxClient).countP (leaves s r) := by
    apply Threads.countP_add_countP
    intro i _
    cases hi : leaves s r i with
    | false => cases occupied s i <;> rfl
    | true => rw [occupied_of_leaves h hi]; rfl
  have hnone : (List.range maxClient).countP (fun _ => false) = 0 :=
    List.countP_eq_zero.mpr (by simp)
  have hleaves : leaves (recount s) r = leaves s r := rfl
  rw [handleReady, (foldl_handleEntry (recount s) r maxClient).2, hleaves, hcount]
  omega

theorem handleReady_frame (s : State) (r : Round) :
    (handleReady r s).ss = s.ss ∧ (handleReady r s).fds.length = s.fds.length := by
  have hloop : ∀ (is : List Nat) (m : State), (is.foldl (handleEntry r) m).ss = m.ss ∧
      (is.foldl (handleEntry r) m).fds.length = m.fds.length := by
    intro is
    induction is with
    | nil => exact fun m => ⟨rfl, rfl⟩
    | cons i is ih =>
      intro m
      rw [List.foldl_cons, (ih _).1, (ih _).2, handleEntry_eq]
      split
      · exact ⟨rfl, List.length_set ..⟩
      · exact ⟨rfl, rfl⟩
  exact hloop _ s

theorem handleReady_slot (s : State) (r : Round) {i : Nat} (hi : i < maxClient) :
    (handleReady r (recount s)).fds[i]? =
      if leaves s r i = true then some 0 else s.fds[i]? := by
  rw [handleReady, (foldl_handleEntry (recount s) r maxClient).1]
  simp only [hi, true_and]
  rfl

theorem keepsEntries_iff {s' : State} (h : selects s r = true)
    (hlength : s.fds.length = maxClient) : KeepsEntries s r s' ↔ SlotFree s r s' := by
  have hslot : remaining s r + 1 < maxClient →
      ((handleReady r (recount s)).fds[remaining s r]? = some 0 ↔
        (occupied s (remaining s r) = true → leaves s r (remaining s r) = true)) := by
    intro hlt
    have hlt' : remaining s r < s.fds.length := by omega
    obtain ⟨fd, hfd⟩ : ∃ fd, s.fds[remaining s r]? = some fd :=
      ⟨_, List.getElem?_eq_getElem hlt'⟩
    rw [handleReady_slot s r (by omega), occupied, hfd]
    cases leaves s r (remaining s r) <;> simp
  simp only [KeepsEntries, SlotFree, Stores, handleReady_connections h hlength,
    (handleReady_frame _ _).1, Int.toNat_natCast]
  constructor
  · rintro hkeeps ⟨hres, hready, haccepted, hlt⟩
    exact (hslot hlt).mp (hkeeps hres hready haccepted (by omega))
  · intro hfree hres hready haccepted hlt
    have hlt' : remaining s r + 1 < maxClient := by omega
    exact (hslot hlt').mpr (hfree ⟨hres, hready, haccepted, hlt'⟩)

end Loop

section Table

variable {s : State} {r : Round}

structure Intact (s : State) : Prop where
  length : s.fds.length = maxClient
  table : SlotTable 0 s.fds s.connected
  seats : Seats 0 s.fds (· ∈ s.connected)

theorem Intact.handleEntry (hi : Intact s) (hne : ∀ fd ∈ r.wd, fd ≠ 0) (i : Nat) :
    Intact (handleEntry r s i) := by
  rw [handleEntry_eq]
  split
  · next hleaves =>
    obtain ⟨fd, hfd, hready, -⟩ := leaves_iff.mp hleaves
    constructor
    · simpa using hi.length
    · apply hi.table.release hfd (hne fd hready.2)
      intro c hc hcfd
      exact List.mem_filter.mpr ⟨hc, by simpa [hfd] using hcfd.symm⟩
    · refine (hi.seats.mono fun c hc => (List.mem_filter.mp hc).1).overwrite ?_ 0
      intro c hc hslot
      have hother := (List.mem_filter.mp hc).2
      simp [hslot] at hother
  · exact hi

theorem Intact.handleReady (hi : Intact s) (hne : ∀ fd ∈ r.wd, fd ≠ 0) :
    Intact (handleReady r (recount s)) := by
  have hloop : ∀ is : List Nat, ∀ m, Intact m → Intact (is.foldl (Select.handleEntry r) m) := by
    intro is
    induction is with
    | nil => exact fun m hm => hm
    | cons i is ih => exact fun m hm => ih _ (hm.handleEntry hne i)
  exact hloop _ _ ⟨hi.length, hi.table, hi.seats⟩

theorem Intact.exact (hi : Intact s) : TableExact s := by
  constructor
  · exact fun c hc => hi.table.exists_unique hi.seats hc
  · intro fd hfd hne
    obtain ⟨i, hslot⟩ := List.getElem?_of_mem hfd
    exact hi.table.mem_names i fd hslot hne

theorem Intact.accept (hi : Intact s) {cs : Int} {s' : State} (h : accept s cs = some s')
    (hfree : 0 ≤ cs → s.connections + 1 < maxClient → s.fds[s.connections.toNat]? = some 0) :
    Intact s' := by
  rcases accept_cases h with rfl | ⟨hpos, hfresh, hroom, rfl⟩
  · exact hi
  · have hne : cs ≠ 0 := (Int.ne_of_lt hpos).symm
    have hslot := hfree (Int.le_of_lt hpos) hroom
    obtain ⟨hlt, -⟩ := List.getElem?_eq_some_iff.mp hslot
    refine ⟨by simpa using hi.length, hi.table.store hlt hne hfresh, ?_⟩
    refine hi.seats.store hlt (fun c hc hdead => ?_) hne fun c hc => ?_
    · rw [hslot] at hdead
      exact hi.seats.ne_free c hc (Option.some.inj hdead).symm
    · simpa using hc

theorem Intact.step (hi : Intact s) {s' : State} (h : step s r = some s')
    (hkeeps : KeepsEntries s r s') : Intact s' := by
  obtain ⟨hselects, hs'⟩ := step_cases h
  have hready := hi.handleReady (r := r) fun fd => ne_zero_of_selects hselects
  rcases hs' with hs' | hs' | ⟨hres, hss, haccept⟩
  · rw [hs']
    exact ⟨hi.length, hi.table, hi.seats⟩
  · rw [hs']
    exact hready
  · exact hready.accept haccept (hkeeps hres hss)

theorem start_intact (ss : Fd) : Intact (start ss) where
  length := rfl
  table := SlotTable.init List.nodup_nil maxClient
  seats := ⟨nofun, nofun⟩

end Table

/-- The table is exact after every round, and no client is overwritten, exactly when each new client
finds the entry free whose number is the number of clients there are. -/
theorem table_exact_iff (ss : Fd) (rs : List Round) :
    Run.Always step (fun s r s' => KeepsEntries s r s' ∧ TableExact s') (start ss) rs ↔
      Run.Always step SlotFree (start ss) rs := by
  refine Run.always_congr (I := Intact) ?_ ?_ (start_intact ss)
  · intro s r s' hi hs
    have hslots : KeepsEntries s r s' ↔ SlotFree s r s' :=
      keepsEntries_iff (step_cases hs).1 hi.length
    rw [← hslots]
    exact and_iff_left_of_imp fun hkeeps => (hi.step hs hkeeps).exact
  · intro s r s' hi hs hfree
    exact hi.step hs ((keepsEntries_iff (step_cases hs).1 hi.length).mpr hfree)

/-- A round in which the descriptors `rd` can be read, every client can be written to, and `recv`
returns `size` for the client of each entry. -/
def round (rd wd : List Fd) (size : Nat → Int) (accepted : Int) : Round :=
  ⟨rd.length + wd.length, rd, wd, size, accepted⟩

def hangUpFirst : List Round :=
  [round [3] [] (fun _ => 1) 4, round [3] [4] (fun _ => 1) 5, round [4] [4, 5] (fun _ => 0) 0]

/-- The next client takes the entry of client 5, which nobody serves from then on. -/
theorem client_overwritten :
    ∃ s s', Run.exec step (start 3) hangUpFirst = some s ∧
      step s (round [3] [5] (fun _ => 1) 4) = some s' ∧ s.fds[1]? = some 5 ∧
      s'.fds = [0, 4, 0, 0, 0, 0, 0, 0, 0, 0] ∧ 5 ∈ s'.connected ∧
      ¬ TableExact s' := by
  obtain ⟨s, hs, hcond⟩ : ∃ s, Run.exec step (start 3) hangUpFirst = some s ∧
      decide (s.fds[1]? = some 5 ∧ ∃ s' ∈ step s (round [3] [5] (fun _ => 1) 4),
        s'.fds = [0, 4, 0, 0, 0, 0, 0, 0, 0, 0] ∧ 5 ∈ s'.connected) = true :=
    (Option.any_eq_true _ _).mp (by decide +kernel)
  obtain ⟨hentry, s', hs', hfds, hconnected⟩ := of_decide_eq_true hcond
  refine ⟨s, s', hs, hs', hentry, hfds, hconnected, fun hexact => ?_⟩
  obtain ⟨i, ⟨-, hi⟩, -⟩ := hexact.1 5 hconnected
  have hmem := List.mem_of_getElem? hi
  rw [hfds] at hmem
  revert hmem
  decide

end LearnCLinux.IoModel.Select
