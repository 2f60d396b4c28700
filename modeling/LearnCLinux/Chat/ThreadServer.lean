import Mathlib.Data.List.Nodup
import LearnCLinux.Library.Run
import LearnCLinux.Library.Threads

/-! `practise/chat/thread_server.c`: one thread for each client, and the table `cs_fds` that every
message is sent round.  An entry of the table outlives its client. -/

namespace LearnCLinux.Chat.ThreadServer

abbrev Fd := Nat

def maxClient : Nat := 10

inductive Pc : Type
  | read
  | broadcast (i : Nat)
  | close
  | returned
  deriving DecidableEq

/-- `arg` points to `cs_fds[arg]`.  `written` is a history variable, the descriptors the message
last read has been written to. -/
structure ClientThread where
  arg : Nat
  pc : Pc
  written : List Fd
  deriving DecidableEq

/-- The last two are history variables: the descriptors of the clients a thread serves, and those
of the clients whose thread has closed them. -/
structure State where
  openFds : List Fd
  csFds : List Fd
  count : Nat
  threads : List ClientThread
  connected : List Fd
  disconnected : List Fd
  deriving DecidableEq

/-- A new descriptor has the lowest number that is not open. -/
def isLowestFree (openFds : List Fd) (fd : Fd) : Bool :=
  fd ∉ openFds && (List.range fd).all (· ∈ openFds)

structure Start where
  others : List Fd
  ss : Fd
  lowest : isLowestFree others ss = true

def start (c : Start) : State where
  openFds := c.ss :: c.others
  csFds := List.replicate maxClient 0
  count := 0
  threads := []
  connected := []
  disconnected := []

section Code

/-- The body of `while (1)`: `accept`, and a thread for the client, unless `pthread_create` fails. -/
def connect (s : State) (created : Bool) : Option Fd → Option State
  | none => some s
  | some cs =>
    if isLowestFree s.openFds cs then
      if s.count < maxClient then
        let s := { s with
          openFds := cs :: s.openFds
          csFds := s.csFds.set s.count cs }
        if created then
          some { s with
            threads := s.threads ++ [⟨s.count, .read, []⟩]
            count := s.count + 1
            connected := s.connected ++ [cs] }
        else some { s with csFds := s.csFds.set s.count 0 }
      else none
    else none

/-- A step of `client_thread`.  `size` is what `read` returns. -/
def clientThread (s : State) (w : Nat) (t : ClientThread) (size : Int) : Option State :=
  match t.pc with
  | .read => s.csFds[t.arg]?.map fun _ =>
    { s with threads := s.threads.set w <|
        if size ≤ 0 then { t with pc := .close } else { t with pc := .broadcast 0, written := [] } }
  | .broadcast i => s.csFds[i]?.map fun fd =>
    { s with threads := s.threads.set w <|
        if fd ≠ 0 then { t with pc := .broadcast (i + 1), written := t.written ++ [fd] }
        else { t with pc := .read } }
  | .close => s.csFds[t.arg]?.map fun fd =>
    { s with
      openFds := s.openFds.filter (· ≠ fd)
      threads := s.threads.set w { t with pc := .returned }
      connected := s.connected.filter (· ≠ fd)
      disconnected := s.disconnected ++ [fd] }
  | .returned => none

inductive Label : Type
  | connect (cs : Option Fd) (created : Bool)
  | thread (w : Nat) (size : Int)
  deriving DecidableEq

def step (s : State) : Label → Option State
  | .connect cs created => connect s created cs
  | .thread w size => s.threads[w]?.bind fun t => clientThread s w t size

end Code

section Inversion

inductive Step (s : State) : Label → State → Prop
  | failed {created} : Step s (.connect none created) s
  | connected {cs} : isLowestFree s.openFds cs = true → s.count < maxClient →
      Step s (.connect (some cs) true) { s with
        openFds := cs :: s.openFds
        csFds := s.csFds.set s.count cs
        count := s.count + 1
        threads := s.threads ++ [⟨s.count, .read, []⟩]
        connected := s.connected ++ [cs] }
  | notCreated {cs} : isLowestFree s.openFds cs = true → s.count < maxClient →
      Step s (.connect (some cs) false) { s with
        openFds := cs :: s.openFds
        csFds := (s.csFds.set s.count cs).set s.count 0 }
  | readEnd {w size t} : s.threads[w]? = some t → t.pc = .read →
      Step s (.thread w size) { s with threads := s.threads.set w { t with pc := .close } }
  | read {w size t} : s.threads[w]? = some t → t.pc = .read →
      Step s (.thread w size)
        { s with threads := s.threads.set w { t with pc := .broadcast 0, written := [] } }
  | write {w size t i fd} : s.threads[w]? = some t → t.pc = .broadcast i → s.csFds[i]? = some fd →
      fd ≠ 0 → Step s (.thread w size) { s with
        threads := s.threads.set w { t with pc := .broadcast (i + 1), written := t.written ++ [fd] } }
  | done {w size t i} : s.threads[w]? = some t → t.pc = .broadcast i → s.csFds[i]? = some 0 →
      Step s (.thread w size) { s with threads := s.threads.set w { t with pc := .read } }
  | close {w size t fd} : s.threads[w]? = some t → t.pc = .close → s.csFds[t.arg]? = some fd →
      Step s (.thread w size) { s with
        openFds := s.openFds.filter (· ≠ fd)
        threads := s.threads.set w { t with pc := .returned }
        connected := s.connected.filter (· ≠ fd)
        disconnected := s.disconnected ++ [fd] }

theorem step_cases {s s' : State} {l : Label} (h : step s l = some s') : Step s l s' := by
  cases l with
  | connect cs created =>
    cases cs with
    | none => cases h; exact .failed
    | some cs =>
      simp only [step, connect] at h
      split at h
      · next hlowest =>
        split at h
        · next hlt =>
          cases created with
          | true => cases h; exact .connected hlowest hlt
          | false => cases h; exact .notCreated hlowest hlt
        · cases h
      · cases h
  | thread w size =>
    obtain ⟨t, hw, h⟩ := Option.bind_eq_some_iff.mp h
    rw [clientThread] at h
    split at h
    case h_1 hpc =>
      obtain ⟨fd, -, rfl⟩ := Option.map_eq_some_iff.mp h
      split
      · exact .readEnd hw hpc
      · exact .read hw hpc
    case h_2 hpc =>
      obtain ⟨fd, hfd, rfl⟩ := Option.map_eq_some_iff.mp h
      split
      · next hne => exact .write hw hpc hfd hne
      · next hzero =>
        rw [not_not] at hzero
        exact .done hw hpc (hzero ▸ hfd)
    case h_3 hpc =>
      obtain ⟨fd, hfd, rfl⟩ := Option.map_eq_some_iff.mp h
      exact .close hw hpc hfd
    case h_4 => cases h

end Inversion

def ExactlyOnce (s : State) (t : ClientThread) : Prop :=
  (∀ fd ∈ s.connected, t.written.count fd = 1) ∧ ∀ fd ∈ t.written, fd ∈ s.connected

instance (s : State) (t : ClientThread) : Decidable (ExactlyOnce s t) :=
  inferInstanceAs (Decidable
    ((∀ fd ∈ s.connected, t.written.count fd = 1) ∧ ∀ fd ∈ t.written, fd ∈ s.connected))

def WrittenSoFar (fds : List Fd) (t : ClientThread) : Prop :=
  ∀ i, t.pc = .broadcast i → i ≤ fds.length ∧ t.written = fds.take i

/-- The table holds the descriptor of each client a thread was started for, in this order; entry `w`
belongs to thread `w`. -/
structure Table (s : State) (fds : List Fd) : Prop where
  csFds : s.csFds = fds ++ List.replicate (maxClient - fds.length) 0
  count : s.count = fds.length
  threads : s.threads.length = fds.length
  zero : 0 ∈ s.openFds
  ne_zero : ∀ fd ∈ fds, fd ≠ 0
  args : ∀ (w : Nat) (t : ClientThread), s.threads[w]? = some t → t.arg = w
  written : ∀ (w : Nat) (t : ClientThread), s.threads[w]? = some t → WrittenSoFar fds t
  connected_open : ∀ fd ∈ s.connected, fd ∈ s.openFds
  connected_nodup : s.connected.Nodup
  served : ∀ fd ∈ s.connected, ∃ (w : Nat) (t : ClientThread),
    s.threads[w]? = some t ∧ t.pc ≠ .returned ∧ fds[w]? = some fd
  left : s.disconnected ≠ [] → ∃ (w : Nat) (t : ClientThread),
    s.threads[w]? = some t ∧ t.pc = .returned
  kept : s.disconnected = [] → s.connected = fds

namespace Table

variable {s s' : State} {fds : List Fd}

theorem entry (ht : Table s fds) {i : Nat} {fd : Fd} (hfd : s.csFds[i]? = some fd) :
    (fd ≠ 0 → fds[i]? = some fd) ∧ (fd = 0 → fds.length ≤ i) := by
  rw [ht.csFds] at hfd
  by_cases hlt : i < fds.length
  · rw [List.getElem?_append_left hlt] at hfd
    exact ⟨fun _ => hfd, fun hzero => absurd hzero (ht.ne_zero fd (List.mem_of_getElem? hfd))⟩
  · rw [List.getElem?_append_right (Nat.le_of_not_lt hlt)] at hfd
    have hzero := List.eq_of_mem_replicate (List.mem_of_getElem? hfd)
    exact ⟨fun hne => absurd hzero hne, fun _ => Nat.le_of_not_lt hlt⟩

theorem setThread (ht : Table s fds) {w : Nat} {t t' : ClientThread} (hw : s.threads[w]? = some t)
    (harg : t'.arg = t.arg) (hpc : t.pc ≠ .returned) (hpc' : t'.pc ≠ .returned)
    (hwritten : WrittenSoFar fds t') :
    Table { s with threads := s.threads.set w t' } fds where
  __ := ht
  threads := (List.length_set ..).trans ht.threads
  args := Threads.forall_set ht.args (harg.trans (ht.args w t hw))
  written := Threads.forall_set (P := fun _ => WrittenSoFar fds) ht.written hwritten
  served fd hfd := Threads.exists_set (P := fun w t => t.pc ≠ .returned ∧ fds[w]? = some fd) hw
    (fun h => ⟨hpc', h.2⟩) (ht.served fd hfd)
  left hleft := Threads.exists_set (P := fun _ t => t.pc = .returned) hw
    (fun h => absurd h hpc) (ht.left hleft)

theorem closeThread (ht : Table s fds) {w : Nat} {t : ClientThread} {fd : Fd}
    (hw : s.threads[w]? = some t) (hfd : s.csFds[t.arg]? = some fd) :
    Table { s with
      openFds := s.openFds.filter (· ≠ fd)
      threads := s.threads.set w { t with pc := .returned }
      connected := s.connected.filter (· ≠ fd)
      disconnected := s.disconnected ++ [fd] } fds := by
  rw [ht.args w t hw] at hfd
  have hlt : w < fds.length := by
    rw [← ht.threads]
    exact (List.getElem?_eq_some_iff.mp hw).1
  have hne : fd ≠ 0 := fun hzero => Nat.not_le.mpr hlt ((ht.entry hfd).2 hzero)
  have hmem : ∀ f, f ∈ s.connected.filter (· ≠ fd) → f ∈ s.connected ∧ f ≠ fd := by
    intro f hf
    obtain ⟨hold, hne⟩ := List.mem_filter.mp hf
    exact ⟨hold, of_decide_eq_true hne⟩
  constructor
  case csFds => exact ht.csFds
  case count => exact ht.count
  case threads => exact (List.length_set ..).trans ht.threads
  case zero => exact List.mem_filter.mpr ⟨ht.zero, decide_eq_true hne.symm⟩
  case ne_zero => exact ht.ne_zero
  case args => exact Threads.forall_set ht.args (ht.args w t hw)
  case written =>
    exact Threads.forall_set (P := fun _ => WrittenSoFar fds) ht.written fun i hi => by cases hi
  case connected_open =>
    intro f hf
    obtain ⟨hold, hne⟩ := hmem f hf
    exact List.mem_filter.mpr ⟨ht.connected_open f hold, decide_eq_true hne⟩
  case connected_nodup => exact ht.connected_nodup.filter _
  case served =>
    intro f hf
    obtain ⟨hold, hfne⟩ := hmem f hf
    obtain ⟨v, u, hv, hu, hentry⟩ := ht.served f hold
    have hvw : w ≠ v := by
      rintro rfl
      exact hfne (Option.some.inj (hentry.symm.trans ((ht.entry hfd).1 hne)))
    exact ⟨v, u, by rwa [List.getElem?_set_ne hvw], hu, hentry⟩
  case left => exact fun _ => Threads.exists_set_self hw rfl
  case kept => exact fun hnone => absurd hnone (by simp)

theorem connect (ht : Table s fds) {cs : Fd} (hlowest : isLowestFree s.openFds cs = true)
    (hlt : s.count < maxClient) :
    Table { s with
      openFds := cs :: s.openFds
      csFds := s.csFds.set s.count cs
      count := s.count + 1
      threads := s.threads ++ [⟨s.count, .read, []⟩]
      connected := s.connected ++ [cs] } (fds ++ [cs]) := by
  have hfresh : cs ∉ s.openFds := of_decide_eq_true (Bool.and_eq_true_iff.mp hlowest).1
  have hne : cs ≠ 0 := fun hzero => hfresh (hzero ▸ ht.zero)
  constructor
  case csFds =>
    rw [ht.count] at hlt
    rw [ht.csFds, ht.count, List.set_append_right _ _ (Nat.le_refl _), Nat.sub_self,
      List.append_assoc, List.length_append, List.length_singleton]
    obtain ⟨n, hn⟩ : ∃ n, maxClient - fds.length = n + 1 := ⟨maxClient - fds.length - 1, by omega⟩
    rw [hn, List.replicate_succ, List.set_cons_zero, show maxClient - (fds.length + 1) = n by omega]
    rfl
  case count => rw [List.length_append, ht.count]; rfl
  case threads => rw [List.length_append, List.length_append, ht.threads]; rfl
  case zero => exact List.mem_cons_of_mem _ ht.zero
  case ne_zero =>
    intro fd hfd
    rcases List.mem_append.mp hfd with hold | hnew
    · exact ht.ne_zero fd hold
    · exact List.mem_singleton.mp hnew ▸ hne
  case args => exact Threads.forall_concat ht.args (ht.count.trans ht.threads.symm)
  case written =>
    refine Threads.forall_concat (P := fun _ => WrittenSoFar (fds ++ [cs])) ?_ (by rintro i ⟨⟩)
    intro w t hw i hi
    obtain ⟨hle, htake⟩ := ht.written w t hw i hi
    refine ⟨Nat.le_trans hle (by simp), ?_⟩
    rw [htake, List.take_append_of_le_length hle]
  case connected_open =>
    intro fd hfd
    rcases List.mem_append.mp hfd with hold | hnew
    · exact List.mem_cons_of_mem _ (ht.connected_open fd hold)
    · exact List.mem_singleton.mp hnew ▸ List.mem_cons_self
  case connected_nodup =>
    have hnodup := ht.connected_nodup.concat fun hcs => hfresh (ht.connected_open cs hcs)
    rwa [List.concat_eq_append] at hnodup
  case served =>
    intro fd hfd
    rcases List.mem_append.mp hfd with hold | hnew
    · obtain ⟨w, t, hw, hpc, hentry⟩ := ht.served fd hold
      obtain ⟨hltw, -⟩ := List.getElem?_eq_some_iff.mp hw
      obtain ⟨hltf, -⟩ := List.getElem?_eq_some_iff.mp hentry
      refine ⟨w, t, ?_, hpc, ?_⟩
      · rwa [List.getElem?_append_left hltw]
      · rwa [List.getElem?_append_left hltf]
    · rw [List.mem_singleton.mp hnew]
      refine ⟨fds.length, ⟨s.count, .read, []⟩, ?_, Pc.noConfusion, List.getElem?_concat_length⟩
      rw [← ht.threads]
      exact List.getElem?_concat_length
  case left =>
    intro hleft
    exact Threads.exists_append (P := fun _ (t : ClientThread) => t.pc = .returned) _ (ht.left hleft)
  case kept => exact fun hnone => congrArg (· ++ [cs]) (ht.kept hnone)

theorem notCreated (ht : Table s fds) {cs : Fd} (hlt : s.count < maxClient) :
    Table { s with
      openFds := cs :: s.openFds
      csFds := (s.csFds.set s.count cs).set s.count 0 } fds where
  __ := ht
  csFds := by
    rw [ht.count] at hlt
    rw [List.set_set, ht.csFds, ht.count, List.set_append_right _ _ (Nat.le_refl _), Nat.sub_self]
    obtain ⟨n, hn⟩ : ∃ n, maxClient - fds.length = n + 1 := ⟨maxClient - fds.length - 1, by omega⟩
    rw [hn, List.replicate_succ, List.set_cons_zero]
  zero := List.mem_cons_of_mem _ ht.zero
  connected_open fd hfd := List.mem_cons_of_mem _ (ht.connected_open fd hfd)

theorem step (ht : Table s fds) {l : Label} (h : Step s l s') : ∃ fds, Table s' fds := by
  cases h with
  | failed => exact ⟨fds, ht⟩
  | connected hlowest hlt => exact ⟨_, ht.connect hlowest hlt⟩
  | notCreated hlowest hlt => exact ⟨fds, ht.notCreated hlt⟩
  | readEnd hw hpc =>
    exact ⟨fds, ht.setThread hw rfl (hpc ▸ Pc.noConfusion) Pc.noConfusion fun i hi => by cases hi⟩
  | read hw hpc =>
    refine ⟨fds, ht.setThread hw rfl (hpc ▸ Pc.noConfusion) Pc.noConfusion fun i hi => ?_⟩
    cases hi
    exact ⟨Nat.zero_le _, rfl⟩
  | @write w size t i fd hw hpc hfd hne =>
    refine ⟨fds, ht.setThread hw rfl (hpc ▸ Pc.noConfusion) Pc.noConfusion fun j hj => ?_⟩
    cases hj
    have hentry := (ht.entry hfd).1 hne
    obtain ⟨hlt, -⟩ := List.getElem?_eq_some_iff.mp hentry
    refine ⟨hlt, ?_⟩
    rw [(ht.written w t hw i hpc).2, List.take_add_one, hentry]
    rfl
  | done hw hpc =>
    exact ⟨fds, ht.setThread hw rfl (hpc ▸ Pc.noConfusion) Pc.noConfusion fun i hi => by cases hi⟩
  | close hw hpc hfd => exact ⟨fds, ht.closeThread hw hfd⟩

/-- What is written is the whole table, so a message reaches each client once and nobody else as
long as every entry is a client's. -/
theorem exactlyOnce_iff (ht : Table s fds) {w i : Nat} {t : ClientThread}
    (hw : s.threads[w]? = some t) (hpc : t.pc = .broadcast i) (hend : s.csFds[i]? = some 0) :
    ExactlyOnce s t ↔ s.disconnected = [] := by
  obtain ⟨hle, hwritten⟩ := ht.written w t hw i hpc
  rw [List.take_of_length_le ((ht.entry hend).2 rfl)] at hwritten
  rw [ExactlyOnce, hwritten]
  constructor
  · rintro ⟨honce, hclients⟩
    have hnodup : fds.Nodup := by
      rw [List.nodup_iff_count_le_one]
      intro fd
      by_cases hfd : fd ∈ fds
      · exact Nat.le_of_eq (honce fd (hclients fd hfd))
      · rw [List.count_eq_zero_of_not_mem hfd]
        exact Nat.zero_le 1
    by_contra hleft
    obtain ⟨v, u, hv, hgone⟩ := ht.left hleft
    obtain ⟨hltv, -⟩ := List.getElem?_eq_some_iff.mp hv
    rw [ht.threads] at hltv
    -- The number in the entry of a client that has left is another client's now.
    obtain ⟨v', u', hv', hserves, hentry⟩ := ht.served _ (hclients _ (List.getElem_mem hltv))
    have hsame : v = v' := by
      apply (List.getElem?_inj hltv hnodup).mp
      rw [hentry, List.getElem?_eq_getElem hltv]
    subst hsame
    cases hv.symm.trans hv'
    exact hserves hgone
  · intro hnone
    have hnodup := ht.connected_nodup
    rw [ht.kept hnone] at hnodup ⊢
    exact ⟨fun fd hfd => List.count_eq_one_of_mem hnodup hfd, fun fd hfd => hfd⟩

theorem init (c : Start) : Table (start c) [] where
  csFds := rfl
  count := rfl
  threads := rfl
  zero := by
    by_cases hzero : c.ss = 0
    · exact hzero ▸ List.mem_cons_self
    · have hall := (Bool.and_eq_true_iff.mp c.lowest).2
      rw [List.all_eq_true] at hall
      have hmem := hall 0 (List.mem_range.mpr (Nat.pos_of_ne_zero hzero))
      exact List.mem_cons_of_mem _ (of_decide_eq_true hmem)
  ne_zero := nofun
  args := nofun
  written := nofun
  connected_open := nofun
  connected_nodup := List.nodup_nil
  served := nofun
  left hleft := absurd rfl hleft
  kept _ := rfl

end Table

section Runs

variable {c : Start} {ls : List Label} {s : State}

theorem exec_table (hrun : Run.exec step (start c) ls = some s) : ∃ fds, Table s fds :=
  Run.invariant (I := fun m => ∃ fds, Table m fds)
    (fun _ _ _ ⟨_, ht⟩ hs => ht.step (step_cases hs)) ⟨[], Table.init c⟩ hrun

/-- At the end of the loop that sends a message round. -/
theorem exactly_once_iff (hrun : Run.exec step (start c) ls = some s) {w i : Nat}
    {t : ClientThread} (hw : s.threads[w]? = some t) (hpc : t.pc = .broadcast i)
    (hend : s.csFds[i]? = some 0) : ExactlyOnce s t ↔ s.disconnected = [] := by
  obtain ⟨fds, ht⟩ := exec_table hrun
  exact ht.exactlyOnce_iff hw hpc hend

end Runs

def server : Start := ⟨[0, 1, 2], 3, by decide⟩

def twoClients : List Label :=
  [.connect (some 4) true, .connect (some 5) true, .thread 1 7, .thread 1 0, .thread 1 0]

theorem exactly_once_two_clients :
    ∃ s t, Run.exec step (start server) twoClients = some s ∧ s.threads[1]? = some t ∧
      t.pc = .broadcast 2 ∧ t.written = [4, 5] ∧ ExactlyOnce s t := by
  obtain ⟨s, hs, hcond⟩ : ∃ s, Run.exec step (start server) twoClients = some s ∧
      decide (s.csFds[2]? = some 0 ∧ s.disconnected = [] ∧
        ∃ t : ClientThread, t ∈ s.threads[1]? ∧ t.pc = .broadcast 2 ∧ t.written = [4, 5]) = true :=
    (Option.any_eq_true _ _).mp (by decide +kernel)
  obtain ⟨hend, hnone, t, hw, hpc, hwritten⟩ := of_decide_eq_true hcond
  exact ⟨s, t, hs, hw, hpc, hwritten, (exactly_once_iff hs hw hpc hend).mpr hnone⟩

/-- Client 4 leaves, and the next client gets its number and a second entry: a message of client 5
reaches it twice. -/
theorem message_written_twice :
    ∃ s t, Run.exec step (start server)
        [.connect (some 4) true, .connect (some 5) true, .thread 0 0, .thread 0 0,
          .connect (some 4) true, .thread 1 7, .thread 1 0, .thread 1 0, .thread 1 0] = some s ∧
      s.threads[1]? = some t ∧ t.pc = .broadcast 3 ∧ s.csFds[3]? = some 0 ∧
      t.written = [4, 5, 4] ∧ s.connected = [5, 4] ∧ ¬ ExactlyOnce s t := by
  obtain ⟨s, hs, hcond⟩ : ∃ s, Run.exec step (start server)
      [.connect (some 4) true, .connect (some 5) true, .thread 0 0, .thread 0 0,
        .connect (some 4) true, .thread 1 7, .thread 1 0, .thread 1 0, .thread 1 0] = some s ∧
      decide (∃ t : ClientThread, t ∈ s.threads[1]? ∧ t.pc = .broadcast 3 ∧ s.csFds[3]? = some 0 ∧
        t.written = [4, 5, 4] ∧ s.connected = [5, 4] ∧ ¬ ExactlyOnce s t) = true :=
    (Option.any_eq_true _ _).mp (by decide +kernel)
  obtain ⟨t, hw, hrest⟩ := of_decide_eq_true hcond
  exact ⟨s, t, hs, hw, hrest⟩

end LearnCLinux.Chat.ThreadServer
