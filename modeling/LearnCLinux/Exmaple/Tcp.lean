import LearnCLinux.Library.Format
import LearnCLinux.Library.Run
import LearnCLinux.Library.Stream
import Mathlib.Algebra.GroupWithZero.Nat

/-! A client and a child of the server of `exmaple/TCP`, and the two streams between them.  The
client sends what is typed, and the server answers with the number of the bytes it has read. -/

namespace LearnCLinux.Exmaple.Tcp

open Format

inductive Client : Type
  | typing
  | sending (buf : List UInt8)
  | receiving
  | printing (buf : List UInt8)
  deriving DecidableEq

inductive Server : Type
  | reading
  | writing (size : Nat)
  deriving DecidableEq

structure Connection where
  client : Client
  server : Server
  /-- From the client to the server. -/
  up : List UInt8
  /-- From the server to the client. -/
  down : List UInt8
  output : List UInt8
  deriving DecidableEq

def start : Connection := ⟨.typing, .reading, [], [], []⟩

/-- `size` is how much a `read` returns. -/
inductive Event : Type
  | user (buf : List UInt8)
  | client (size : Nat)
  | server (size : Nat)
  deriving DecidableEq

section Code

/-- `sprintf` of `server_handle`, with the 0 that is sent too. -/
def reply (size : Nat) : List UInt8 :=
  "一共读出".toUTF8.toList ++ natural size ++ "个字节\n".toUTF8.toList ++ [0]

/-- A line is typed, or the end of the input, after which the client tries again. -/
def readLine (buf : List UInt8) (s : Connection) : Option Connection :=
  match s.client with
  | .typing =>
    if buf.length ≤ 1024 then
      some (if buf = [] then s else { s with client := .sending buf })
    else none
  | _ => none

def clientHandle (size : Nat) (s : Connection) : Option Connection :=
  match s.client with
  | .typing => none
  | .sending buf => some { s with up := s.up ++ buf, client := .receiving }
  | .receiving => (Stream.read 1024 size s.down).map fun (buf, down) =>
    { s with client := .printing buf, down := down }
  | .printing buf => some { s with output := s.output ++ buf, client := .typing }

def serverHandle (size : Nat) (s : Connection) : Option Connection :=
  match s.server with
  | .reading => (Stream.read 1024 size s.up).map fun (buf, up) =>
    { s with server := .writing buf.length, up := up }
  | .writing n => some { s with down := s.down ++ reply n, server := .reading }

def step (s : Connection) : Event → Option Connection
  | .user buf => readLine buf s
  | .client size => clientHandle size s
  | .server size => serverHandle size s

def line : Event → List (List UInt8)
  | .user buf => if buf = [] then [] else [buf]
  | .client _ => []
  | .server _ => []

def typed (es : List Event) : List (List UInt8) := es.flatMap line

end Code

section Inversion

variable {s s' : Connection} {buf : List UInt8} {size : Nat}

theorem readLine_cases (h : readLine buf s = some s') :
    s.client = .typing ∧ buf.length ≤ 1024 ∧
      (buf = [] ∧ s' = s ∨ buf ≠ [] ∧ s' = { s with client := .sending buf }) := by
  rw [readLine] at h
  split at h
  · next hclient =>
    split at h
    · next hlength =>
      refine ⟨hclient, hlength, ?_⟩
      by_cases hbuf : buf = []
      · rw [if_pos hbuf] at h
        exact .inl ⟨hbuf, (Option.some.inj h).symm⟩
      · rw [if_neg hbuf] at h
        exact .inr ⟨hbuf, (Option.some.inj h).symm⟩
    · cases h
  · cases h

theorem clientHandle_cases (h : clientHandle size s = some s') :
    (∃ buf, s.client = .sending buf ∧
      s' = { s with up := s.up ++ buf, client := .receiving }) ∨
    (∃ buf down, s.client = .receiving ∧ Stream.read 1024 size s.down = some (buf, down) ∧
      s' = { s with client := .printing buf, down := down }) ∨
    ∃ buf, s.client = .printing buf ∧
      s' = { s with output := s.output ++ buf, client := .typing } := by
  rw [clientHandle] at h
  split at h
  · cases h
  · next buf hclient => exact .inl ⟨buf, hclient, (Option.some.inj h).symm⟩
  · next hclient =>
    obtain ⟨⟨buf, down⟩, hread, rfl⟩ := Option.map_eq_some_iff.mp h
    exact .inr (.inl ⟨buf, down, hclient, hread, rfl⟩)
  · next buf hclient => exact .inr (.inr ⟨buf, hclient, (Option.some.inj h).symm⟩)

theorem serverHandle_cases (h : serverHandle size s = some s') :
    (∃ buf up, s.server = .reading ∧ Stream.read 1024 size s.up = some (buf, up) ∧
      s' = { s with server := .writing buf.length, up := up }) ∨
    ∃ n, s.server = .writing n ∧ s' = { s with down := s.down ++ reply n, server := .reading } := by
  rw [serverHandle] at h
  split at h
  · next hserver =>
    obtain ⟨⟨buf, up⟩, hread, rfl⟩ := Option.map_eq_some_iff.mp h
    exact .inl ⟨buf, up, hserver, hread, rfl⟩
  · next n hserver => exact .inr ⟨n, hserver, (Option.some.inj h).symm⟩

end Inversion

section Replies

variable {n : Nat} {counts counts' : List Nat}

theorem reply_ne_nil (n : Nat) : reply n ≠ [] := by simp [reply]

theorem length_reply_le (h : n ≤ 1024) : (reply n).length ≤ 1024 := by
  have hdigits : (natural n).length ≤ 4 := by
    rw [natural, List.length_map, Nat.length_toDigits_le_iff (by decide) (by decide)]
    omega
  have hbefore : "一共读出".toUTF8.toList.length = 12 := by decide +kernel
  have hafter : "个字节\n".toUTF8.toList.length = 10 := by decide +kernel
  simp only [reply, List.length_append, hbefore, hafter, List.length_singleton]
  omega

theorem flatMap_reply_injective : Function.Injective (List.flatMap reply) := by
  intro counts counts' h
  have htexts : ∀ counts : List Nat, counts.flatMap reply = (counts.map fun n =>
      "一共读出".toUTF8.toList ++ natural n ++ "个字节\n".toUTF8.toList).flatMap (· ++ [0]) := by
    intro counts
    rw [List.flatMap_map]
    rfl
  have hzero : ∀ counts : List Nat, ∀ s ∈ counts.map fun n =>
      "一共读出".toUTF8.toList ++ natural n ++ "个字节\n".toUTF8.toList, 0 ∉ s := by
    intro counts s hs
    obtain ⟨n, -, rfl⟩ := List.mem_map.mp hs
    have hbefore : 0 ∉ "一共读出".toUTF8.toList := by decide +kernel
    have hafter : 0 ∉ "个字节\n".toUTF8.toList := by decide +kernel
    simp only [List.mem_append, not_or]
    exact ⟨⟨hbefore, zero_notMem_natural n⟩, hafter⟩
  have heq := Stream.flatMap_terminated_inj (hzero counts) (hzero counts')
    (by rw [← htexts, ← htexts, h])
  refine List.map_injective_iff.mpr (fun m n hmn => natural_injective ?_) heq
  exact List.append_cancel_left (List.append_cancel_right hmn)

end Replies

section Counting

def Client.unprinted : Client → List UInt8
  | .printing buf => buf
  | _ => []

def Client.unsent : Client → List UInt8
  | .sending buf => buf
  | _ => []

def Server.unanswered : Server → Nat
  | .writing n => n
  | .reading => 0

/-- The server has sent `counts`, and what it has not counted yet is on its way. -/
structure Counted (lines : List (List UInt8)) (s : Connection) (counts : List Nat) : Prop where
  sent : s.output ++ s.client.unprinted ++ s.down = counts.flatMap reply
  sum : counts.sum + s.server.unanswered + s.up.length + s.client.unsent.length =
    lines.flatten.length

variable {lines : List (List UInt8)} {s s' : Connection} {counts : List Nat} {e : Event}
  {es : List Event} {buf : List UInt8} {size : Nat}

theorem start_counted : Counted [] start [] := ⟨rfl, rfl⟩

theorem Counted.readLine (hc : Counted lines s counts) (h : readLine buf s = some s') :
    Counted (lines ++ line (.user buf)) s' counts := by
  obtain ⟨hclient, -, ⟨hbuf, rfl⟩ | ⟨hbuf, rfl⟩⟩ := readLine_cases h
  · rw [line, if_pos hbuf, List.append_nil]
    exact hc
  · obtain ⟨hsent, hsum⟩ := hc
    rw [hclient] at hsent hsum
    refine ⟨hsent, ?_⟩
    rw [line, if_neg hbuf, List.flatten_append, List.length_append, ← hsum]
    simp [Client.unsent]

theorem Counted.clientHandle (hc : Counted lines s counts) (h : clientHandle size s = some s') :
    Counted lines s' counts := by
  obtain ⟨hsent, hsum⟩ := hc
  obtain ⟨buf, hclient, rfl⟩ | ⟨buf, down, hclient, hread, rfl⟩ | ⟨buf, hclient, rfl⟩ :=
    clientHandle_cases h
  · rw [hclient] at hsent hsum
    refine ⟨hsent, ?_⟩
    simp only [Client.unsent, List.length_append, List.length_nil] at hsum ⊢
    omega
  · rw [hclient, ← Stream.read_append hread] at hsent
    rw [hclient] at hsum
    refine ⟨?_, hsum⟩
    simpa [Client.unprinted] using hsent
  · rw [hclient] at hsent hsum
    refine ⟨?_, hsum⟩
    simpa [Client.unprinted] using hsent

theorem Counted.serverHandle (hc : Counted lines s counts) (h : serverHandle size s = some s') :
    ∃ counts', Counted lines s' counts' := by
  obtain ⟨hsent, hsum⟩ := hc
  obtain ⟨buf, up, hserver, hread, rfl⟩ | ⟨n, hserver, rfl⟩ := serverHandle_cases h
  · refine ⟨counts, hsent, ?_⟩
    rw [hserver, ← Stream.read_append hread, List.length_append] at hsum
    rw [← hsum]
    simp only [Server.unanswered]
    omega
  · refine ⟨counts ++ [n], ?_, ?_⟩
    · rw [List.flatMap_append, ← hsent]
      simp
    · rw [hserver] at hsum
      rw [← hsum]
      simp [Server.unanswered]

theorem Counted.step (hc : Counted lines s counts) (h : step s e = some s') :
    ∃ counts', Counted (lines ++ line e) s' counts' := by
  cases e with
  | user buf => exact ⟨counts, hc.readLine h⟩
  | client size =>
    refine ⟨counts, ?_⟩
    rw [line, List.append_nil]
    exact hc.clientHandle h
  | server size =>
    rw [line, List.append_nil]
    exact hc.serverHandle h

theorem typed_concat : typed (es ++ [e]) = typed es ++ line e := by
  rw [typed, List.flatMap_append, List.flatMap_singleton, typed]

theorem exec_counted (hrun : Run.exec Tcp.step start es = some s) :
    ∃ counts, Counted (typed es) s counts := by
  refine Run.history_invariant (I := fun es s => ∃ counts, Counted (typed es) s counts)
    ⟨[], start_counted⟩ (fun es e m m' _ hm h => ?_) hrun
  obtain ⟨counts, hc⟩ := hm
  rw [typed_concat]
  exact hc.step h

/-- Whatever pieces the streams are read in, what the server sends is a sequence of answers, and in
one way only, and the numbers in them are the bytes typed but for those it has not counted yet. -/
theorem counts_typed (hrun : Run.exec Tcp.step start es = some s) :
    ∃! counts, Counted (typed es) s counts := by
  obtain ⟨counts, hc⟩ := exec_counted hrun
  refine ⟨counts, hc, fun counts' hc' => flatMap_reply_injective ?_⟩
  exact hc'.sent.symm.trans hc.sent

/-- Three bytes are typed, and the server reads two of them and then one. -/
theorem counts_typed_in_pieces : ∃ s, Run.exec Tcp.step start [.user [97, 98, 99], .client 0,
    .server 2, .server 0, .server 1, .client 7] = some s ∧
      ∃! counts, Counted [[97, 98, 99]] s counts := by
  obtain ⟨s, hs⟩ := Option.isSome_iff_exists.mp
    (show (Run.exec Tcp.step start [.user [97, 98, 99], .client 0, .server 2, .server 0, .server 1,
      .client 7]).isSome = true by decide +kernel)
  exact ⟨s, hs, counts_typed hs⟩

end Counting

section Lockstep

/-- Each `read` returns what is there, up to the size of its buffer. -/
def Whole (s : Connection) : Event → Connection → Prop
  | .user _, _ => True
  | .client size, _ => s.client = .receiving → size = min 1024 s.down.length
  | .server size, _ => s.server = .reading → size = min 1024 s.up.length

instance : (s : Connection) → (e : Event) → (s' : Connection) → Decidable (Whole s e s')
  | _, .user _, _ => instDecidableTrue
  | _, .client _, _ => inferInstanceAs (Decidable (_ → _))
  | _, .server _, _ => inferInstanceAs (Decidable (_ → _))

def answers (lines : List (List UInt8)) : List UInt8 := lines.flatMap fun buf => reply buf.length

/-- Where a line is, or the answer to it. -/
inductive Awaits (buf : List UInt8) : Client → Server → List UInt8 → List UInt8 → Prop
  | sending : Awaits buf (.sending buf) .reading [] []
  | sent : Awaits buf .receiving .reading buf []
  | read : Awaits buf .receiving (.writing buf.length) [] []
  | answered : Awaits buf .receiving .reading [] (reply buf.length)
  | printing : Awaits buf (.printing (reply buf.length)) .reading [] []

/-- All lines are answered, or all but the last. -/
inductive InStep : List (List UInt8) → Connection → Prop
  | typing (lines : List (List UInt8)) : InStep lines ⟨.typing, .reading, [], [], answers lines⟩
  | awaits {lines : List (List UInt8)} {buf : List UInt8} {client : Client} {server : Server}
      {up down : List UInt8} : buf.length ≤ 1024 → Awaits buf client server up down →
      InStep (lines ++ [buf]) ⟨client, server, up, down, answers lines⟩

variable {lines : List (List UInt8)} {buf : List UInt8} {s s' : Connection} {e : Event}
  {es : List Event} {size : Nat}

theorem answers_concat (lines : List (List UInt8)) (buf : List UInt8) :
    answers (lines ++ [buf]) = answers lines ++ reply buf.length := by
  rw [answers, List.flatMap_append, List.flatMap_singleton, answers]

theorem InStep.readLine (hi : InStep lines s) (h : readLine buf s = some s') :
    InStep (lines ++ line (.user buf)) s' := by
  obtain ⟨hclient, hlength, hcase⟩ := readLine_cases h
  cases hi with
  | typing =>
    obtain ⟨hbuf, rfl⟩ | ⟨hbuf, rfl⟩ := hcase
    · rw [line, if_pos hbuf, List.append_nil]
      exact .typing lines
    · rw [line, if_neg hbuf]
      exact .awaits hlength .sending
  | awaits _ hwait =>
    cases hclient
    cases hwait

theorem InStep.clientHandle (hi : InStep lines s) (h : clientHandle size s = some s')
    (hwhole : Whole s (.client size) s') : InStep lines s' := by
  obtain ⟨text, hclient, rfl⟩ | ⟨text, down, hclient, hread, rfl⟩ | ⟨text, hclient, rfl⟩ :=
    clientHandle_cases h
  · cases hi with
    | typing => cases hclient
    | awaits hlength hwait =>
      cases hwait <;> cases hclient
      exact .awaits hlength .sent
  · cases hi with
    | typing => cases hclient
    | awaits hlength hwait =>
      cases hwait with
      | sending => cases hclient
      | sent => simp at hread
      | read => simp at hread
      | answered =>
        obtain ⟨rfl, rfl⟩ := Stream.read_whole hread (hwhole rfl) (length_reply_le hlength)
        exact .awaits hlength .printing
      | printing => cases hclient
  · cases hi with
    | typing => cases hclient
    | awaits hlength hwait =>
      cases hwait <;> cases hclient
      rw [← answers_concat]
      exact .typing _

theorem InStep.serverHandle (hi : InStep lines s) (h : serverHandle size s = some s')
    (hwhole : Whole s (.server size) s') : InStep lines s' := by
  obtain ⟨text, up, hserver, hread, rfl⟩ | ⟨n, hserver, rfl⟩ := serverHandle_cases h
  · cases hi with
    | typing => simp at hread
    | awaits hlength hwait =>
      cases hwait with
      | sent =>
        obtain ⟨rfl, rfl⟩ := Stream.read_whole hread (hwhole rfl) hlength
        exact .awaits hlength .read
      | read => cases hserver
      | _ => simp at hread
  · cases hi with
    | typing => cases hserver
    | awaits hlength hwait =>
      cases hwait <;> cases hserver
      exact .awaits hlength .answered

theorem InStep.step (hi : InStep lines s) (h : step s e = some s') (hwhole : Whole s e s') :
    InStep (lines ++ line e) s' := by
  cases e with
  | user buf => exact hi.readLine h
  | client size =>
    rw [line, List.append_nil]
    exact hi.clientHandle h hwhole
  | server size =>
    rw [line, List.append_nil]
    exact hi.serverHandle h hwhole

/-- If no message is cut, the answers printed are those to the lines typed, one for each and in their
order, and none is missing when the client waits for a line. -/
theorem answers_in_order (hwhole : Run.Always Tcp.step Whole start es)
    (hrun : Run.exec Tcp.step start es = some s) :
    (s.client = .typing ∧ s.output = answers (typed es)) ∨
      ∃ lines buf, typed es = lines ++ [buf] ∧ s.client ≠ .typing ∧ s.output = answers lines := by
  have hstart : InStep [] start := .typing []
  have hi := Run.trace_invariant (fun _ e _ => line e) (fun _ _ _ _ hi h hw => hi.step h hw) []
    hstart hwhole hrun
  rw [List.nil_append, Run.trace_of_labels hrun] at hi
  generalize htyped : es.flatMap line = lines at hi
  rw [typed, htyped]
  cases hi with
  | typing => exact .inl ⟨rfl, rfl⟩
  | @awaits lines buf _ _ _ _ _ hwait =>
    refine .inr ⟨lines, buf, rfl, ?_, rfl⟩
    cases hwait <;> simp

def threeBytes : List Event :=
  [.user [97, 98, 99], .client 0, .server 3, .server 0, .client 24, .client 0]

theorem threeBytes_runs : Run.exec Tcp.step start threeBytes =
    some ⟨.typing, .reading, [], [], reply 3⟩ := by
  decide +kernel

theorem answers_in_order_three_bytes : reply 3 = answers [[97, 98, 99]] := by
  rcases answers_in_order (by decide +kernel) threeBytes_runs with ⟨-, h⟩ | ⟨_, _, -, h, -⟩
  · exact h
  · exact absurd rfl h

end Lockstep

section Settling

def Client.statementsLeft : Client → Nat
  | .typing => 0
  | .sending _ => 3
  | .receiving => 2
  | .printing _ => 1

def Server.statementsLeft : Server → Nat
  | .reading => 0
  | .writing _ => 1

/-- What is sent is read once and answered once. -/
def Connection.statementsLeft (s : Connection) : Nat :=
  s.client.statementsLeft + s.server.statementsLeft + 2 * (s.up.length + s.client.unsent.length)

structure Answerable (s : Connection) : Prop where
  sends : s.client ≠ .sending []
  waits : s.client = .receiving → s.up ≠ [] ∨ s.server ≠ .reading ∨ s.down ≠ []

variable {s s' : Connection} {e : Event} {es ks : List Event} {size : Nat} {buf : List UInt8}

theorem start_answerable : Answerable start := ⟨nofun, nofun⟩

theorem Answerable.readLine (ha : Answerable s) (h : readLine buf s = some s') :
    Answerable s' := by
  obtain ⟨hclient, -, ⟨hbuf, rfl⟩ | ⟨hbuf, rfl⟩⟩ := readLine_cases h
  · exact ha
  · exact ⟨fun heq => hbuf (Client.sending.inj heq), nofun⟩

theorem Answerable.clientHandle (ha : Answerable s) (h : clientHandle size s = some s') :
    Answerable s' := by
  obtain ⟨buf, hclient, rfl⟩ | ⟨buf, down, hclient, hread, rfl⟩ | ⟨buf, hclient, rfl⟩ :=
    clientHandle_cases h
  · refine ⟨nofun, fun _ => .inl ?_⟩
    have hbuf : buf ≠ [] := by
      rintro rfl
      exact ha.sends hclient
    exact List.append_ne_nil_of_right_ne_nil _ hbuf
  · exact ⟨nofun, nofun⟩
  · exact ⟨nofun, nofun⟩

theorem Answerable.serverHandle (ha : Answerable s) (h : serverHandle size s = some s') :
    Answerable s' := by
  obtain ⟨buf, up, hserver, hread, rfl⟩ | ⟨n, hserver, rfl⟩ := serverHandle_cases h
  · exact ⟨ha.sends, fun _ => .inr (.inl nofun)⟩
  · exact ⟨ha.sends, fun _ => .inr (.inr (List.append_ne_nil_of_right_ne_nil _ (reply_ne_nil n)))⟩

theorem Answerable.step (ha : Answerable s) (h : step s e = some s') : Answerable s' := by
  cases e with
  | user buf => exact ha.readLine h
  | client size => exact ha.clientHandle h
  | server size => exact ha.serverHandle h

theorem clientHandle_lt (h : clientHandle size s = some s') :
    s'.statementsLeft < s.statementsLeft := by
  obtain ⟨buf, hclient, rfl⟩ | ⟨buf, down, hclient, -, rfl⟩ | ⟨buf, hclient, rfl⟩ :=
    clientHandle_cases h
  · simp only [Connection.statementsLeft, hclient, Client.statementsLeft, Client.unsent,
      List.length_append, List.length_nil]
    omega
  · simp [Connection.statementsLeft, hclient, Client.statementsLeft, Client.unsent]
  · simp [Connection.statementsLeft, hclient, Client.statementsLeft, Client.unsent]

theorem serverHandle_lt (h : serverHandle size s = some s') :
    s'.statementsLeft < s.statementsLeft := by
  obtain ⟨buf, up, hserver, hread, rfl⟩ | ⟨n, hserver, rfl⟩ := serverHandle_cases h
  · have hlength := (Stream.length_read hread).1
    have hup := congrArg List.length (Stream.read_append hread)
    rw [List.length_append] at hup
    simp only [Connection.statementsLeft, hserver, Server.statementsLeft]
    omega
  · simp only [Connection.statementsLeft, hserver, Server.statementsLeft]
    omega

theorem exec_answerable (hrun : Run.exec Tcp.step start es = some s) : Answerable s :=
  Run.invariant (fun _ _ _ ha h => ha.step h) start_answerable hrun

def Quiet : Event → Prop
  | .user _ => False
  | .client _ => True
  | .server _ => True

theorem quiet_line (h : Quiet e) : line e = [] := by
  cases e with
  | user => exact h.elim
  | client => rfl
  | server => rfl

theorem quiet_lt (hquiet : Quiet e) (h : step s e = some s') :
    s'.statementsLeft < s.statementsLeft := by
  cases e with
  | user => exact hquiet.elim
  | client size => exact clientHandle_lt h
  | server size => exact serverHandle_lt h

theorem Counted.statementsLeft_le {lines : List (List UInt8)} {counts : List Nat}
    (hc : Counted lines s counts) : s.statementsLeft ≤ 2 * lines.flatten.length + 4 := by
  have hsum := hc.sum
  have hclient : s.client.statementsLeft ≤ 3 := by
    cases s.client <;> simp [Client.statementsLeft]
  have hserver : s.server.statementsLeft ≤ 1 := by
    cases s.server <;> simp [Server.statementsLeft]
  rw [Connection.statementsLeft]
  omega

theorem server_rests (hstuck : ∀ size, serverHandle size s = none) :
    s.server = .reading ∧ s.up = [] := by
  cases hserver : s.server with
  | writing n =>
    have hnone := hstuck 0
    rw [serverHandle, hserver] at hnone
    cases hnone
  | reading =>
    refine ⟨rfl, ?_⟩
    by_contra hup
    obtain ⟨size, p, hread⟩ : ∃ size p, Stream.read 1024 size s.up = some p :=
      Stream.exists_read (Nat.zero_lt_succ _) hup
    have hnone := hstuck size
    simp only [serverHandle, hserver] at hnone
    rw [hread] at hnone
    cases hnone

theorem Answerable.client_rests (ha : Answerable s) (hserver : s.server = .reading)
    (hup : s.up = []) (hstuck : ∀ size, Tcp.clientHandle size s = none) : s.client = .typing := by
  cases hclient : s.client with
  | typing => rfl
  | sending buf =>
    have hnone := hstuck 0
    rw [Tcp.clientHandle, hclient] at hnone
    cases hnone
  | receiving =>
    have hdown : s.down ≠ [] := by
      rcases ha.waits hclient with h | h | h
      · exact absurd hup h
      · exact absurd hserver h
      · exact h
    obtain ⟨size, p, hread⟩ : ∃ size p, Stream.read 1024 size s.down = some p :=
      Stream.exists_read (Nat.zero_lt_succ _) hdown
    have hnone := hstuck size
    simp only [Tcp.clientHandle, hclient] at hnone
    rw [hread] at hnone
    cases hnone
  | printing buf =>
    have hnone := hstuck 0
    rw [Tcp.clientHandle, hclient] at hnone
    cases hnone

theorem quiet_length_le (hquiet : ∀ e ∈ ks, Quiet e) (h : Run.exec Tcp.step s ks = some s') :
    ks.length + s'.statementsLeft ≤ s.statementsLeft := by
  have hcount := Run.countP_add_le (I := fun _ => True) (P := fun _ e _ => Quiet e)
    (p := fun _ => true) (q := fun _ => false) (k := 0)
    (fun _ _ _ _ hs hq => ⟨trivial, quiet_lt hq hs⟩) trivial
    (Run.always_of_mem (fun e he _ _ => hquiet e he) s) h
  simpa using hcount

theorem typed_quiet (hquiet : ∀ e ∈ ks, Quiet e) : typed (es ++ ks) = typed es := by
  have hnone : ks.flatMap line = [] := List.flatMap_eq_nil_iff.mpr fun e he => quiet_line (hquiet e he)
  rw [typed, List.flatMap_append, hnone, List.append_nil, typed]

/-- When no more is typed, both are at rest after a number of statements that is bounded by what has
been, and then the client waits for a line, and the answers count all that was typed. -/
theorem settles (hrun : Run.exec Tcp.step start es = some s) (hquiet : ∀ e ∈ ks, Quiet e)
    (hrest : Run.exec Tcp.step s ks = some s') :
    ks.length ≤ 2 * (typed es).flatten.length + 4 ∧
      ((∀ e, Quiet e → Tcp.step s' e = none) → s'.client = .typing ∧
        ∃ counts : List Nat, s'.output ++ s'.down = counts.flatMap reply ∧
          counts.sum = (typed es).flatten.length) := by
  have hall : Run.exec Tcp.step start (es ++ ks) = some s' := Run.exec_append.mpr ⟨s, hrun, hrest⟩
  constructor
  · obtain ⟨counts, hc⟩ := exec_counted hrun
    have hlength := quiet_length_le hquiet hrest
    have hleft := hc.statementsLeft_le
    omega
  · intro hstuck
    obtain ⟨counts, hsent, hsum⟩ := exec_counted hall
    obtain ⟨hserver, hup⟩ := server_rests fun size => hstuck (.server size) trivial
    have hclient := (exec_answerable hall).client_rests hserver hup
      fun size => hstuck (.client size) trivial
    rw [hclient] at hsent hsum
    rw [hserver, hup, typed_quiet hquiet] at hsum
    refine ⟨hclient, counts, ?_, hsum⟩
    simpa [Client.unprinted] using hsent

theorem settles_three_bytes : ∃ s, Run.exec Tcp.step start [.user [97, 98, 99]] = some s ∧
    Run.exec Tcp.step s [.client 0, .server 3, .server 0, .client 24, .client 0] =
      some ⟨.typing, .reading, [], [], reply 3⟩ ∧
    ∃ counts : List Nat, reply 3 ++ [] = counts.flatMap reply ∧ counts.sum = 3 := by
  refine ⟨_, rfl, by decide +kernel, ?_⟩
  have hrun : Run.exec Tcp.step start [.user [97, 98, 99]] =
      some ⟨.sending [97, 98, 99], .reading, [], [], []⟩ := rfl
  have hrest : Run.exec Tcp.step ⟨.sending [97, 98, 99], .reading, [], [], []⟩
      [.client 0, .server 3, .server 0, .client 24, .client 0] =
        some ⟨.typing, .reading, [], [], reply 3⟩ := by decide +kernel
  obtain ⟨-, hsettled⟩ := settles hrun (by simp [Quiet]) hrest
  refine (hsettled fun e he => ?_).2
  cases e with
  | user => exact he.elim
  | client => rfl
  | server => simp [Tcp.step, Tcp.serverHandle]

end Settling

end LearnCLinux.Exmaple.Tcp
