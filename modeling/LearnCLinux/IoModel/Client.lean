import LearnCLinux.IoModel.SentBytes
import LearnCLinux.Library.Stream

/-! `get_server_client` of `io_model/client.c`, a thread that prints what the server sends, behind
`server_handle` of `epoll.c`, which sends 1024 bytes for each message. -/

namespace LearnCLinux.IoModel.Client

open SentBytes Terminated Format

/-- An answer of `server_handle`, with the message and what its memory held. -/
structure Reply where
  cs : Int32
  msg : Message 800
  memory : Memory 800
  bytes : List UInt8
  sent : epollSends cs msg memory = some bytes

/-- `down` is sent and not read, `exited` tells that `exit` has been called. -/
structure State where
  down : List UInt8
  closed : Bool
  printed : List (List UInt8)
  exited : Bool

def start : State := ⟨[], false, [], false⟩

/-- With `read` comes how much it returns, and what `buf` and the memory behind it hold. -/
inductive Event : Type
  | send (r : Reply)
  | close
  | read (size : Nat) (memory : List UInt8)

section Code

def thanks : List UInt8 := "感谢使用\n".toUTF8.toList

/-- A round of the loop.  `%s` prints up to a 0. -/
def getServerClient (size : Nat) (memory : List UInt8) (s : State) : Option State :=
  if s.exited then none
  else match Stream.read 1024 size s.down with
    | some (data, down) => (readString (overwrite memory 0 data)).map fun text =>
      { s with down := down, printed := s.printed ++ [text] }
    | none =>
      if s.down = [] ∧ s.closed then
        some { s with printed := s.printed ++ [thanks], exited := true }
      else none

def step (s : State) : Event → Option State
  | .send r => if s.closed then none else some { s with down := s.down ++ r.bytes }
  | .close => if s.closed then none else some { s with closed := true }
  | .read size memory => getServerClient size memory s

def reply : Event → List Reply
  | .send r => [r]
  | .close => []
  | .read _ _ => []

end Code

section Replies

variable (r : Reply)

def Reply.text : List UInt8 :=
  sender r.cs ++
    (readString (overwrite r.memory.buf 0 r.msg.bytes ++ r.memory.behind)).getD []

theorem zero_notMem_sender (fd : Int32) : 0 ∉ sender fd := by
  apply zero_notMem_textAround
  · decide +kernel
  · decide +kernel

theorem Reply.zero_notMem_text : 0 ∉ r.text := by
  rw [Reply.text, List.mem_append, not_or]
  refine ⟨zero_notMem_sender r.cs, ?_⟩
  cases hread : readString (overwrite r.memory.buf 0 r.msg.bytes ++ r.memory.behind) with
  | none => simp
  | some text => exact (readString_eq_some.mp hread).1

theorem Reply.bytes_eq : r.text.length < 1024 ∧
    r.bytes = overwrite r.memory.writebuf 0 (r.text ++ [0]) := by
  obtain ⟨text, htext, hstore⟩ := Option.bind_eq_some_iff.mp r.sent
  rw [storeString, r.memory.length_writebuf] at hstore
  split at hstore
  · next hlt =>
    rw [Reply.text, htext]
    exact ⟨hlt, (Option.some.inj hstore).symm⟩
  · cases hstore

theorem Reply.length_bytes : r.bytes.length = 1024 := by
  obtain ⟨hlength, hbytes⟩ := r.bytes_eq
  rw [hbytes, length_storeString (by rwa [r.memory.length_writebuf]), r.memory.length_writebuf]

theorem Reply.bytes_ne_nil : r.bytes ≠ [] := by
  intro hnil
  have hlength := r.length_bytes
  rw [hnil] at hlength
  cases hlength

theorem Reply.readString_overwrite (memory : List UInt8) :
    readString (overwrite memory 0 r.bytes) = some r.text := by
  have hread : readString r.bytes = some r.text := by
    rw [r.bytes_eq.2]
    exact readString_storeString r.zero_notMem_text
  rw [overwrite, List.take_zero, List.nil_append]
  exact readString_append hread _

end Replies

section Printing

/-- A `read` that does not wait returns what is there, up to the size of `buf`. -/
def Whole (s : State) : Event → State → Prop
  | .read size _, _ => s.down ≠ [] → size = min 1024 s.down.length
  | .send _, _ => True
  | .close, _ => True

instance : (s : State) → (e : Event) → (s' : State) → Decidable (Whole s e s')
  | _, .read _ _, _ => inferInstanceAs (Decidable (_ → _))
  | _, .send _, _ => instDecidableTrue
  | _, .close, _ => instDecidableTrue

/-- The answers `old` are printed, and `new` are on their way. -/
structure Prints (old new : List Reply) (s : State) : Prop where
  printed : s.printed = old.map Reply.text ++ if s.exited then [thanks] else []
  down : s.down = new.flatMap Reply.bytes
  exited : s.exited = true → s.closed = true ∧ new = []

variable {rs old new : List Reply} {s s' : State} {e : Event} {es : List Event} {size : Nat}
  {memory : List UInt8}

theorem getServerClient_cases (h : getServerClient size memory s = some s') :
    s.exited = false ∧ ((∃ data down text, Stream.read 1024 size s.down = some (data, down) ∧
      readString (overwrite memory 0 data) = some text ∧
        s' = { s with down := down, printed := s.printed ++ [text] }) ∨
      s.down = [] ∧ s.closed = true ∧
        s' = { s with printed := s.printed ++ [thanks], exited := true }) := by
  rw [getServerClient] at h
  split at h
  · cases h
  · next hexited =>
    refine ⟨Bool.eq_false_of_not_eq_true hexited, ?_⟩
    split at h
    · next data down hread =>
      obtain ⟨text, htext, rfl⟩ := Option.map_eq_some_iff.mp h
      exact .inl ⟨data, down, text, hread, htext, rfl⟩
    · split at h
      · next hend => exact .inr ⟨hend.1, hend.2, (Option.some.inj h).symm⟩
      · cases h

theorem read_first {r : Reply} {data down : List UInt8}
    (hread : Stream.read 1024 size ((r :: new).flatMap Reply.bytes) = some (data, down))
    (hsize : size = min 1024 ((r :: new).flatMap Reply.bytes).length) :
    data = r.bytes ∧ down = new.flatMap Reply.bytes := by
  have hlength := r.length_bytes
  rw [List.flatMap_cons] at hread hsize
  rw [List.length_append, hlength, Nat.min_eq_left (Nat.le_add_right ..)] at hsize
  rw [Stream.read, hsize] at hread
  split at hread
  · cases hread
    exact ⟨List.take_left' hlength, List.drop_left' hlength⟩
  · cases hread

theorem Prints.read (hp : Prints old new s) (h : getServerClient size memory s = some s')
    (hwhole : Whole s (.read size memory) s') :
    ∃ old' new', old ++ new = old' ++ new' ∧ Prints old' new' s' := by
  obtain ⟨hprinted, hdown, hexit⟩ := hp
  obtain ⟨hexited, ⟨data, down, text, hread, htext, rfl⟩ | ⟨hempty, hclosed, rfl⟩⟩ :=
    getServerClient_cases h
  · rw [hdown] at hread
    cases new with
    | nil => simp at hread
    | cons r new =>
      have hne : s.down ≠ [] := by
        rw [hdown, List.flatMap_cons]
        exact List.append_ne_nil_of_left_ne_nil r.bytes_ne_nil _
      have hsize := hwhole hne
      rw [hdown] at hsize
      obtain ⟨rfl, rfl⟩ := read_first hread hsize
      cases (r.readString_overwrite memory).symm.trans htext
      refine ⟨old ++ [r], new, by simp, ?_, rfl, ?_⟩
      · rw [hexited] at hprinted ⊢
        simp [hprinted]
      · intro hexited'
        cases hexited.symm.trans hexited'
  · have hnew : new = [] := by
      rw [hempty] at hdown
      cases new with
      | nil => rfl
      | cons r new =>
        rw [List.flatMap_cons] at hdown
        exact absurd (List.append_eq_nil_iff.mp hdown.symm).1 r.bytes_ne_nil
    refine ⟨old, [], by rw [hnew], ?_, hempty, fun _ => ⟨hclosed, rfl⟩⟩
    rw [hexited] at hprinted
    simp [hprinted]

theorem Prints.step (hp : Prints old new s) (h : step s e = some s') (hwhole : Whole s e s') :
    ∃ old' new', old ++ new ++ reply e = old' ++ new' ∧ Prints old' new' s' := by
  cases e with
  | send r =>
    rw [Client.step] at h
    split at h
    · cases h
    · next hopen =>
      cases h
      refine ⟨old, new ++ [r], by simp [reply], hp.printed, ?_, ?_⟩
      · simp [hp.down]
      · intro hexited
        exact absurd (hp.exited hexited).1 hopen
  | close =>
    rw [Client.step] at h
    split at h
    · cases h
    · cases h
      exact ⟨old, new, by simp [reply], hp.printed, hp.down, fun hexited =>
        ⟨rfl, (hp.exited hexited).2⟩⟩
  | read size memory =>
    rw [reply, List.append_nil]
    exact hp.read h hwhole

end Printing

end LearnCLinux.IoModel.Client
