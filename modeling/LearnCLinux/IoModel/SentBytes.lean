import LearnCLinux.IoModel.Select
import LearnCLinux.Library.Format
import LearnCLinux.Library.Terminated
import Mathlib.Data.List.TakeWhile
import Mathlib.Data.UInt

/-! The bytes that `server_handle` of `select.c` and of `epoll.c` hand to `send`: the whole of
`writebuf`, whatever `sprintf` has stored in it. -/

namespace LearnCLinux.IoModel.SentBytes

open Select Terminated Format

structure Message (n : Nat) where
  bytes : List UInt8
  ne_nil : bytes ≠ []
  length_le : bytes.length ≤ n

/-- What memory holds before the call: `tmpBuf` or `readbuf`, of `n` bytes, what lies behind it, and
`writebuf`. -/
structure Memory (n : Nat) where
  buf : List UInt8
  behind : List UInt8
  writebuf : List UInt8
  length_buf : buf.length = n
  length_writebuf : writebuf.length = 1024

/-- `server_handle` of `select.c` is called for an entry of `fds` in use. -/
structure Served where
  fds : List Fd
  cFd : Int32
  mem_fds : cFd.toInt ∈ fds
  ne_zero : cFd.toInt ≠ 0

section Code

def sender (fd : Int32) : List UInt8 :=
  textAround "来自".toUTF8.toList "的数据: ".toUTF8.toList fd

/-- `%s` reads on behind the buffer up to a 0.  There is no result without one, nor if `writebuf` is
too short. -/
def sprintf (writebuf buf : List UInt8) (fd : Int32) : Option (List UInt8) :=
  (readString buf).bind fun text => storeString writebuf (sender fd ++ text)

/-- `tmpBuf` is cleared before `recv`. -/
def selectSends (fds : List Fd) (cFd : Int32) (msg : Message 512) (m : Memory 512) :
    Option (List (Fd × List UInt8)) :=
  let tmpBuf := overwrite (List.replicate 512 0) 0 msg.bytes
  (sprintf m.writebuf (tmpBuf ++ m.behind) cFd).map fun writebuf =>
    (fds.filter (· ≠ 0)).map (·, writebuf)

/-- `readbuf` is not.  A message that begins with "bye" closes `cs` first and is sent all the
same. -/
def epollSends (cs : Int32) (msg : Message 800) (m : Memory 800) : Option (List UInt8) :=
  let readbuf := overwrite m.buf 0 msg.bytes
  sprintf m.writebuf (readbuf ++ m.behind) cs

end Code

section Properties

variable {n : Nat} {α β : Type} {sends : Memory n → Option α}

/-- Two runs send the same, whatever memory held. -/
def MessageOnly (sends : Memory n → Option α) : Prop :=
  ∀ m m' sent sent', sends m = some sent → sends m' = some sent' → sent = sent'

theorem not_messageOnly (f : α → β) {m m' : Memory n} {x y : β} (hx : (sends m).map f = some x)
    (hy : (sends m').map f = some y) (hne : x ≠ y) : ¬ MessageOnly sends := by
  intro honly
  obtain ⟨sent, hsent, rfl⟩ := Option.map_eq_some_iff.mp hx
  obtain ⟨sent', hsent', rfl⟩ := Option.map_eq_some_iff.mp hy
  exact hne (congrArg f (honly m m' sent sent' hsent hsent'))

end Properties

section Buffers

variable {n : Nat} {buf writebuf sent : List UInt8} {fd : Int32}

theorem length_sender_le (fd : Int32) : (sender fd).length ≤ 28 := by
  have hbefore : "来自".toUTF8.toList.length = 6 := by decide +kernel
  have hafter : "的数据: ".toUTF8.toList.length = 11 := by decide +kernel
  apply (length_textAround_le fd).trans
  rw [hbefore, hafter]

def filled (n : Nat) (x : UInt8) : Memory n where
  buf := List.replicate n 0
  behind := [0]
  writebuf := List.replicate 1024 x
  length_buf := List.length_replicate
  length_writebuf := List.length_replicate

theorem sprintf_last (hzero : 0 ∈ buf) (hlength : buf.length ≤ 801)
    (hwritebuf : writebuf.length = 1024) (fd : Int32) :
    (sprintf writebuf buf fd).map (·[1023]?) = some writebuf[1023]? := by
  have htext := readString_of_mem hzero
  have hshorter := length_readString_lt htext
  have hsender := length_sender_le fd
  have hfits : (sender fd ++ buf.takeWhile (· ≠ 0)).length < 1023 := by
    rw [List.length_append]
    omega
  rw [sprintf, htext, Option.bind_some, storeString_of_lt (by omega), Option.map_some]
  congr 1
  apply getElem?_overwrite_of_le (Nat.zero_le _)
  rw [List.length_append, List.length_singleton]
  omega

theorem sprintf_filled (x : UInt8) (hn : n ≤ 800) (hlength : buf.length = n) (fd : Int32) :
    (sprintf (filled n x).writebuf (buf ++ (filled n x).behind) fd).map (·[1023]?) =
      some (some x) := by
  have hzero : 0 ∈ buf ++ (filled n x).behind := List.mem_append_right _ List.mem_cons_self
  have hbehind : (buf ++ (filled n x).behind).length ≤ 801 := by
    rw [List.length_append, hlength]
    exact Nat.succ_le_succ hn
  rw [sprintf_last hzero hbehind (filled n x).length_writebuf]
  exact congrArg some (List.getElem?_replicate_of_lt (by decide))

theorem length_received (msg : Message n) (hbuf : buf.length = n) :
    (overwrite buf 0 msg.bytes).length = n := by
  rw [length_overwrite_start (hbuf ▸ msg.length_le), hbuf]

theorem sprintf_prefix (h : sprintf writebuf buf fd = some sent) :
    ∃ text, readString buf = some text ∧ sender fd ++ text ++ [0] <+: sent := by
  obtain ⟨text, htext, hstore⟩ := Option.bind_eq_some_iff.mp h
  rw [storeString] at hstore
  split at hstore <;> cases hstore
  refine ⟨text, htext, ?_⟩
  rw [overwrite, List.take_zero, List.nil_append]
  exact List.prefix_append ..

theorem received_text {msg : Message n} (hzero : 0 ∈ msg.bytes) (behind : List UInt8) :
    readString (overwrite buf 0 msg.bytes ++ behind) = some (msg.bytes.takeWhile (· ≠ 0)) := by
  rw [overwrite, List.take_zero, List.nil_append, List.append_assoc]
  exact readString_append (readString_of_mem hzero) _

end Buffers

section Select

variable {fds : List Fd} {cFd : Int32}

theorem selectSends_filled (fds : List Fd) (cFd : Int32) (msg : Message 512) (x : UInt8) :
    (selectSends fds cFd msg (filled 512 x)).map (·.map (·.2[1023]?)) =
      some ((fds.filter (· ≠ 0)).map fun _ => some x) := by
  have hlength := length_received msg (filled 512 x).length_buf
  obtain ⟨writebuf, hwritebuf, hlast⟩ :=
    Option.map_eq_some_iff.mp (sprintf_filled x (by decide) hlength cFd)
  have hsends : selectSends fds cFd msg (filled 512 x) =
      some ((fds.filter (· ≠ 0)).map (·, writebuf)) :=
    Option.map_eq_some_iff.mpr ⟨writebuf, hwritebuf, rfl⟩
  rw [hsends, Option.map_some, List.map_map]
  congr 2
  exact funext fun _ => hlast

theorem selectSends_not_messageOnly (t : Served) (msg : Message 512) :
    ¬ MessageOnly (selectSends t.fds t.cFd msg) := by
  apply not_messageOnly _ (selectSends_filled t.fds t.cFd msg 0) (selectSends_filled t.fds t.cFd msg 1)
  intro hsame
  have hmem : t.cFd.toInt ∈ t.fds.filter (· ≠ 0) :=
    List.mem_filter.mpr ⟨t.mem_fds, decide_eq_true t.ne_zero⟩
  cases List.map_inj_left.mp hsame _ hmem

theorem ready_not_messageOnly {s m : State} {r : Round} (h : selects s r = true) {i : Nat}
    (hfd : m.fds[i]? = some cFd.toInt) (hready : cFd.toInt ∈ r.rd ∧ cFd.toInt ∈ r.wd)
    (msg : Message 512) : ¬ MessageOnly (selectSends m.fds cFd msg) :=
  selectSends_not_messageOnly
    ⟨m.fds, cFd, List.mem_of_getElem? hfd, ne_zero_of_selects h hready.2⟩ msg

/-- In `tmpBuf` a message that is cut at a 0, or leaves room for one, is read to its own end. -/
theorem selectSends_text {msg : Message 512} {m : Memory 512} {sent : List (Fd × List UInt8)}
    (hends : 0 ∈ msg.bytes ∨ msg.bytes.length < 512)
    (h : selectSends fds cFd msg m = some sent) :
    ∀ p ∈ sent, sender cFd ++ msg.bytes.takeWhile (· ≠ 0) ++ [0] <+: p.2 := by
  obtain ⟨writebuf, hwritebuf, rfl⟩ := Option.map_eq_some_iff.mp h
  obtain ⟨text, htext, hprefix⟩ := sprintf_prefix hwritebuf
  have hread : readString (overwrite (List.replicate 512 0) 0 msg.bytes ++ m.behind) =
      some (msg.bytes.takeWhile (· ≠ 0)) := by
    by_cases hzero : 0 ∈ msg.bytes
    · exact received_text hzero m.behind
    · have hself : msg.bytes.takeWhile (· ≠ 0) = msg.bytes := by
        rw [List.takeWhile_eq_self_iff]
        exact fun x hx => decide_eq_true fun hx0 => hzero (hx0 ▸ hx)
      rw [hself]
      apply readString_append
      rw [readString_overwrite hzero]
      exact List.getElem?_replicate_of_lt (hends.resolve_left hzero)
  cases htext.symm.trans hread
  intro p hp
  obtain ⟨fd, -, rfl⟩ := List.mem_map.mp hp
  exact hprefix

end Select

section Epoll

theorem epollSends_filled (cs : Int32) (msg : Message 800) (x : UInt8) :
    (epollSends cs msg (filled 800 x)).map (·[1023]?) = some (some x) :=
  sprintf_filled x (by decide) (length_received msg (filled 800 x).length_buf) cs

theorem epollSends_not_messageOnly (cs : Int32) (msg : Message 800) :
    ¬ MessageOnly (epollSends cs msg) := by
  apply not_messageOnly _ (epollSends_filled cs msg 0) (epollSends_filled cs msg 1)
  rintro ⟨⟩

/-- A message is cut at its first 0; without one the text goes on with what `readbuf` held. -/
theorem epollSends_text {cs : Int32} {msg : Message 800} {m : Memory 800} {sent : List UInt8}
    (hzero : 0 ∈ msg.bytes) (h : epollSends cs msg m = some sent) :
    sender cs ++ msg.bytes.takeWhile (· ≠ 0) ++ [0] <+: sent := by
  obtain ⟨text, htext, hprefix⟩ := sprintf_prefix h
  cases htext.symm.trans (received_text hzero m.behind)
  exact hprefix

end Epoll

section Servers

/-- For every descriptor and every message, in both servers. -/
theorem sent_bytes_vary (t : Served) (cs : Int32) (msg : Message 512) (msg' : Message 800) :
    ¬ MessageOnly (selectSends t.fds t.cFd msg) ∧ ¬ MessageOnly (epollSends cs msg') :=
  ⟨selectSends_not_messageOnly t msg, epollSends_not_messageOnly cs msg'⟩

def onlyClient : Served where
  fds := [5]
  cFd := 5
  mem_fds := by decide
  ne_zero := by decide

def ok {n : Nat} (hn : 2 ≤ n) : Message n where
  bytes := "ok".toUTF8.toList
  ne_nil := by decide +kernel
  length_le := by
    have hlength : "ok".toUTF8.toList.length = 2 := by decide +kernel
    omega

/-- The last byte that either server sends is what `writebuf` held. -/
theorem ok_sends_stack_byte :
    (∀ x, (selectSends onlyClient.fds onlyClient.cFd (ok (by decide)) (filled 512 x)).map
        (·.map (·.2[1023]?)) = some [some x]) ∧
      (∀ x, (epollSends 5 (ok (by decide)) (filled 800 x)).map (·[1023]?) = some (some x)) ∧
      ¬ MessageOnly (selectSends onlyClient.fds onlyClient.cFd (ok (by decide))) ∧
      ¬ MessageOnly (epollSends 5 (ok (by decide))) := by
  have hselect := selectSends_filled onlyClient.fds onlyClient.cFd (ok (by decide))
  have hepoll := epollSends_filled 5 (ok (by decide))
  refine ⟨hselect, hepoll, ?_, ?_⟩
  · exact not_messageOnly _ (hselect 0) (hselect 1) (by decide)
  · exact not_messageOnly _ (hepoll 0) (hepoll 1) (by decide)

end Servers

end LearnCLinux.IoModel.SentBytes
