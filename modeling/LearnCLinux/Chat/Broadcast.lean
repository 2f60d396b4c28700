import LearnCLinux.Chat.Server
import LearnCLinux.Library.Format
import LearnCLinux.Library.Terminated
import Mathlib.Algebra.Ring.Int.Defs
import Mathlib.Data.UInt

/-! The bytes that `server_handle` of `practise/chat/server.c` broadcasts: `read` gives a length,
but the text is formed from what `readbuf` holds up to a 0. -/

namespace LearnCLinux.Chat.Broadcast

open Server Terminated Format

structure Buffers where
  readbuf : List UInt8
  writebuf : List UInt8
  deriving DecidableEq

structure Sized (b : Buffers) : Prop where
  readbuf : b.readbuf.length = 512
  writebuf : b.writebuf.length = 1024

structure Start extends Buffers where
  sized : Sized toBuffers

/-- What `read` stores, and the entries of `shm_fds` as the loop reads them.  The first is in use
since a descriptor has been pushed before the process was forked. -/
structure Round where
  chunk : List UInt8
  shmFds : List Fd
  ne_nil : chunk ≠ []
  length_chunk : chunk.length ≤ 512
  no_zero : 0 ∉ chunk
  first : ∃ fd, shmFds.head? = some fd ∧ fd ≠ 0

section Code

def sender (cFd : Int32) : List UInt8 :=
  textAround "来自".toUTF8.toList "的消息: ".toUTF8.toList cFd

/-- The loop over `shm_fds`, up to a 0 or as far as it has come, with what it writes to each
descriptor. -/
def broadcast (writebuf : List UInt8) : List Fd → Option (List (Fd × List UInt8))
  | [] => some []
  | fd :: shmFds =>
    if fd ≠ 0 then (readString writebuf).bind fun text =>
      (broadcast writebuf shmFds).map fun written =>
        (fd, writebuf.take (text.length + 1)) :: written
    else some []

/-- A round of `for(;;)`.  It has no result where it reads or stores behind a buffer. -/
def round (cFd : Int32) (b : Buffers) (r : Round) : Option (Buffers × List (Fd × List UInt8)) :=
  let readbuf := overwrite b.readbuf 0 r.chunk
  (readString readbuf).bind fun text =>
  (storeString b.writebuf (sender cFd ++ text)).bind fun writebuf =>
  (broadcast writebuf r.shmFds).map fun written => (⟨readbuf, writebuf⟩, written)

def serverHandle (cFd : Int32) : Buffers → List Round → Option (List (List (Fd × List UInt8)))
  | _, [] => some []
  | b, r :: rs => (round cFd b r).bind fun (b, written) =>
    (serverHandle cFd b rs).map (written :: ·)

end Code

section Properties

def Buffers.after (b : Buffers) (cFd : Int32) (r : Round) : Buffers where
  readbuf := overwrite b.readbuf 0 r.chunk
  writebuf := overwrite b.writebuf 0 (sender cFd ++ r.chunk ++ [0])

def Round.listed (r : Round) : List Fd := r.shmFds.takeWhile (· ≠ 0)

/-- The chunk behind the text that names the sender, with a terminator, for every descriptor. -/
def Round.message (cFd : Int32) (r : Round) : List (Fd × List UInt8) :=
  r.listed.map (·, sender cFd ++ r.chunk ++ [0])

/-- No chunk is shorter than an earlier one, and `readbuf` has a 0 behind each from the start. -/
def Ended (readbuf : List UInt8) (rs : List Round) : Prop :=
  rs.Pairwise (fun r r' => r.chunk.length ≤ r'.chunk.length) ∧
    ∀ r ∈ rs, readbuf[r.chunk.length]? = some 0

end Properties

section Rounds

variable {cFd : Int32} {b : Buffers} {r : Round} {text writebuf : List UInt8}

theorem zero_notMem_sender (cFd : Int32) : 0 ∉ sender cFd :=
  zero_notMem_textAround (by decide +kernel) (by decide +kernel) cFd

theorem length_sender_le (cFd : Int32) : (sender cFd).length ≤ 28 := by
  have hbefore : "来自".toUTF8.toList.length = 6 := by decide +kernel
  have hafter : "的消息: ".toUTF8.toList.length = 11 := by decide +kernel
  apply (length_textAround_le cFd).trans
  rw [hbefore, hafter]

theorem Round.exists_listed (r : Round) : ∃ fd, fd ∈ r.listed := by
  obtain ⟨fd, hfirst, hfd⟩ := r.first
  obtain ⟨rest, hrest⟩ := List.head?_eq_some_iff.mp hfirst
  refine ⟨fd, ?_⟩
  rw [Round.listed, hrest, List.takeWhile_cons_of_pos (by simpa using hfd)]
  exact List.mem_cons_self

theorem Sized.length_overwrite (hb : Sized b) : (overwrite b.readbuf 0 r.chunk).length = 512 := by
  rw [length_overwrite_start (hb.readbuf ▸ r.length_chunk), hb.readbuf]

theorem broadcast_eq (shmFds : List Fd) (htext : readString writebuf = some text) :
    broadcast writebuf shmFds = some ((shmFds.takeWhile (· ≠ 0)).map (·, text ++ [0])) := by
  induction shmFds with
  | nil => rfl
  | cons fd shmFds ih =>
    rw [broadcast]
    by_cases hfd : fd = 0
    · rw [if_neg (not_not.mpr hfd), List.takeWhile_cons_of_neg (by simpa using hfd)]
      rfl
    · rw [if_pos hfd, List.takeWhile_cons_of_pos (by simpa using hfd), htext, ih]
      simp only [Option.bind_some, Option.map_some, List.map_cons, take_of_readString htext]

theorem round_eq (hb : Sized b) (htext : readString (overwrite b.readbuf 0 r.chunk) = some text) :
    round cFd b r = some (⟨overwrite b.readbuf 0 r.chunk,
      overwrite b.writebuf 0 (sender cFd ++ text ++ [0])⟩,
        r.listed.map (·, sender cFd ++ text ++ [0])) := by
  have hlength := length_readString_lt htext
  rw [hb.length_overwrite] at hlength
  have hfits : (sender cFd ++ text).length < b.writebuf.length := by
    rw [List.length_append, hb.writebuf]
    have hsender := length_sender_le cFd
    omega
  have hzero : 0 ∉ sender cFd ++ text := by
    rw [List.mem_append, not_or]
    exact ⟨zero_notMem_sender cFd, (readString_iff.mp htext).1⟩
  simp only [round, htext, Option.bind_some, storeString_of_lt hfits]
  rw [broadcast_eq r.shmFds (readString_storeString hzero)]
  rfl

/-- The round writes `message` and goes on with the chunk in both buffers, if and only if `readbuf`
holds a 0 where the chunk ends. -/
theorem serverHandle_cons (hb : Sized b) {rs : List Round}
    {written : List (List (Fd × List UInt8))} :
    serverHandle cFd b (r :: rs) = some (r.message cFd :: written) ↔
      b.readbuf[r.chunk.length]? = some 0 ∧ serverHandle cFd (b.after cFd r) rs = some written := by
  rw [← readString_overwrite r.no_zero, serverHandle]
  cases htext : readString (overwrite b.readbuf 0 r.chunk) with
  | none => simp [round, htext]
  | some text =>
    rw [round_eq hb htext, Option.bind_some, Option.map_eq_some_iff, Option.some_inj]
    constructor
    · rintro ⟨written', hrest, heq⟩
      obtain ⟨hnow, rfl⟩ := List.cons.inj heq
      obtain ⟨fd, hfd⟩ := r.exists_listed
      have htexts := congrArg Prod.snd (List.map_inj_left.mp hnow fd hfd)
      rw [List.append_left_inj, List.append_right_inj] at htexts
      cases htexts
      exact ⟨rfl, hrest⟩
    · rintro ⟨rfl, hrest⟩
      exact ⟨written, hrest, rfl⟩

theorem Sized.after (hb : Sized b) (cFd : Int32) (r : Round) : Sized (b.after cFd r) where
  readbuf := hb.length_overwrite
  writebuf := by
    have hsender := length_sender_le cFd
    have hchunk := r.length_chunk
    rw [Buffers.after, length_storeString, hb.writebuf]
    rw [List.length_append, hb.writebuf]
    omega

theorem after_zero_iff {n : Nat} :
    (b.after cFd r).readbuf[n]? = some 0 ↔ r.chunk.length ≤ n ∧ b.readbuf[n]? = some 0 := by
  rw [Buffers.after, overwrite, List.take_zero, List.nil_append, Nat.zero_add]
  rcases Nat.lt_or_ge n r.chunk.length with hlt | hle
  · rw [List.getElem?_append_left hlt]
    constructor
    · intro hzero
      exact absurd (List.mem_of_getElem? hzero) r.no_zero
    · intro hn
      omega
  · rw [List.getElem?_append_right hle, List.getElem?_drop, and_iff_right hle]
    congr! 2
    omega

theorem serverHandle_iff (hb : Sized b) (rs : List Round) :
    serverHandle cFd b rs = some (rs.map (Round.message cFd)) ↔ Ended b.readbuf rs := by
  induction rs generalizing b with
  | nil => simp [serverHandle, Ended]
  | cons r rs ih =>
    rw [List.map_cons, serverHandle_cons hb, ih (hb.after cFd r), Ended, Ended, List.pairwise_cons]
    simp only [after_zero_iff, List.forall_mem_cons]
    constructor
    · rintro ⟨hnow, hpairwise, hall⟩
      exact ⟨⟨fun r' hr' => (hall r' hr').1, hpairwise⟩, hnow, fun r' hr' => (hall r' hr').2⟩
    · rintro ⟨⟨hle, hpairwise⟩, hnow, hall⟩
      exact ⟨hnow, hpairwise, fun r' hr' => ⟨hle r' hr', hall r' hr'⟩⟩

end Rounds

section Processes

variable {s : State} {p i : Nat} {t : Child} {fd : Fd}

theorem step_entry (size : Int) (hp : s.children[p]? = some t) (hpc : t.pc = .broadcast i)
    (hfd : s.shm[i]? = some fd) :
    ∃ m, step s (.child p size) = some m ∧ m.shm = s.shm ∧ m.children[p]? = some
      (if fd ≠ 0 then { t with pc := .broadcast (i + 1), written := t.written ++ reached t fd }
      else { t with pc := .read }) := by
  refine ⟨{ s with children := s.children.set p _ }, ?_, rfl,
    List.getElem?_set_self (List.getElem?_eq_some_iff.mp hp).1⟩
  rw [step, hp, Option.bind_some, Server.serverHandle, hpc]
  simp only [hfd, Option.map_some]

theorem loop_reaches (size : Int) {entries : List Fd} (hshm : s.shm.drop i = entries)
    (hends : 0 ∈ entries) (hp : s.children[p]? = some t) (hpc : t.pc = .broadcast i) :
    ∃ s', Run.exec step s
        (List.replicate ((entries.takeWhile (· ≠ 0)).length + 1) (.child p size)) = some s' ∧
      s'.children[p]? = some { t with
        pc := .read
        written := t.written ++ (entries.takeWhile (· ≠ 0)).flatMap (reached t) } := by
  induction entries generalizing s t i with
  | nil => simp at hends
  | cons fd entries ih =>
    have hentry : s.shm[i]? = some fd := by
      rw [← Nat.add_zero i, ← List.getElem?_drop, hshm]
      rfl
    obtain ⟨m, hm, hkept, hchild⟩ := step_entry size hp hpc hentry
    by_cases hfd : fd = 0
    · rw [if_neg (not_not.mpr hfd)] at hchild
      rw [List.takeWhile_cons_of_neg (by simpa using hfd)]
      refine ⟨m, Run.exec_cons.mpr ⟨m, hm, rfl⟩, ?_⟩
      rw [hchild, List.flatMap_nil, List.append_nil]
    · rw [if_pos hfd] at hchild
      rw [List.takeWhile_cons_of_pos (by simpa using hfd)]
      have hrest : 0 ∈ entries := (List.mem_cons.mp hends).resolve_left (Ne.symm hfd)
      have hdrop : m.shm.drop (i + 1) = entries := by
        rw [hkept, ← List.drop_drop, hshm]
        rfl
      obtain ⟨s', hrun, hend⟩ := ih hdrop hrest hchild rfl
      refine ⟨s', Run.exec_cons.mpr ⟨m, hm, hrun⟩, ?_⟩
      rw [hend, List.flatMap_cons, ← List.append_assoc]
      rfl

end Processes

section Runs

/-- For every content of the buffers and every sequence of chunks. -/
theorem messages_iff (c : Start) (cFd : Int32) (rs : List Round) :
    serverHandle cFd c.toBuffers rs = some (rs.map (Round.message cFd)) ↔ Ended c.readbuf rs :=
  serverHandle_iff c.sized rs

def clear : Start where
  readbuf := List.replicate 512 0
  writebuf := List.replicate 1024 0
  sized := ⟨List.length_replicate, List.length_replicate⟩

def hello : Round where
  chunk := "hello".toUTF8.toList
  shmFds := [4, 0]
  ne_nil := by decide +kernel
  length_chunk := by decide +kernel
  no_zero := by decide +kernel
  first := ⟨4, rfl, by decide⟩

def hi : Round where
  chunk := "hi".toUTF8.toList
  shmFds := [4, 0]
  ne_nil := by decide +kernel
  length_chunk := by decide +kernel
  no_zero := by decide +kernel
  first := ⟨4, rfl, by decide⟩

/-- The second message goes on with the end of the first. -/
theorem hi_carries_hello :
    serverHandle 4 clear.toBuffers [hello, hi] =
      some [hello.message 4, [(4, sender 4 ++ "hillo".toUTF8.toList ++ [0])]] ∧
    serverHandle 4 clear.toBuffers [hello, hi] ≠ some ([hello, hi].map (Round.message 4)) := by
  decide +kernel

end Runs

end LearnCLinux.Chat.Broadcast
