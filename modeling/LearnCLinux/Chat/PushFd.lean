import LearnCLinux.Chat.Server
import LearnCLinux.Library.Terminated
import Mathlib.Algebra.Ring.Int.Defs

/-! `push_fd` of `practise/chat/server.c` called any number of times, and the loops of other
processes that read the table between its stores. -/

namespace LearnCLinux.Chat.PushFd

open Server Terminated

inductive Pc : Type
  | idle
  | testFull (fd : Fd)
  | storeFd (fd : Fd)
  | incCount (fd : Fd)
  | storeEnd (fd : Fd)
  deriving DecidableEq

structure Table where
  shm : List Fd
  count : Nat
  pc : Pc
  deriving DecidableEq

structure Reader where
  i : Nat
  visited : List Fd
  stopped : Bool
  deriving DecidableEq

/-- `completed` is a history variable: the descriptors of the calls that returned 0. -/
structure State where
  table : Table
  completed : List Fd
  readers : List Reader
  deriving DecidableEq

inductive Label : Type
  | call (fd : Fd)
  | push
  | broadcast
  | read (p : Nat)
  deriving DecidableEq

section Code

def advance (t : Table) : Option Table :=
  match t.pc with
  | .idle => none
  | .testFull fd =>
    if t.count = maxClient - 1 then some { t with pc := .idle } else some { t with pc := .storeFd fd }
  | .storeFd fd => some { t with shm := t.shm.set t.count fd, pc := .incCount fd }
  | .incCount fd => some { t with count := t.count + 1, pc := .storeEnd fd }
  | .storeEnd _ => some { t with shm := t.shm.set t.count 0, pc := .idle }

/-- What the call that returns 0 with its next step has pushed. -/
def Pc.returning : Pc → List Fd
  | .storeEnd fd => [fd]
  | _ => []

def readEntry (r : Reader) (fd : Fd) : Reader :=
  if fd ≠ 0 then { r with i := r.i + 1, visited := r.visited ++ [fd] } else { r with stopped := true }

def step (s : State) : Label → Option State
  | .call fd =>
    if s.table.pc = .idle ∧ fd ≠ 0 then some { s with table := { s.table with pc := .testFull fd } }
    else none
  | .push => (advance s.table).map fun t =>
    { s with table := t, completed := s.completed ++ s.table.pc.returning }
  | .broadcast =>
    if s.completed ≠ [] then some { s with readers := s.readers ++ [⟨0, [], false⟩] } else none
  | .read p => s.readers[p]?.bind fun r =>
    if r.stopped then none
    else s.table.shm[r.i]?.map fun fd => { s with readers := s.readers.set p (readEntry r fd) }

/-- The segment may be an old one. -/
def start (shm : List Fd) : State where
  table := ⟨shm, 0, .idle⟩
  completed := []
  readers := []

end Code

section Parent

def pcOf : ParentPc → Pc
  | .accept => .idle
  | .testFull cs => .testFull cs
  | .storeFd cs => .storeFd cs
  | .incCount cs => .incCount cs
  | .storeEnd cs => .storeEnd cs
  | .fork _ => .idle

def tableOf (s : Server.State) : Table := ⟨s.shm, s.count, pcOf s.pc⟩

/-- Inside `push_fd` the parent of the server does what `advance` does. -/
theorem parent_advance (s : Server.State) (c : ParentChoice) (hpc : pcOf s.pc ≠ .idle) :
    (Server.parent s c).map tableOf = advance (tableOf s) := by
  rw [Server.parent]
  cases h : s.pc with
  | accept => exact absurd (h ▸ rfl) hpc
  | fork cs => exact absurd (h ▸ rfl) hpc
  | testFull cs =>
    simp only [advance, tableOf, h, pcOf]
    split <;> rfl
  | storeFd cs => simp [advance, tableOf, h, pcOf]
  | incCount cs => simp [advance, tableOf, h, pcOf]
  | storeEnd cs => simp [advance, tableOf, h, pcOf]

end Parent

section Properties

def Pc.pushing : Pc → List Fd
  | .idle => []
  | .testFull fd | .storeFd fd | .incCount fd | .storeEnd fd => [fd]

def Pc.stored : Pc → List Fd
  | .incCount fd | .storeEnd fd => [fd]
  | _ => []

/-- Once a push has completed, the entries before the first 0 are the descriptors pushed so far, and
every loop keeps to them and comes to an end. -/
def EndsTruly (s : State) (_ : Label) (s' : State) : Prop :=
  (s'.completed ≠ [] →
    (∃ pushed, readString s'.table.shm = some pushed ∧ pushed.length < maxClient ∧
      (pushed = s'.completed ∨ pushed = s'.completed ++ s'.table.pc.pushing)) ∧
    ∀ r ∈ s'.readers, r.i < maxClient ∧
      ∀ fd ∈ r.visited, fd ∈ s'.completed ++ s'.table.pc.pushing) ∧
  (∀ fd, s.table.pc = .testFull fd → s.table.count = maxClient - 1 → s'.table.shm = s.table.shm)

/-- When a push but the first stores its descriptor, the entry behind held 0 from the start. -/
def ClearAhead (shm : List Fd) (s : State) (l : Label) (_ : State) : Prop :=
  ∀ fd, s.table.pc = .storeFd fd → l = .push → s.completed ≠ [] →
    shm[s.completed.length + 1]? = some 0

end Properties

/-- What has been stored is at the head of the table, what lies behind its end is what was there,
and the loops have come through what is stored. -/
structure Exact (shm : List Fd) (s : State) : Prop where
  length : 256 ≤ s.table.shm.length
  entries : s.completed ++ s.table.pc.stored <+: s.table.shm
  count : s.table.count = (s.completed ++ s.table.pc.returning).length
  room : (s.completed ++ s.table.pc.stored).length < maxClient
  storing : ∀ fd, s.table.pc = .storeFd fd → s.completed.length + 1 < maxClient
  ended : s.completed ≠ [] → s.table.shm[(s.completed ++ s.table.pc.stored).length]? = some 0
  ahead : ∀ i, (s.completed ++ s.table.pc.stored).length < i → s.table.shm[i]? = shm[i]?
  nonzero : 0 ∉ s.completed ++ s.table.pc.pushing
  readers : ∀ r ∈ s.readers, s.completed ≠ [] ∧ r.visited <+: s.completed ++ s.table.pc.stored ∧
    r.i = r.visited.length

section Steps

variable {shm : List Fd} {s s' : State} {l : Label} {fd : Fd} {t : Table}

theorem Pc.stored_subset (pc : Pc) : pc.stored ⊆ pc.pushing := by
  cases pc <;> simp [stored, pushing]

theorem Exact.endsTruly (he : Exact shm s) (hne : s.completed ≠ []) :
    (∃ pushed, readString s.table.shm = some pushed ∧ pushed.length < maxClient ∧
      (pushed = s.completed ∨ pushed = s.completed ++ s.table.pc.pushing)) ∧
    ∀ r ∈ s.readers, r.i < maxClient ∧
      ∀ fd ∈ r.visited, fd ∈ s.completed ++ s.table.pc.pushing := by
  have hsubset : s.completed ++ s.table.pc.stored ⊆ s.completed ++ s.table.pc.pushing := by
    intro fd hfd
    rw [List.mem_append] at hfd ⊢
    exact hfd.imp_right fun h => Pc.stored_subset _ h
  refine ⟨⟨s.completed ++ s.table.pc.stored, ?_, he.room, ?_⟩, fun r hr => ?_⟩
  · rw [readString_eq_some, concat_prefix]
    exact ⟨fun hzero => he.nonzero (hsubset hzero), he.entries, he.ended hne⟩
  · cases s.table.pc with
    | idle => exact .inl (List.append_nil _)
    | testFull => exact .inl (List.append_nil _)
    | storeFd => exact .inl (List.append_nil _)
    | incCount => exact .inr rfl
    | storeEnd => exact .inr rfl
  · obtain ⟨-, hvisited, hi⟩ := he.readers r hr
    have hle := hvisited.length_le
    have hroom := he.room
    exact ⟨by omega, fun fd hfd => hsubset (hvisited.subset hfd)⟩

theorem Exact.call (he : Exact shm s) (hpc : s.table.pc = .idle) (hfd : fd ≠ 0) :
    Exact shm { s with table := { s.table with pc := .testFull fd } } where
  length := he.length
  entries := by simpa [hpc, Pc.stored] using he.entries
  count := by simpa [hpc, Pc.returning] using he.count
  room := by simpa [hpc, Pc.stored] using he.room
  storing := nofun
  ended := by simpa [hpc, Pc.stored] using he.ended
  ahead := by simpa [hpc, Pc.stored] using he.ahead
  nonzero := by
    have hold := he.nonzero
    simp only [hpc, Pc.pushing, List.append_nil] at hold
    simp [Pc.pushing, hold, Ne.symm hfd]
  readers := by simpa [hpc, Pc.stored] using he.readers

theorem Exact.move (he : Exact shm s) {pc : Pc} {n : Nat} (hstored : pc.stored = s.table.pc.stored)
    (hcount : n = (s.completed ++ pc.returning).length)
    (hstoring : ∀ fd, pc = .storeFd fd → s.completed.length + 1 < maxClient)
    (hnonzero : 0 ∉ s.completed ++ pc.pushing) :
    Exact shm { s with table := ⟨s.table.shm, n, pc⟩ } where
  length := he.length
  entries := by rw [hstored]; exact he.entries
  count := hcount
  room := by rw [hstored]; exact he.room
  storing := hstoring
  ended := by rw [hstored]; exact he.ended
  ahead := by rw [hstored]; exact he.ahead
  nonzero := hnonzero
  readers := by rw [hstored]; exact he.readers

theorem Exact.storeFd (he : Exact shm s) (hpc : s.table.pc = .storeFd fd)
    (hclear : s.completed ≠ [] → shm[s.completed.length + 1]? = some 0) :
    Exact shm { s with
      table := { s.table with shm := s.table.shm.set s.table.count fd, pc := .incCount fd } } := by
  obtain ⟨hlength, hentries, hcount, -, hstoring, -, hahead, hnonzero, hreaders⟩ := he
  simp only [hpc, Pc.stored, Pc.returning, Pc.pushing, List.append_nil] at *
  have hlt := hstoring fd rfl
  rw [hcount]
  constructor
  case length => simpa using hlength
  case entries =>
    apply prefix_set_concat hentries
    simp only [maxClient] at hlt
    omega
  case count => simp [Pc.returning]
  case room => simpa [Pc.stored] using hlt
  case storing => rintro _ ⟨⟩
  case ended =>
    intro hne
    simp only [Pc.stored, List.length_append, List.length_singleton]
    rw [List.getElem?_set_ne (by omega), hahead _ (by omega)]
    exact hclear hne
  case ahead =>
    intro i hi
    simp only [Pc.stored, List.length_append, List.length_singleton] at hi ⊢
    rw [List.getElem?_set_ne (by omega), hahead i (by omega)]
  case nonzero => exact hnonzero
  case readers =>
    intro r hr
    obtain ⟨hne, hvisited, hi⟩ := hreaders r hr
    exact ⟨hne, hvisited.trans (List.prefix_append ..), hi⟩

theorem Exact.storeEnd (he : Exact shm s) (hpc : s.table.pc = .storeEnd fd) :
    Exact shm { s with
      table := { s.table with shm := s.table.shm.set s.table.count 0, pc := .idle }
      completed := s.completed ++ [fd] } := by
  obtain ⟨hlength, hentries, hcount, hroom, -, -, hahead, hnonzero, hreaders⟩ := he
  simp only [hpc, Pc.stored, Pc.returning, Pc.pushing] at *
  rw [hcount]
  have hlt : (s.completed ++ [fd]).length < s.table.shm.length := by
    simp only [maxClient] at hroom
    omega
  constructor
  case length => simpa using hlength
  case entries => simpa [Pc.stored] using prefix_set hentries (Nat.le_refl _)
  case count => simp [Pc.returning]
  case room => simpa [Pc.stored] using hroom
  case storing => rintro _ ⟨⟩
  case ended =>
    intro _
    simp only [Pc.stored, List.append_nil]
    exact List.getElem?_set_self hlt
  case ahead =>
    intro i hi
    simp only [Pc.stored, List.append_nil] at hi
    rw [List.getElem?_set_ne (by omega), hahead i hi]
  case nonzero => simpa [Pc.pushing] using hnonzero
  case readers =>
    intro r hr
    obtain ⟨-, hvisited, hi⟩ := hreaders r hr
    refine ⟨by simp, ?_, hi⟩
    simpa [Pc.stored] using hvisited

theorem Exact.broadcast (he : Exact shm s) (hne : s.completed ≠ []) :
    Exact shm { s with readers := s.readers ++ [⟨0, [], false⟩] } := by
  refine { he with readers := ?_ }
  intro r hr
  rcases List.mem_append.mp hr with hold | hnew
  · exact he.readers r hold
  · cases List.mem_singleton.mp hnew
    exact ⟨hne, List.nil_prefix, rfl⟩

theorem Exact.read (he : Exact shm s) {p : Nat} {r : Reader} (hr : s.readers[p]? = some r)
    (hfd : s.table.shm[r.i]? = some fd) :
    Exact shm { s with readers := s.readers.set p (readEntry r fd) } := by
  refine { he with readers := ?_ }
  obtain ⟨hne, hvisited, hi⟩ := he.readers r (List.mem_of_getElem? hr)
  intro r' hr'
  rcases List.mem_or_eq_of_mem_set hr' with hold | rfl
  · exact he.readers r' hold
  · rw [readEntry]
    by_cases hzero : fd = 0
    · rw [if_neg (not_not.mpr hzero)]
      exact ⟨hne, hvisited, hi⟩
    · rw [if_pos hzero]
      refine ⟨hne, concat_prefix.mpr ⟨hvisited, ?_⟩, by simp [hi]⟩
      rw [← hi]
      -- entry `i` is not 0, so it lies before the end
      have hlt : r.i < (s.completed ++ s.table.pc.stored).length := by
        refine Nat.lt_of_le_of_ne (hi ▸ hvisited.length_le) fun heq => hzero ?_
        have hended := he.ended hne
        rw [← heq, hfd] at hended
        exact Option.some.inj hended
      have hentry := List.prefix_iff_getElem?.mp he.entries r.i hlt
      rw [hfd] at hentry
      rw [List.getElem?_eq_getElem hlt, hentry]

theorem Exact.push (he : Exact shm s) (h : advance s.table = some t)
    (hclear : ∀ fd, s.table.pc = .storeFd fd → s.completed ≠ [] →
      shm[s.completed.length + 1]? = some 0) :
    Exact shm { s with table := t, completed := s.completed ++ s.table.pc.returning } := by
  rw [advance] at h
  have hroom := he.room
  have hcount := he.count
  have hnonzero := he.nonzero
  split at h
  case h_1 => cases h
  case h_2 fd hpc =>
    simp only [hpc, Pc.stored, Pc.returning, Pc.pushing, List.append_nil] at hroom hcount hnonzero
    simp only [hpc, Pc.returning, List.append_nil]
    split at h
    · next hfull =>
      cases h
      refine he.move (by rw [hpc]; rfl) (by simpa [Pc.returning] using hcount)
        (by rintro _ ⟨⟩) ?_
      intro hzero
      exact hnonzero (List.mem_append_left _ (by simpa [Pc.pushing] using hzero))
    · next hspace =>
      cases h
      refine he.move (by rw [hpc]; rfl) (by simpa [Pc.returning] using hcount) ?_ hnonzero
      intro _ _
      simp only [maxClient] at hroom hspace ⊢
      omega
  case h_3 fd hpc =>
    cases h
    simp only [hpc, Pc.returning, List.append_nil]
    exact he.storeFd hpc (hclear fd hpc)
  case h_4 fd hpc =>
    cases h
    simp only [hpc, Pc.stored, Pc.returning, Pc.pushing, List.append_nil] at hroom hcount hnonzero
    simp only [hpc, Pc.returning, List.append_nil]
    exact he.move (by rw [hpc]; rfl) (by simp [Pc.returning, hcount]) (by rintro _ ⟨⟩) hnonzero
  case h_5 fd hpc =>
    cases h
    rw [hpc]
    exact he.storeEnd hpc

theorem Exact.step (he : Exact shm s) (h : step s l = some s')
    (hclear : ClearAhead shm s l s') : Exact shm s' := by
  cases l with
  | call fd =>
    rw [PushFd.step] at h
    split at h
    · next hidle =>
      cases h
      exact he.call hidle.1 hidle.2
    · cases h
  | push =>
    obtain ⟨t, ht, rfl⟩ := Option.map_eq_some_iff.mp h
    exact he.push ht fun fd hpc => hclear fd hpc rfl
  | broadcast =>
    rw [PushFd.step] at h
    split at h
    · next hne =>
      cases h
      exact he.broadcast hne
    · cases h
  | read p =>
    obtain ⟨r, hr, h⟩ := Option.bind_eq_some_iff.mp h
    split at h
    · cases h
    · obtain ⟨fd, hfd, rfl⟩ := Option.map_eq_some_iff.mp h
      exact he.read hr hfd

theorem step_full (h : step s l = some s') (hpc : s.table.pc = .testFull fd)
    (hfull : s.table.count = maxClient - 1) : s'.table.shm = s.table.shm := by
  cases l with
  | call fd' =>
    rw [PushFd.step, hpc] at h
    simp at h
  | push =>
    obtain ⟨t, ht, rfl⟩ := Option.map_eq_some_iff.mp h
    rw [advance, hpc] at ht
    simp only [hfull, if_pos] at ht
    cases ht
    rfl
  | broadcast =>
    rw [PushFd.step] at h
    split at h
    · cases h; rfl
    · cases h
  | read p =>
    obtain ⟨r, hr, h⟩ := Option.bind_eq_some_iff.mp h
    split at h
    · cases h
    · obtain ⟨fd', hfd, rfl⟩ := Option.map_eq_some_iff.mp h
      rfl

/-- Behind the first store of a later push the list ends at once, or it runs on into what the
segment held. -/
theorem Exact.clear (he : Exact shm s) (h : PushFd.step s .push = some s')
    (hpc : s.table.pc = .storeFd fd) (hne : s.completed ≠ [])
    (hends : EndsTruly s .push s') : shm[s.completed.length + 1]? = some 0 := by
  obtain ⟨t, ht, rfl⟩ := Option.map_eq_some_iff.mp h
  rw [advance, hpc] at ht
  cases ht
  obtain ⟨⟨pushed, hread, -, hpushed⟩, -⟩ := hends.1 fun hnil => hne (List.append_eq_nil_iff.mp hnil).1
  rw [readString_eq_some, concat_prefix] at hread
  obtain ⟨-, -, hend⟩ := hread
  obtain ⟨hlength, -, hcount, -, hstoring, -, hahead, hnonzero, -⟩ := he
  have hlt := hstoring fd hpc
  simp only [hpc, Pc.stored, Pc.returning, Pc.pushing, maxClient, List.append_nil] at *
  rw [hcount] at hend
  rcases hpushed with rfl | rfl
  · rw [List.getElem?_set_self (by omega), Option.some_inj] at hend
    exact absurd (List.mem_append_right _ (List.mem_singleton.mpr hend.symm)) hnonzero
  · rw [List.length_append, List.length_singleton, List.getElem?_set_ne (by omega),
      hahead _ (by omega)] at hend
    exact hend

end Steps

section Runs

variable {shm : List Fd}

theorem start_exact (hlength : 256 ≤ shm.length) : Exact shm (start shm) where
  length := hlength
  entries := List.nil_prefix
  count := rfl
  room := Nat.succ_pos 9
  storing := nofun
  ended hne := absurd rfl hne
  ahead _ _ := rfl
  nonzero := by simp [start, Pc.pushing]
  readers := nofun

/-- For every content of the segment, and every order of calls, stores and reads. -/
theorem list_ends_iff (hlength : 256 ≤ shm.length) (ls : List Label) :
    Run.Always step EndsTruly (start shm) ls ↔ Run.Always step (ClearAhead shm) (start shm) ls := by
  have hkept : ∀ s l s', Exact shm s → step s l = some s' → ClearAhead shm s l s' → Exact shm s' :=
    fun s l s' he h => he.step h
  refine Run.always_congr (fun s l s' he h => ?_) hkept (start_exact hlength)
  constructor
  · rintro hends fd hpc rfl hne
    exact he.clear h hpc hne hends
  · intro hclear
    exact ⟨(he.step h hclear).endsTruly, fun fd hpc hfull => step_full h hpc hfull⟩

def stale : List Fd := 0 :: 0 :: 7 :: List.replicate 253 0

def secondStored : List Label :=
  [.call 4, .push, .push, .push, .push, .call 5, .push, .push]

theorem list_ends_second_stored :
    Run.Always step EndsTruly (start (List.replicate 256 0)) secondStored ↔
      Run.Always step (ClearAhead (List.replicate 256 0)) (start (List.replicate 256 0))
        secondStored :=
  list_ends_iff (Nat.le_of_eq List.length_replicate.symm) secondStored

/-- Before the terminator is stored the old entry 7 belongs to the list. -/
theorem stale_entry_visited : ∃ s, Run.exec step (start stale) secondStored = some s ∧
    s.completed = [4] ∧ s.table.pc = .incCount 5 ∧ readString s.table.shm = some [4, 5, 7] ∧
      ¬ Run.Always step EndsTruly (start stale) secondStored := by
  obtain ⟨m, hm, s, hs, hcond⟩ : ∃ m, Run.exec step (start stale) secondStored.dropLast = some m ∧
      ∃ s, step m .push = some s ∧ decide (s.completed = [4] ∧ s.table.pc = .incCount 5 ∧
        readString s.table.shm = some [4, 5, 7]) = true := by
    refine ⟨⟨⟨stale.set 0 4, 1, .storeFd 5⟩, [4], []⟩, by decide +kernel, ?_⟩
    exact (Option.any_eq_true _ _).mp (by decide +kernel)
  obtain ⟨hcompleted, hpc, hread⟩ := of_decide_eq_true hcond
  refine ⟨s, Run.exec_append.mpr ⟨m, hm, Run.exec_cons.mpr ⟨s, hs, rfl⟩⟩, hcompleted, hpc, hread,
    fun hall => ?_⟩
  have hlast := Run.always_iff.mp hall secondStored.dropLast .push [] m s rfl hm hs
  obtain ⟨⟨pushed, hpushed, -, heq⟩, -⟩ := hlast.1 (by simp [hcompleted])
  cases hread.symm.trans hpushed
  rw [hcompleted, hpc] at heq
  simp [Pc.pushing] at heq

end Runs

end LearnCLinux.Chat.PushFd
