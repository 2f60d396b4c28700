import Mathlib.Logic.Function.Basic
import LearnCLinux.Library.Run
import LearnCLinux.Library.Threads

/-! `practise/chat/server.c`: one process for each client, and a table of descriptors in shared
memory.  What a descriptor means is a matter of the process: `fork` copies the meaning it has in
the parent at that moment. -/

namespace LearnCLinux.Chat.Server

abbrev Fd := Int

def maxClient : Nat := 10

/-- What a descriptor is open on; clients are numbered in the order they were accepted. -/
inductive File : Type
  | client (n : Nat)
  | other
  deriving DecidableEq

abbrev Descriptors := Fd → Option File

inductive ParentPc : Type
  | accept
  | testFull (cs : Fd)
  | storeFd (cs : Fd)
  | incCount (cs : Fd)
  | storeEnd (cs : Fd)
  | fork (cs : Fd)
  deriving DecidableEq

inductive ChildPc : Type
  | read
  | attach
  | broadcast (i : Nat)
  | exited
  deriving DecidableEq

/-- The last three are history variables: how many clients had been accepted at the `fork` and when
the loop began, and the clients the message last read has been written to. -/
structure Child where
  cFd : Fd
  descriptors : Descriptors
  pc : ChildPc
  forkedAt : Nat
  loopAt : Nat
  written : List Nat

structure State where
  ss : Fd
  shm : List Fd
  descriptors : Descriptors
  /-- The static variable of `push_fd`. -/
  count : Nat
  pc : ParentPc
  accepted : Nat
  children : List Child

/-- The segment may hold anything.  `socket` takes the lowest number there is, so descriptor 0 is
open behind it. -/
structure Start where
  ss : Fd
  shm : List Fd
  descriptors : Descriptors
  length_shm : shm.length = 256
  no_client : ∀ fd n, descriptors fd ≠ some (.client n)
  zero_open : descriptors 0 ≠ none
  ss_open : descriptors ss ≠ none

def start (c : Start) : State where
  ss := c.ss
  shm := c.shm
  descriptors := c.descriptors
  count := 0
  pc := .accept
  accepted := 0
  children := []

/-- What the surroundings decide in a step of the parent: the result of `accept`, and whether
`fork` succeeds. -/
structure ParentChoice where
  accepted : Option Fd
  forked : Bool
  deriving DecidableEq

section Code

variable (s : State)

def accept : Option Fd → Option State
  | none => some s
  | some cs =>
    if s.descriptors cs = none then
      some { s with
        descriptors := Function.update s.descriptors cs (some (.client s.accepted))
        accepted := s.accepted + 1
        pc := .testFull cs }
    else none

def forkedChild (cs : Fd) : Child where
  cFd := cs
  descriptors := Function.update s.descriptors s.ss none
  pc := .read
  forkedAt := s.accepted
  loopAt := 0
  written := []

/-- The loop of `main`, with `push_fd` store by store. -/
def parent (c : ParentChoice) : Option State :=
  match s.pc with
  | .accept => accept s c.accepted
  | .testFull cs =>
    if s.count = maxClient - 1 then some { s with pc := .fork cs }
    else some { s with pc := .storeFd cs }
  | .storeFd cs => some { s with shm := s.shm.set s.count cs, pc := .incCount cs }
  | .incCount cs => some { s with count := s.count + 1, pc := .storeEnd cs }
  | .storeEnd cs => some { s with shm := s.shm.set s.count 0, pc := .fork cs }
  | .fork cs =>
    if c.forked then some { s with children := s.children ++ [forkedChild s cs], pc := .accept }
    else some { s with pc := .accept }

def reached (t : Child) (fd : Fd) : List Nat :=
  match t.descriptors fd with
  | some (.client n) => [n]
  | _ => []

/-- `server_handle`.  `size` is what `read` returns. -/
def serverHandle (t : Child) (size : Int) : Option Child :=
  match t.pc with
  | .read => some (if size ≤ 0 then { t with pc := .exited } else { t with pc := .attach })
  | .attach => some { t with pc := .broadcast 0, loopAt := s.accepted, written := [] }
  | .broadcast i => s.shm[i]?.map fun fd =>
    if fd ≠ 0 then { t with pc := .broadcast (i + 1), written := t.written ++ reached t fd }
    else { t with pc := .read }
  | .exited => none

inductive Label : Type
  | parent (c : ParentChoice)
  | child (p : Nat) (size : Int)
  deriving DecidableEq

def step : Label → Option State
  | .parent c => parent s c
  | .child p size => s.children[p]?.bind fun t => (serverHandle s t size).map fun t' =>
    { s with children := s.children.set p t' }

end Code

section Inversion

inductive ChildStep (s : State) : Child → Child → Prop
  | readEnd {t} : t.pc = .read → ChildStep s t { t with pc := .exited }
  | read {t} : t.pc = .read → ChildStep s t { t with pc := .attach }
  | attach {t} : t.pc = .attach →
      ChildStep s t { t with pc := .broadcast 0, loopAt := s.accepted, written := [] }
  | write {t i fd} : t.pc = .broadcast i → s.shm[i]? = some fd → fd ≠ 0 →
      ChildStep s t { t with pc := .broadcast (i + 1), written := t.written ++ reached t fd }
  | done {t i} : t.pc = .broadcast i → s.shm[i]? = some 0 → ChildStep s t { t with pc := .read }

inductive Step (s : State) : Label → State → Prop
  | acceptFailed {c} : s.pc = .accept → Step s (.parent c) s
  | accepted {c cs} : s.pc = .accept → s.descriptors cs = none →
      Step s (.parent c) { s with
        descriptors := Function.update s.descriptors cs (some (.client s.accepted))
        accepted := s.accepted + 1
        pc := .testFull cs }
  | full {c cs} : s.pc = .testFull cs → s.count = maxClient - 1 →
      Step s (.parent c) { s with pc := .fork cs }
  | room {c cs} : s.pc = .testFull cs → Step s (.parent c) { s with pc := .storeFd cs }
  | storeFd {c cs} : s.pc = .storeFd cs →
      Step s (.parent c) { s with shm := s.shm.set s.count cs, pc := .incCount cs }
  | incCount {c cs} : s.pc = .incCount cs →
      Step s (.parent c) { s with count := s.count + 1, pc := .storeEnd cs }
  | storeEnd {c cs} : s.pc = .storeEnd cs →
      Step s (.parent c) { s with shm := s.shm.set s.count 0, pc := .fork cs }
  | forked {c cs} : s.pc = .fork cs →
      Step s (.parent c) { s with children := s.children ++ [forkedChild s cs], pc := .accept }
  | notForked {c cs} : s.pc = .fork cs → Step s (.parent c) { s with pc := .accept }
  | child {p size t t'} : s.children[p]? = some t → ChildStep s t t' →
      Step s (.child p size) { s with children := s.children.set p t' }

theorem serverHandle_cases {s : State} {t t' : Child} {size : Int}
    (h : serverHandle s t size = some t') : ChildStep s t t' := by
  rw [serverHandle] at h
  split at h
  case h_1 hpc =>
    cases h
    split
    · exact .readEnd hpc
    · exact .read hpc
  case h_2 hpc => cases h; exact .attach hpc
  case h_3 hpc =>
    obtain ⟨fd, hfd, rfl⟩ := Option.map_eq_some_iff.mp h
    split
    · next hne => exact .write hpc hfd hne
    · next hzero =>
      rw [not_not] at hzero
      exact .done hpc (hzero ▸ hfd)
  case h_4 => cases h

theorem parent_cases {s s' : State} {c : ParentChoice} (h : parent s c = some s') :
    Step s (.parent c) s' := by
  rw [parent] at h
  split at h
  case h_1 hpc =>
    unfold accept at h
    split at h
    · cases h; exact .acceptFailed hpc
    · split at h <;> cases h
      exact .accepted hpc ‹_›
  case h_2 hpc =>
    split at h <;> cases h
    case isTrue hfull => exact .full hpc hfull
    case isFalse => exact .room hpc
  case h_3 hpc => cases h; exact .storeFd hpc
  case h_4 hpc => cases h; exact .incCount hpc
  case h_5 hpc => cases h; exact .storeEnd hpc
  case h_6 hpc =>
    split at h <;> cases h
    case isTrue => exact .forked hpc
    case isFalse => exact .notForked hpc

theorem step_cases {s s' : State} {l : Label} (h : step s l = some s') : Step s l s' := by
  cases l with
  | parent c => exact parent_cases h
  | child p size =>
    obtain ⟨t, hp, h⟩ := Option.bind_eq_some_iff.mp h
    obtain ⟨t', ht', rfl⟩ := Option.map_eq_some_iff.mp h
    exact .child hp (serverHandle_cases ht')

end Inversion

def ParentPc.pushing : ParentPc → Option Fd
  | .testFull cs | .storeFd cs | .incCount cs => some cs
  | _ => none

/-- What a child knows: the clients accepted before its `fork`, by the descriptors they had then, and
in its loop it has written to those in the entries behind it. -/
structure Knows (fds : List Fd) (t : Child) : Prop where
  descriptors : ∀ (k : Nat) fd, fds[k]? = some fd → k < t.forkedAt →
    t.descriptors fd = some (.client k)
  clients : ∀ fd n, t.descriptors fd = some (.client n) → n < t.forkedAt
  visited : ∀ i, t.pc = .broadcast i → ∀ k, k < i → k < t.forkedAt → k ∈ t.written
  written : ∀ n ∈ t.written, n < t.forkedAt

/-- `fds` are the descriptors of the clients in the parent, in the order they were accepted. -/
structure Shared (s : State) (fds : List Fd) : Prop where
  accepted : fds.length = s.accepted
  count : s.count + s.pc.pushing.toList.length = s.accepted
  length_shm : s.shm.length = 256
  entries : ∀ (k : Nat) fd, k < s.count → fds[k]? = some fd → s.shm[k]? = some fd
  pushing : ∀ cs, s.pc.pushing = some cs → fds[s.count]? = some cs
  stored : ∀ cs, s.pc = .incCount cs → s.shm[s.count]? = some cs
  zero : s.descriptors 0 ≠ none
  ss : s.descriptors s.ss = some .other
  ne_zero : ∀ fd ∈ fds, fd ≠ 0
  descriptors : ∀ (k : Nat) fd, fds[k]? = some fd → s.descriptors fd = some (.client k)
  clients : ∀ fd n, s.descriptors fd = some (.client n) → n < s.accepted
  children : ∀ (p : Nat) (t : Child), s.children[p]? = some t → t.forkedAt ≤ s.count ∧ Knows fds t

section Children

variable {s : State} {fds : List Fd} {t t' : Child}

theorem Knows.concat (hk : Knows fds t) (hle : t.forkedAt ≤ fds.length) (cs : Fd) :
    Knows (fds ++ [cs]) t where
  descriptors k fd hfd hlt := by
    rw [List.getElem?_append_left (Nat.lt_of_lt_of_le hlt hle)] at hfd
    exact hk.descriptors k fd hfd hlt
  clients := hk.clients
  visited := hk.visited
  written := hk.written

theorem mem_reached {fd : Fd} {n : Nat} : n ∈ reached t fd ↔ t.descriptors fd = some (.client n) := by
  rw [reached]
  split
  · next m hm =>
    rw [hm, List.mem_singleton]
    constructor
    · rintro rfl
      rfl
    · intro h
      cases h
      rfl
  · next hnone =>
    constructor
    · nofun
    · exact fun h => absurd h (hnone n)

theorem Shared.entry (hs : Shared s fds) (hle : t.forkedAt ≤ s.count) {i : Nat} (hi : i < t.forkedAt) :
    ∃ fd, fds[i]? = some fd ∧ s.shm[i]? = some fd := by
  have hlt : i < fds.length := by
    have hcount := hs.count
    have haccepted := hs.accepted
    omega
  refine ⟨fds[i], List.getElem?_eq_getElem hlt, ?_⟩
  exact hs.entries i _ (Nat.lt_of_lt_of_le hi hle) (List.getElem?_eq_getElem hlt)

theorem Knows.step (hs : Shared s fds) (hle : t.forkedAt ≤ s.count) (hk : Knows fds t)
    (h : ChildStep s t t') : t'.forkedAt ≤ s.count ∧ Knows fds t' := by
  cases h with
  | readEnd => exact ⟨hle, hk.descriptors, hk.clients, by rintro _ ⟨⟩, hk.written⟩
  | read => exact ⟨hle, hk.descriptors, hk.clients, by rintro _ ⟨⟩, hk.written⟩
  | attach =>
    refine ⟨hle, hk.descriptors, hk.clients, ?_, nofun⟩
    intro i hi k hlt
    cases hi
    cases hlt
  | @write i fd hpc hfd hne =>
    refine ⟨hle, hk.descriptors, hk.clients, ?_, ?_⟩
    · intro j hj k hlt hknown
      cases hj
      rw [List.mem_append]
      rcases Nat.lt_succ_iff_lt_or_eq.mp hlt with hold | rfl
      · exact .inl (hk.visited i hpc k hold hknown)
      · obtain ⟨fd', hfd', hshm⟩ := hs.entry hle hknown
        cases hfd.symm.trans hshm
        exact .inr (mem_reached.mpr (hk.descriptors k fd hfd' hknown))
    · intro n hn
      rcases List.mem_append.mp hn with hold | hnew
      · exact hk.written n hold
      · exact hk.clients fd n (mem_reached.mp hnew)
  | done => exact ⟨hle, hk.descriptors, hk.clients, by rintro _ ⟨⟩, hk.written⟩

end Children

section Parent

variable {s s' : State} {fds : List Fd}

theorem Shared.accept (hs : Shared s fds) {cs : Fd} (hpc : s.pc = .accept)
    (hfree : s.descriptors cs = none) :
    Shared { s with
      descriptors := Function.update s.descriptors cs (some (.client s.accepted))
      accepted := s.accepted + 1
      pc := .testFull cs } (fds ++ [cs]) := by
  have hcount : s.count = fds.length := by
    rw [hs.accepted, ← hs.count, hpc]
    rfl
  have hother : ∀ fd, s.descriptors fd ≠ none → fd ≠ cs := by
    rintro fd hfd rfl
    exact hfd hfree
  constructor
  case accepted => rw [List.length_append, hs.accepted]; rfl
  case count => rw [hcount, hs.accepted]; rfl
  case length_shm => exact hs.length_shm
  case entries =>
    intro k fd hlt hfd
    rw [List.getElem?_append_left (hcount ▸ hlt)] at hfd
    exact hs.entries k fd hlt hfd
  case pushing =>
    intro cs' hcs
    cases hcs
    rw [hcount]
    exact List.getElem?_concat_length
  case stored => rintro _ ⟨⟩
  case zero =>
    dsimp only
    rw [Function.update_of_ne (hother 0 hs.zero)]
    exact hs.zero
  case ss =>
    have hss := hs.ss
    dsimp only
    rwa [Function.update_of_ne (hother s.ss (by rw [hss]; exact Option.some_ne_none _))]
  case ne_zero =>
    intro fd hfd
    rcases List.mem_append.mp hfd with hold | hnew
    · exact hs.ne_zero fd hold
    · rw [List.mem_singleton.mp hnew]
      exact (hother 0 hs.zero).symm
  case descriptors =>
    dsimp only
    apply Threads.forall_concat
    · intro k fd hfd
      have hold := hs.descriptors k fd hfd
      rwa [Function.update_of_ne (hother fd (by rw [hold]; exact Option.some_ne_none _))]
    · rw [Function.update_self, hs.accepted]
  case clients =>
    intro fd n hn
    dsimp only at hn
    by_cases hfd : fd = cs
    · subst hfd
      rw [Function.update_self] at hn
      cases hn
      exact Nat.lt_succ_self _
    · rw [Function.update_of_ne hfd] at hn
      exact Nat.lt_succ_of_lt (hs.clients fd n hn)
  case children =>
    intro p t hp
    obtain ⟨hle, hk⟩ := hs.children p t hp
    exact ⟨hle, hk.concat (hcount ▸ hle) cs⟩

theorem Shared.fork (hs : Shared s fds) {cs : Fd} (hpc : s.pc = .fork cs) :
    Shared { s with children := s.children ++ [forkedChild s cs], pc := .accept } fds := by
  have hcount : s.count = s.accepted := by
    rw [← hs.count, hpc]
    rfl
  have hknows : Knows fds (forkedChild s cs) := by
    constructor
    case descriptors =>
      intro k fd hfd _
      have hclient := hs.descriptors k fd hfd
      have hne : fd ≠ s.ss := by
        rintro rfl
        cases hclient.symm.trans hs.ss
      dsimp only [forkedChild]
      rw [Function.update_of_ne hne, hclient]
    case clients =>
      intro fd n hn
      dsimp only [forkedChild] at hn
      by_cases hfd : fd = s.ss
      · rw [hfd, Function.update_self] at hn
        cases hn
      · rw [Function.update_of_ne hfd] at hn
        exact hs.clients fd n hn
    case visited => rintro _ ⟨⟩
    case written => nofun
  refine ⟨hs.accepted, hcount, hs.length_shm, hs.entries, by rintro _ ⟨⟩, by rintro _ ⟨⟩, hs.zero,
    hs.ss, hs.ne_zero, hs.descriptors, hs.clients, ?_⟩
  exact Threads.forall_concat (P := fun _ t => t.forkedAt ≤ s.count ∧ Knows fds t) hs.children
    ⟨Nat.le_of_eq hcount.symm, hknows⟩

theorem Shared.count_eq (hs : Shared s fds) {n : Nat} (hn : s.pc.pushing.toList.length = n) :
    s.count + n = s.accepted :=
  hn ▸ hs.count

theorem Shared.room (hs : Shared s fds) {cs : Fd} (hpc : s.pc = .testFull cs) :
    Shared { s with pc := .storeFd cs } fds := by
  have hcount := hs.count
  have hpushing := hs.pushing
  rw [hpc] at hcount hpushing
  exact { hs with count := hcount, pushing := hpushing, stored := by rintro _ ⟨⟩ }

theorem Shared.storeFd (hs : Shared s fds) {cs : Fd} (hpc : s.pc = .storeFd cs)
    (hlt : s.count < s.shm.length) :
    Shared { s with shm := s.shm.set s.count cs, pc := .incCount cs } fds := by
  have hcount := hs.count
  have hpushing := hs.pushing
  rw [hpc] at hcount hpushing
  refine { hs with
    count := hcount
    length_shm := (List.length_set ..).trans hs.length_shm
    entries := ?_
    pushing := hpushing
    stored := ?_ }
  · intro k fd hk hfd
    rw [List.getElem?_set_ne (Nat.ne_of_gt hk)]
    exact hs.entries k fd hk hfd
  · intro cs' hcs
    cases hcs
    exact List.getElem?_set_self hlt

theorem Shared.incCount (hs : Shared s fds) {cs : Fd} (hpc : s.pc = .incCount cs) :
    Shared { s with count := s.count + 1, pc := .storeEnd cs } fds := by
  refine { hs with
    count := hs.count_eq (n := 1) (by rw [hpc]; rfl)
    entries := ?_
    pushing := by rintro _ ⟨⟩
    stored := by rintro _ ⟨⟩
    children := ?_ }
  · intro k fd hk hfd
    rcases Nat.lt_succ_iff_lt_or_eq.mp hk with hold | rfl
    · exact hs.entries k fd hold hfd
    · cases hfd.symm.trans (hs.pushing cs (by rw [hpc]; rfl))
      exact hs.stored _ hpc
  · intro p t hp
    obtain ⟨hle, hk⟩ := hs.children p t hp
    exact ⟨Nat.le_succ_of_le hle, hk⟩

theorem Shared.storeEnd (hs : Shared s fds) {cs : Fd} (hpc : s.pc = .storeEnd cs) :
    Shared { s with shm := s.shm.set s.count 0, pc := .fork cs } fds := by
  refine { hs with
    count := hs.count_eq (n := 0) (by rw [hpc]; rfl)
    length_shm := (List.length_set ..).trans hs.length_shm
    entries := ?_
    pushing := by rintro _ ⟨⟩
    stored := by rintro _ ⟨⟩ }
  intro k fd hk hfd
  rw [List.getElem?_set_ne (Nat.ne_of_gt hk)]
  exact hs.entries k fd hk hfd

theorem Shared.notForked (hs : Shared s fds) {cs : Fd} (hpc : s.pc = .fork cs) :
    Shared { s with pc := .accept } fds :=
  { hs with
    count := hs.count_eq (n := 0) (by rw [hpc]; rfl)
    pushing := by rintro _ ⟨⟩
    stored := by rintro _ ⟨⟩ }

theorem Shared.child (hs : Shared s fds) {p : Nat} {t t' : Child} (hp : s.children[p]? = some t)
    (h : ChildStep s t t') : Shared { s with children := s.children.set p t' } fds := by
  obtain ⟨hle, hk⟩ := hs.children p t hp
  exact { hs with
    children := Threads.forall_set (P := fun _ t => t.forkedAt ≤ s.count ∧ Knows fds t) hs.children
      (hk.step hs hle h) }

theorem Shared.step (hs : Shared s fds) {l : Label} (h : Step s l s')
    (hfew : s'.accepted < maxClient) : ∃ fds, Shared s' fds := by
  cases h with
  | acceptFailed => exact ⟨fds, hs⟩
  | accepted hpc hfree => exact ⟨_, hs.accept hpc hfree⟩
  | full hpc hfull =>
    -- A full table means that more clients have been accepted than it has room for.
    have hcount := hs.count_eq (n := 1) (by rw [hpc]; rfl)
    simp only [maxClient] at hfull hfew
    omega
  | room hpc => exact ⟨fds, hs.room hpc⟩
  | storeFd hpc =>
    have hcount := hs.count_eq (n := 1) (by rw [hpc]; rfl)
    simp only [maxClient] at hfew
    exact ⟨fds, hs.storeFd hpc (by rw [hs.length_shm]; omega)⟩
  | incCount hpc => exact ⟨fds, hs.incCount hpc⟩
  | storeEnd hpc => exact ⟨fds, hs.storeEnd hpc⟩
  | forked hpc => exact ⟨fds, hs.fork hpc⟩
  | notForked hpc => exact ⟨fds, hs.notForked hpc⟩
  | child hp h => exact ⟨fds, hs.child hp h⟩

theorem Step.accepted_le {l : Label} (h : Step s l s') : s.accepted ≤ s'.accepted := by
  cases h <;> first | exact Nat.le_refl _ | exact Nat.le_succ _

theorem start_shared (c : Start) : Shared (start c) [] where
  accepted := rfl
  count := rfl
  length_shm := c.length_shm
  entries := by rintro k fd ⟨⟩
  pushing := by rintro _ ⟨⟩
  stored := by rintro _ ⟨⟩
  zero := c.zero_open
  ss := by
    cases hss : c.descriptors c.ss with
    | none => exact absurd hss c.ss_open
    | some file =>
      cases file with
      | client n => exact absurd hss (c.no_client c.ss n)
      | other => exact hss
  ne_zero := nofun
  descriptors := by rintro k fd ⟨⟩
  clients fd n hn := absurd hn (c.no_client fd n)
  children := by rintro p t ⟨⟩

end Parent

section Runs

variable {c : Start} {ls : List Label} {s : State}

theorem exec_shared (hrun : Run.exec step (start c) ls = some s) (hfew : s.accepted < maxClient) :
    ∃ fds, Shared s fds := by
  refine Run.invariant (I := fun m => m.accepted < maxClient → ∃ fds, Shared m fds) ?_
    (fun _ => ⟨[], start_shared c⟩) hrun hfew
  intro m l m' hm hs hfew'
  have hstep := step_cases hs
  obtain ⟨fds, hshared⟩ := hm (Nat.lt_of_le_of_lt hstep.accepted_le hfew')
  exact hshared.step hstep hfew'

/-- At the end of the loop of a child: every client accepted before the loop has got the message
exactly when none of them was accepted after the `fork`. -/
theorem reaches_everyone_iff (hrun : Run.exec step (start c) ls = some s)
    (hfew : s.accepted < maxClient) {p i : Nat} {t : Child} (hp : s.children[p]? = some t)
    (hpc : t.pc = .broadcast i) (hend : s.shm[i]? = some 0) :
    (∀ n < t.loopAt, n ∈ t.written) ↔ t.loopAt ≤ t.forkedAt := by
  obtain ⟨fds, hs⟩ := exec_shared hrun hfew
  obtain ⟨hle, hk⟩ := hs.children p t hp
  constructor
  · intro hall
    by_contra hlate
    have hwritten := hall t.forkedAt (Nat.not_le.mp hlate)
    exact Nat.lt_irrefl _ (hk.written t.forkedAt hwritten)
  · intro hearly n hn
    have hknown : n < t.forkedAt := Nat.lt_of_lt_of_le hn hearly
    have hpassed : t.forkedAt ≤ i := by
      by_contra hnot
      obtain ⟨fd, hfd, hshm⟩ := hs.entry hle (Nat.not_le.mp hnot)
      cases hend.symm.trans hshm
      exact hs.ne_zero 0 (List.mem_of_getElem? hfd) rfl
    exact hk.visited i hpc n (Nat.lt_of_lt_of_le hknown hpassed) hknown

end Runs

def server : Start where
  ss := 3
  shm := List.replicate 256 0
  descriptors := fun fd => if 0 ≤ fd ∧ fd ≤ 3 then some .other else none
  length_shm := List.length_replicate
  no_client fd n := by split <;> simp
  zero_open := by simp
  ss_open := by simp

def newClient (cs : Fd) : List Label := List.replicate 6 (.parent ⟨some cs, true⟩)

def message (p n : Nat) : List Label := List.replicate (2 + n) (.child p 5)

/-- Client 1 was forked last, so its messages reach both clients. -/
theorem reaches_everyone_second_child :
    ∃ s t, Run.exec step (start server) (newClient 4 ++ newClient 5 ++ message 1 2) = some s ∧
      s.children[1]? = some t ∧ ∀ n < t.loopAt, n ∈ t.written := by
  obtain ⟨s, hs, hcond⟩ : ∃ s, Run.exec step (start server)
      (newClient 4 ++ newClient 5 ++ message 1 2) = some s ∧
        decide (s.accepted < maxClient ∧ s.shm[2]? = some 0 ∧ ∃ t : Child, t ∈ s.children[1]? ∧
          t.pc = .broadcast 2 ∧ t.loopAt ≤ t.forkedAt) = true :=
    (Option.any_eq_true _ _).mp (by decide +kernel)
  obtain ⟨hfew, hend, t, hp, hpc, hle⟩ := of_decide_eq_true hcond
  exact ⟨s, t, hs, hp, (reaches_everyone_iff hs hfew hp hpc hend).mpr hle⟩

/-- Client 1 is accepted after child 0 was forked: in child 0 its descriptor 5 is not open. -/
theorem later_client_not_reached :
    ∃ s t, Run.exec step (start server) (newClient 4 ++ newClient 5 ++ message 0 2) = some s ∧
      s.accepted = 2 ∧ s.children[0]? = some t ∧ t.pc = .broadcast 2 ∧ s.shm[2]? = some 0 ∧
      s.shm[1]? = some 5 ∧ t.descriptors 5 = none ∧ t.loopAt = 2 ∧ t.written = [0] := by
  obtain ⟨s, hs, hcond⟩ : ∃ s, Run.exec step (start server)
      (newClient 4 ++ newClient 5 ++ message 0 2) = some s ∧
        decide (s.accepted = 2 ∧ ∃ t : Child, t ∈ s.children[0]? ∧ t.pc = .broadcast 2 ∧
          s.shm[2]? = some 0 ∧ s.shm[1]? = some 5 ∧ t.descriptors 5 = none ∧ t.loopAt = 2 ∧
          t.written = [0]) = true :=
    (Option.any_eq_true _ _).mp (by decide +kernel)
  obtain ⟨haccepted, t, hp, hrest⟩ := of_decide_eq_true hcond
  exact ⟨s, t, hs, haccepted, hp, hrest⟩

end LearnCLinux.Chat.Server
