import LearnCLinux.Chat.Server
import Mathlib.Data.List.Nodup

/-! Whom the messages of `practise/chat/server.c` reach when clients leave and more of them come than
the table has room for.  The parent closes no client's socket, so a descriptor means one client for
good. -/

namespace LearnCLinux.Chat.Server

def State.stored (s : State) : Nat :=
  match s.pc with
  | .incCount _ => s.count + 1
  | _ => s.count

/-- A child knows the clients accepted before its `fork`, and in its loop it has written to those of
them that stand in front of entry `i`. -/
structure Aware (fds : List Fd) (t : Child) : Prop where
  descriptors : ∀ fd n, t.descriptors fd = some (.client n) ↔ n < t.forkedAt ∧ fds[n]? = some fd
  written : ∀ i, t.pc = .broadcast i → t.written = List.range (min i t.forkedAt)

structure Placed (count stored : Nat) (fds : List Fd) (t : Child) : Prop extends Aware fds t where
  forkedAt : t.forkedAt ≤ fds.length
  room : min t.forkedAt (maxClient - 1) ≤ count
  loop : ∀ i, t.pc = .broadcast i → i ≤ stored

/-- `fds` are the descriptors of all clients accepted; the first of them fill the table. -/
structure Listed (s : State) (fds : List Fd) : Prop where
  accepted : fds.length = s.accepted
  nodup : fds.Nodup
  ne_zero : 0 ∉ fds
  table : s.shm = fds.take s.stored ++ List.replicate (256 - s.stored) 0
  count : s.count = min (s.accepted - s.pc.pushing.toList.length) (maxClient - 1)
  pushing : ∀ cs, s.pc.pushing = some cs → fds.getLast? = some cs
  room : ∀ cs, s.pc = .storeFd cs ∨ s.pc = .incCount cs → s.count < maxClient - 1
  zero : s.descriptors 0 ≠ none
  ss : s.descriptors s.ss = some .other
  descriptors : ∀ fd n, s.descriptors fd = some (.client n) ↔ fds[n]? = some fd
  children : ∀ (p : Nat) (t : Child), s.children[p]? = some t →
    Placed s.count s.stored fds t

section Table

variable {s s' : State} {fds : List Fd} {t t' : Child} {cs : Fd}

theorem take_replicate_set {n m : Nat} (hcs : fds[n]? = some cs) :
    (fds.take n ++ List.replicate (m + 1) 0).set n cs =
      fds.take (n + 1) ++ List.replicate m 0 := by
  obtain ⟨hlt, -⟩ := List.getElem?_eq_some_iff.mp hcs
  have hlength : (fds.take n).length = n := List.length_take_of_le (Nat.le_of_lt hlt)
  rw [List.set_append_right _ _ (Nat.le_of_eq hlength), hlength, Nat.sub_self,
    List.replicate_succ, List.set_cons_zero, List.take_add_one, hcs, List.append_assoc]
  rfl

theorem set_same {l : List Fd} {n : Nat} {x : Fd} (h : l[n]? = some x) : l.set n x = l := by
  obtain ⟨hlt, rfl⟩ := List.getElem?_eq_some_iff.mp h
  exact List.set_getElem_self hlt

theorem Listed.accepted_pos (hl : Listed s fds) (hpc : s.pc.pushing = some cs) :
    0 < s.accepted := by
  have hlast := hl.pushing cs hpc
  rw [← hl.accepted]
  exact List.length_pos_iff.mpr fun hnil => by rw [hnil] at hlast; cases hlast

theorem Listed.next (hl : Listed s fds) (hpc : s.pc.pushing = some cs)
    (hlt : s.count < maxClient - 1) : fds[s.count]? = some cs ∧ s.accepted = s.count + 1 := by
  have hpos := hl.accepted_pos hpc
  have hcount := hl.count
  rw [hpc] at hcount
  simp only [Option.toList_some, List.length_singleton] at hcount
  have heq : s.accepted = s.count + 1 := by omega
  have hlast := hl.pushing cs hpc
  rw [List.getLast?_eq_getElem?, hl.accepted, heq, Nat.add_sub_cancel] at hlast
  exact ⟨hlast, heq⟩

theorem Listed.stored_le (hl : Listed s fds) : s.stored ≤ fds.length ∧ s.stored ≤ maxClient - 1 := by
  have hcount := hl.count
  have haccepted := hl.accepted
  rw [State.stored]
  split
  · next cs hpc =>
    have hroom := hl.room cs (.inr hpc)
    obtain ⟨-, heq⟩ := hl.next (by rw [hpc]; rfl) hroom
    omega
  · omega

theorem Listed.entry (hl : Listed s fds) {i : Nat} {fd : Fd} (hfd : s.shm[i]? = some fd) :
    (fd ≠ 0 → i < s.stored ∧ fds[i]? = some fd) ∧ (fd = 0 → s.stored ≤ i) := by
  have hlength : (fds.take s.stored).length = s.stored := List.length_take_of_le hl.stored_le.1
  rw [hl.table] at hfd
  by_cases hlt : i < s.stored
  · rw [List.getElem?_append_left (by rwa [hlength]), List.getElem?_take_of_lt hlt] at hfd
    refine ⟨fun _ => ⟨hlt, hfd⟩, ?_⟩
    rintro rfl
    exact absurd (List.mem_of_getElem? hfd) hl.ne_zero
  · rw [List.getElem?_append_right (by rw [hlength]; omega)] at hfd
    have hzero := List.eq_of_mem_replicate (List.mem_of_getElem? hfd)
    exact ⟨fun hne => absurd hzero hne, fun _ => Nat.le_of_not_lt hlt⟩

end Table

section Children

variable {s : State} {fds : List Fd} {t t' : Child} {i : Nat} {fd : Fd}

/-- Of the clients before its `fork` a child reaches through entry `i` the `i`-th, and nobody
else. -/
theorem Aware.reached (ha : Aware fds t) (hnodup : fds.Nodup) (hfd : fds[i]? = some fd) :
    reached t fd = if i < t.forkedAt then [i] else [] := by
  rw [Server.reached]
  split
  · next n hn =>
    obtain ⟨hlt, hentry⟩ := (ha.descriptors fd n).mp hn
    obtain ⟨hi, rfl⟩ := List.getElem?_eq_some_iff.mp hfd
    have heq : n = i := (List.getElem?_inj (List.getElem?_eq_some_iff.mp hentry).1 hnodup).mp
      (hentry.trans hfd.symm)
    rw [← heq, if_pos hlt]
  · next hnone =>
    rw [if_neg fun hlt => hnone i ((ha.descriptors fd i).mpr ⟨hlt, hfd⟩)]

theorem range_min_succ (i n : Nat) : List.range (min (i + 1) n) =
    List.range (min i n) ++ if i < n then [i] else [] := by
  split
  · next hlt =>
    rw [Nat.min_eq_left hlt, Nat.min_eq_left (Nat.le_of_lt hlt), List.range_succ]
  · next hge =>
    rw [Nat.min_eq_right (by omega), Nat.min_eq_right (by omega), List.append_nil]

theorem Placed.step (hl : Listed s fds) (hp : Placed s.count s.stored fds t)
    (h : ChildStep s t t') : Placed s.count s.stored fds t' := by
  obtain ⟨⟨hdescriptors, hwritten⟩, hforked, hroom, hloop⟩ := hp
  cases h with
  | readEnd | read | done => exact ⟨⟨hdescriptors, nofun⟩, hforked, hroom, nofun⟩
  | attach =>
    refine ⟨⟨hdescriptors, fun i hi => ?_⟩, hforked, hroom, fun i hi => ?_⟩
    · cases hi
      rw [Nat.zero_min, List.range_zero]
    · cases hi
      exact Nat.zero_le _
  | @write i fd hpc hfd hne =>
    obtain ⟨hlt, hentry⟩ := (hl.entry hfd).1 hne
    refine ⟨⟨hdescriptors, fun j hj => ?_⟩, hforked, hroom, fun j hj => ?_⟩
    · cases hj
      have haware : Aware fds t := ⟨hdescriptors, hwritten⟩
      rw [range_min_succ, haware.reached hl.nodup hentry, hwritten i hpc]
    · cases hj
      exact hlt

end Children

section Parent

variable {s s' : State} {fds : List Fd}

theorem Placed.concat {t : Child} {count stored : Nat} (hp : Placed count stored fds t) (cs : Fd) :
    Placed count stored (fds ++ [cs]) t where
  descriptors fd n := by
    rw [hp.descriptors]
    refine and_congr_right fun hlt => ?_
    rw [List.getElem?_append_left (Nat.lt_of_lt_of_le hlt hp.forkedAt)]
  written := hp.written
  forkedAt := by
    rw [List.length_append]
    exact Nat.le_add_right_of_le hp.forkedAt
  room := hp.room
  loop := hp.loop

theorem Listed.accept (hl : Listed s fds) {cs : Fd} (hpc : s.pc = .accept)
    (hfree : s.descriptors cs = none) :
    Listed { s with
      descriptors := Function.update s.descriptors cs (some (.client s.accepted))
      accepted := s.accepted + 1
      pc := .testFull cs } (fds ++ [cs]) := by
  have hother : ∀ fd, s.descriptors fd ≠ none → fd ≠ cs := by
    rintro fd hfd rfl
    exact hfd hfree
  have hnew : cs ∉ fds := by
    intro hmem
    obtain ⟨n, hn⟩ := List.getElem?_of_mem hmem
    cases hfree.symm.trans ((hl.descriptors cs n).mpr hn)
  have hstored : s.stored = s.count := by rw [State.stored, hpc]
  constructor
  case accepted => rw [List.length_append, hl.accepted]; rfl
  case nodup =>
    have hnodup := hl.nodup.concat hnew
    rwa [List.concat_eq_append] at hnodup
  case ne_zero =>
    rw [List.mem_append, not_or, List.mem_singleton]
    exact ⟨hl.ne_zero, hother 0 hl.zero⟩
  case table =>
    have htable := hl.table
    rw [hstored] at htable
    rw [List.take_append_of_le_length (hstored ▸ hl.stored_le.1)]
    exact htable
  case count =>
    have hcount := hl.count
    rwa [hpc] at hcount
  case pushing =>
    rintro _ ⟨⟩
    exact List.getLast?_concat
  case room => rintro _ (⟨⟨⟩⟩ | ⟨⟨⟩⟩)
  case zero =>
    dsimp only
    rw [Function.update_of_ne (hother 0 hl.zero)]
    exact hl.zero
  case ss =>
    have hss := hl.ss
    dsimp only
    rwa [Function.update_of_ne (hother s.ss (by rw [hss]; exact Option.some_ne_none _))]
  case descriptors =>
    intro fd n
    dsimp only
    rw [Threads.getElem?_concat_iff, hl.accepted]
    by_cases hfd : fd = cs
    · subst hfd
      have hold : fds[n]? ≠ some fd := fun hn => hnew (List.mem_of_getElem? hn)
      rw [Function.update_self]
      simp [hold, eq_comm]
    · rw [Function.update_of_ne hfd, hl.descriptors]
      simp [Ne.symm hfd]
  case children =>
    intro p t hp
    have hold := hl.children p t hp
    rw [hstored] at hold
    exact hold.concat cs

theorem Listed.move (hl : Listed s fds) {pc : ParentPc}
    (hpushing : pc.pushing = s.pc.pushing) (hstored : { s with pc }.stored = s.stored)
    (hroom : ∀ cs, pc = .storeFd cs ∨ pc = .incCount cs → s.count < maxClient - 1) :
    Listed { s with pc } fds :=
  { hl with
    table := hstored ▸ hl.table
    count := by rw [hpushing]; exact hl.count
    pushing := by rw [hpushing]; exact hl.pushing
    room := hroom
    children := hstored ▸ hl.children }

theorem Listed.full (hl : Listed s fds) {cs : Fd} (hpc : s.pc = .testFull cs)
    (hfull : s.count = maxClient - 1) : Listed { s with pc := .fork cs } fds := by
  have hstored : s.stored = s.count := by rw [State.stored, hpc]
  have hcount := hl.count
  rw [hpc] at hcount
  exact { hl with
    table := hstored ▸ hl.table
    count := by
      simp only [ParentPc.pushing, Option.toList_none, Option.toList_some, List.length_nil,
        List.length_singleton] at hcount ⊢
      omega
    pushing := nofun
    room := by rintro _ (⟨⟨⟩⟩ | ⟨⟨⟩⟩)
    children := hstored ▸ hl.children }

theorem Listed.store (hl : Listed s fds) {cs : Fd} (hpc : s.pc = .testFull cs)
    (hroom : s.count ≠ maxClient - 1) : Listed { s with pc := .storeFd cs } fds := by
  have hcount := hl.count
  refine hl.move (by rw [hpc]; rfl) (by simp [State.stored, hpc]) fun _ _ => ?_
  omega

theorem Listed.storeFd (hl : Listed s fds) {cs : Fd} (hpc : s.pc = .storeFd cs) :
    Listed { s with shm := s.shm.set s.count cs, pc := .incCount cs } fds := by
  have hroom := hl.room cs (.inl hpc)
  obtain ⟨hnext, -⟩ := hl.next (by rw [hpc]; rfl) hroom
  have hstored : s.stored = s.count := by rw [State.stored, hpc]
  have htable := hl.table
  have hcount := hl.count
  have hpushing := hl.pushing
  rw [hpc] at hcount hpushing
  exact { hl with
    table := by
      obtain ⟨m, hm⟩ : ∃ m, 256 - s.count = m + 1 := by
        simp only [maxClient] at hroom
        exact ⟨256 - s.count - 1, by omega⟩
      have hm' : 256 - (s.count + 1) = m := by omega
      rw [htable, hstored, hm, take_replicate_set hnext]
      simp only [State.stored, hm']
    count := hcount
    pushing := hpushing
    room := fun _ _ => hroom
    children := fun p t hp => { hl.children p t hp with
      loop := fun i hi => by
        have hloop := (hl.children p t hp).loop i hi
        rw [hstored] at hloop
        exact Nat.le_succ_of_le hloop } }

theorem Listed.incCount (hl : Listed s fds) {cs : Fd} (hpc : s.pc = .incCount cs) :
    Listed { s with count := s.count + 1, pc := .storeEnd cs } fds := by
  have hroom := hl.room cs (.inr hpc)
  obtain ⟨-, haccepted⟩ := hl.next (by rw [hpc]; rfl) hroom
  have hstored : s.stored = s.count + 1 := by rw [State.stored, hpc]
  exact { hl with
    table := hstored ▸ hl.table
    count := by
      simp only [ParentPc.pushing, Option.toList_none, List.length_nil]
      omega
    pushing := nofun
    room := by rintro _ (⟨⟨⟩⟩ | ⟨⟨⟩⟩)
    children := fun p t hp => { hl.children p t hp with
      room := Nat.le_succ_of_le (hl.children p t hp).room
      loop := hstored ▸ (hl.children p t hp).loop } }

theorem Listed.storeEnd (hl : Listed s fds) {cs : Fd} (hpc : s.pc = .storeEnd cs) :
    Listed { s with shm := s.shm.set s.count 0, pc := .fork cs } fds := by
  have hstored : s.stored = s.count := by rw [State.stored, hpc]
  have hle := hl.stored_le
  have hzero : s.shm[s.count]? = some 0 := by
    have hlength : (fds.take s.count).length = s.count :=
      List.length_take_of_le (hstored ▸ hle.1)
    rw [hl.table, hstored, List.getElem?_append_right (Nat.le_of_eq hlength), hlength, Nat.sub_self,
      List.getElem?_replicate, if_pos]
    simp only [maxClient] at hle
    omega
  rw [set_same hzero]
  exact hl.move (by rw [hpc]; rfl) (by simp [State.stored, hpc]) (by rintro _ (⟨⟨⟩⟩ | ⟨⟨⟩⟩))

theorem Listed.fork (hl : Listed s fds) {cs : Fd} (hpc : s.pc = .fork cs) :
    Listed { s with children := s.children ++ [forkedChild s cs], pc := .accept } fds := by
  have hnotForked : Listed { s with pc := .accept } fds :=
    hl.move (by rw [hpc]; rfl) (by simp [State.stored, hpc]) (by rintro _ (⟨⟨⟩⟩ | ⟨⟨⟩⟩))
  have hcount := hl.count
  rw [hpc] at hcount
  refine { hnotForked with
    children := Threads.forall_concat (P := fun _ => Placed s.count s.count fds)
      hnotForked.children ?_ }
  refine ⟨⟨fun fd n => ?_, nofun⟩, Nat.le_of_eq hl.accepted.symm, Nat.le_of_eq hcount.symm, nofun⟩
  have hbound : fds[n]? = some fd → n < s.accepted := by
    intro hn
    rw [← hl.accepted]
    exact (List.getElem?_eq_some_iff.mp hn).1
  dsimp only [forkedChild]
  by_cases hfd : fd = s.ss
  · subst hfd
    rw [Function.update_self]
    refine iff_of_false nofun fun hknown => ?_
    cases hl.ss.symm.trans ((hl.descriptors s.ss n).mpr hknown.2)
  · rw [Function.update_of_ne hfd, hl.descriptors]
    exact ⟨fun hn => ⟨hbound hn, hn⟩, And.right⟩

theorem Listed.child (hl : Listed s fds) {p : Nat} {t t' : Child} (hp : s.children[p]? = some t)
    (h : ChildStep s t t') : Listed { s with children := s.children.set p t' } fds :=
  { hl with
    children := Threads.forall_set (P := fun _ => Placed s.count s.stored fds) hl.children
      ((hl.children p t hp).step hl h) }

theorem count_of_room {c : ParentChoice} {cs : Fd} (hpc : s.pc = .testFull cs)
    (h : step s (.parent c) = some { s with pc := .storeFd cs }) : s.count ≠ maxClient - 1 := by
  intro hfull
  rw [Server.step, parent, hpc] at h
  simp only [if_pos hfull, Option.some_inj] at h
  cases congrArg State.pc h

theorem Listed.step (hl : Listed s fds) {l : Label} (h : step s l = some s') :
    ∃ fds, Listed s' fds := by
  cases step_cases h with
  | acceptFailed => exact ⟨fds, hl⟩
  | accepted hpc hfree => exact ⟨_, hl.accept hpc hfree⟩
  | full hpc hfull => exact ⟨fds, hl.full hpc hfull⟩
  | room hpc => exact ⟨fds, hl.store hpc (count_of_room hpc h)⟩
  | storeFd hpc => exact ⟨fds, hl.storeFd hpc⟩
  | incCount hpc => exact ⟨fds, hl.incCount hpc⟩
  | storeEnd hpc => exact ⟨fds, hl.storeEnd hpc⟩
  | forked hpc => exact ⟨fds, hl.fork hpc⟩
  | notForked hpc =>
    exact ⟨fds, hl.move (by rw [hpc]; rfl) (by simp [State.stored, hpc])
      (by rintro _ (⟨⟨⟩⟩ | ⟨⟨⟩⟩))⟩
  | child hp hchild => exact ⟨fds, hl.child hp hchild⟩

end Parent

section Runs

variable {c : Start} {ls : List Label} {s : State}

end Runs

end LearnCLinux.Chat.Server
