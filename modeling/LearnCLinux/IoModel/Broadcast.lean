import LearnCLinux.IoModel.Select

/-! Whom `server_handle` of `select.c` sends the messages to, round after round.  A `send` to a client
that has hung up may raise SIGPIPE, and then it is the last one: what has been sent is a prefix of
what would have been. -/

namespace LearnCLinux.IoModel.Select

/-- A message: the client that it is from, and those that it is sent to. -/
structure Delivery where
  source : Fd
  targets : List Fd
  deriving DecidableEq

section Code

/-- What `server_handle` sends for the client of entry `i`, if that is ready. -/
def sends (r : Round) (s : State) (i : Nat) : List Delivery :=
  match s.fds[i]? with
  | none => []
  | some fd => if (fd ∈ r.rd ∧ fd ∈ r.wd) ∧ 0 < r.size i then [⟨fd, watched s⟩] else []

def sendLoop (r : Round) : List Nat → State → List Delivery
  | [], _ => []
  | i :: is, s => sends r s i ++ sendLoop r is (handleEntry r s i)

def observe (s : State) (r : Round) (_ : State) : List Delivery :=
  if r.res ≤ 0 then [] else sendLoop r (List.range maxClient) (recount s)

/-- The calls of `send`: whose message goes to whom. -/
def calls (ds : List Delivery) : List (Fd × Fd) :=
  ds.flatMap fun d => d.targets.map fun fd => (d.source, fd)

def inbox (c : Fd) (cs : List (Fd × Fd)) : List Fd :=
  cs.filterMap fun call => if call.2 = c then some call.1 else none

end Code

/-- `recv` does not report the end of client `c`. -/
def Stays (c : Fd) (s : State) (r : Round) (_ : State) : Prop :=
  ∀ i, s.fds[i]? = some c → leaves s r i = false

section Loop

variable {s s' : State} {r : Round} {c : Fd} {is : List Nat} {ds : List Delivery}

/-- A client that stays has its entry from one entry of the loop to the next. -/
structure Served (r : Round) (c : Fd) (s : State) : Prop where
  intact : Intact s
  connected : c ∈ s.connected
  stays : ∀ i, s.fds[i]? = some c → leaves s r i = false

theorem Served.count_watched (hs : Served r c s) : (watched s).count c = 1 := by
  have hne : c ≠ 0 := hs.intact.seats.ne_free c hs.connected
  rw [watched, List.count_filter (by simpa using hne)]
  exact hs.intact.table.count_eq_one hs.intact.seats hs.connected

theorem Served.handleEntry (hs : Served r c s) (hne : ∀ fd ∈ r.wd, fd ≠ 0) (i : Nat) :
    Served r c (handleEntry r s i) := by
  have hintact := hs.intact.handleEntry hne i
  have hc : c ≠ 0 := hs.intact.seats.ne_free c hs.connected
  rw [handleEntry_eq] at hintact ⊢
  cases hleaves : leaves s r i with
  | false =>
    rw [if_neg Bool.false_ne_true]
    exact hs
  | true =>
    rw [hleaves, if_pos rfl] at hintact
    rw [if_pos rfl]
    have hother : s.fds[i]? ≠ some c := by
      intro hslot
      cases hleaves.symm.trans (hs.stays i hslot)
    refine ⟨hintact, List.mem_filter.mpr ⟨hs.connected, by simpa using hother⟩, fun j hj => ?_⟩
    have hij : i ≠ j := by
      rintro rfl
      obtain ⟨fd, hfd, -⟩ := leaves_iff.mp hleaves
      obtain ⟨hlt, -⟩ := List.getElem?_eq_some_iff.mp hfd
      change (s.fds.set i 0)[i]? = some c at hj
      rw [List.getElem?_set_self hlt] at hj
      exact hc (Option.some.inj hj).symm
    have hold : (s.fds.set i 0)[j]? = s.fds[j]? := List.getElem?_set_ne hij
    rw [leaves_congr hold]
    exact hs.stays j (hold ▸ hj)

theorem Served.sends (hs : Served r c s) (i : Nat) {d : Delivery} (hd : d ∈ sends r s i) :
    d.targets.count c = 1 := by
  rw [Select.sends] at hd
  split at hd
  · cases hd
  · split at hd
    · cases List.mem_singleton.mp hd
      exact hs.count_watched
    · cases hd

theorem Served.sendLoop (hs : Served r c s) (hne : ∀ fd ∈ r.wd, fd ≠ 0) {d : Delivery}
    (hd : d ∈ sendLoop r is s) : d.targets.count c = 1 := by
  induction is generalizing s with
  | nil => cases hd
  | cons i is ih =>
    rcases List.mem_append.mp hd with hd | hd
    · exact hs.sends i hd
    · exact ih (hs.handleEntry hne i) hd

theorem Served.foldl (hs : Served r c s) (hne : ∀ fd ∈ r.wd, fd ≠ 0) (is : List Nat) :
    Served r c (is.foldl (Select.handleEntry r) s) := by
  induction is generalizing s with
  | nil => exact hs
  | cons i is ih => exact ih (hs.handleEntry hne i)

theorem accept_connected {cs : Int} (h : accept s cs = some s') (hc : c ∈ s.connected) :
    c ∈ s'.connected := by
  rcases accept_cases h with rfl | ⟨-, -, -, rfl⟩
  · exact hc
  · exact List.mem_append_left _ hc

structure Member (c : Fd) (s : State) : Prop where
  intact : Intact s
  connected : c ∈ s.connected

theorem Member.served (hm : Member c s) (hstays : Stays c s r s') : Served r c (recount s) :=
  ⟨⟨hm.intact.length, hm.intact.table, hm.intact.seats⟩, hm.connected, hstays⟩

/-- A round keeps a client that stays, and sends it each message once. -/
theorem Member.step (hm : Member c s) (h : step s r = some s') (hfree : SlotFree s r s')
    (hstays : Stays c s r s') :
    Member c s' ∧ ∀ d ∈ observe s r s', d.targets.count c = 1 := by
  have hserved := hm.served hstays
  obtain ⟨hselects, hs'⟩ := step_cases h
  have hne : ∀ fd ∈ r.wd, fd ≠ 0 := fun fd => ne_zero_of_selects hselects
  have hintact := hm.intact.step h ((keepsEntries_iff hselects hm.intact.length).mpr hfree)
  have hready : c ∈ (handleReady r (recount s)).connected := (hserved.foldl hne _).connected
  constructor
  · refine ⟨hintact, ?_⟩
    rcases hs' with hs' | hs' | ⟨-, -, haccept⟩
    · rw [hs']
      exact hm.connected
    · rw [hs']
      exact hready
    · exact accept_connected haccept hready
  · intro d hd
    rw [observe] at hd
    split at hd
    · cases hd
    · exact hserved.sendLoop hne hd

theorem calls_cons (d : Delivery) (ds : List Delivery) :
    calls (d :: ds) = d.targets.map (fun fd => (d.source, fd)) ++ calls ds := List.flatMap_cons

theorem inbox_delivery (c : Fd) (d : Delivery) :
    inbox c (d.targets.map fun fd => (d.source, fd)) =
      List.replicate (d.targets.count c) d.source := by
  obtain ⟨source, targets⟩ := d
  induction targets with
  | nil => rfl
  | cons fd targets ih =>
    simp only [inbox, List.map_cons, List.filterMap_cons] at ih ⊢
    by_cases hfd : fd = c
    · simp [hfd, ih, List.replicate_succ]
    · simp [hfd, ih]

theorem inbox_calls_cons {d : Delivery} (hd : d.targets.count c = 1) (cs : List (Fd × Fd)) :
    inbox c (d.targets.map (fun fd => (d.source, fd)) ++ cs) = d.source :: inbox c cs := by
  have hone := inbox_delivery c d
  rw [hd] at hone
  rw [inbox, List.filterMap_append]
  exact congrArg (· ++ inbox c cs) hone

theorem inbox_of_count (h : ∀ d ∈ ds, d.targets.count c = 1) :
    inbox c (calls ds) = ds.map Delivery.source := by
  induction ds with
  | nil => rfl
  | cons d ds ih =>
    rw [calls_cons, inbox_calls_cons (h d List.mem_cons_self),
      ih fun d hd => h d (List.mem_cons_of_mem _ hd), List.map_cons]

/-- All messages before the last that has been begun have arrived. -/
theorem inbox_of_prefix (h : ∀ d ∈ ds, d.targets.count c = 1) {cs : List (Fd × Fd)}
    (hcs : cs <+: calls ds) : ∃ k, inbox c cs = (ds.map Delivery.source).take k ∧
      cs <+: calls (ds.take (k + 1)) := by
  induction ds generalizing cs with
  | nil =>
    cases List.prefix_nil.mp hcs
    exact ⟨0, rfl, List.nil_prefix⟩
  | cons d ds ih =>
    have hd := h d List.mem_cons_self
    rw [calls_cons] at hcs
    rcases List.prefix_or_prefix_of_prefix hcs (List.prefix_append _ _) with hpart | ⟨rest, rfl⟩
    · have hinbox : inbox c cs <+: [d.source] := by
        have hone := inbox_calls_cons hd []
        rw [List.append_nil] at hone
        exact hone ▸ hpart.filterMap _
      rcases List.prefix_cons_iff.mp hinbox with hnone | ⟨tail, hone, htail⟩
      · refine ⟨0, hnone, ?_⟩
        rw [List.take_succ_cons, calls_cons]
        exact hpart.trans (List.prefix_append _ _)
      · cases List.prefix_nil.mp htail
        refine ⟨1, hone, ?_⟩
        rw [List.take_succ_cons, calls_cons]
        exact hpart.trans (List.prefix_append _ _)
    · obtain ⟨k, hinbox, hbegun⟩ := ih (fun d hd => h d (List.mem_cons_of_mem _ hd))
        ((List.prefix_append_right_inj _).mp hcs)
      refine ⟨k + 1, ?_, ?_⟩
      · rw [inbox_calls_cons hd, hinbox, List.map_cons, List.take_succ_cons]
      · rw [List.take_succ_cons, calls_cons]
        exact (List.prefix_append_right_inj _).mpr hbegun

end Loop

section Rounds

variable {ss c : Fd} {m s : State} {rs qs : List Round}

def sent (s : State) (rs : List Round) : List Delivery := Run.trace step observe s rs

/-- As long as each new client finds its entry free, a client that stays is sent every message that
any client has sent, once, and in the order in which they have been received; where the server is
killed it is all but the one that is being sent. -/
theorem inbox_eq_sent (hfree : Run.Always step SlotFree (start ss) rs)
    (hrun : Run.exec step (start ss) rs = some m) (hc : c ∈ m.connected)
    (hstays : Run.Always step (fun s r s' => SlotFree s r s' ∧ Stays c s r s') m qs)
    (hrest : Run.exec step m qs = some s) :
    inbox c (calls (sent m qs)) = (sent m qs).map Delivery.source ∧
      ∀ cs, cs <+: calls (sent m qs) → ∃ k,
        inbox c cs = ((sent m qs).map Delivery.source).take k ∧
          cs <+: calls ((sent m qs).take (k + 1)) := by
  have hintact : Intact m := by
    refine Run.invariant_of_always (fun s r s' hi h hf => ?_) (start_intact ss) hfree hrun
    exact hi.step h ((keepsEntries_iff (step_cases h).1 hi.length).mpr hf)
  have hmember := Run.trace_invariant
    (I := fun ds s => Member c s ∧ ∀ d ∈ ds, d.targets.count c = 1) observe
    (fun ds s r s' hI h hP => by
      obtain ⟨hm, hnew⟩ := hI.1.step h hP.1 hP.2
      exact ⟨hm, fun d hd => (List.mem_append.mp hd).elim (hI.2 d) (hnew d)⟩)
    [] ⟨⟨hintact, hc⟩, nofun⟩ hstays hrest
  exact ⟨inbox_of_count hmember.2, fun _ => inbox_of_prefix hmember.2⟩

instance (s : State) (r : Round) : Decidable (Stores s r) :=
  inferInstanceAs (Decidable (_ ∧ _ ∧ _ ∧ _))

instance (s : State) (r : Round) (s' : State) : Decidable (SlotFree s r s') :=
  inferInstanceAs (Decidable (_ → _ → _))

def twoClients : List Round :=
  [round [3] [] (fun _ => 1) 4, round [3] [4] (fun _ => 1) 5]

def bothSend : List Round := [round [4, 5] [4, 5] (fun _ => 1) (-1)]

theorem twoClients_run : ∃ m, Run.exec step (start 3) twoClients = some m ∧ 5 ∈ m.connected ∧
    sent m bothSend = [⟨4, [4, 5]⟩, ⟨5, [4, 5]⟩] ∧ (Run.exec step m bothSend).isSome = true := by
  obtain ⟨m, hm, hcond⟩ : ∃ m, Run.exec step (start 3) twoClients = some m ∧
      decide (5 ∈ m.connected ∧ sent m bothSend = [⟨4, [4, 5]⟩, ⟨5, [4, 5]⟩] ∧
        (Run.exec step m bothSend).isSome = true) = true :=
    (Option.any_eq_true _ _).mp (by decide +kernel)
  exact ⟨m, hm, of_decide_eq_true hcond⟩

theorem inbox_eq_sent_both : ∃ m, Run.exec step (start 3) twoClients = some m ∧
    inbox 5 (calls (sent m bothSend)) = [4, 5] := by
  obtain ⟨m, hm, hc, hsent, hrest⟩ := twoClients_run
  obtain ⟨s, hs⟩ := Option.isSome_iff_exists.mp hrest
  have hstays : Run.Always step (fun s r s' => SlotFree s r s' ∧ Stays 5 s r s') m bothSend := by
    refine Run.always_of_mem (fun r hr s s' => ?_) m
    cases List.mem_singleton.mp hr
    refine ⟨fun hstores => ?_, fun i _ => ?_⟩
    · exact absurd hstores.2.2.1 (by decide)
    · simp [leaves, round]
  refine ⟨m, hm, ?_⟩
  rw [(inbox_eq_sent (by decide +kernel) hm hc hstays hs).1, hsent]
  rfl

end Rounds

end LearnCLinux.IoModel.Select
