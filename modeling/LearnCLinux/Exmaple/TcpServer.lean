import LearnCLinux.Library.Run
import LearnCLinux.Library.Threads
import Mathlib.Data.List.Nodup

/-! The processes of the server of `exmaple/TCP`.  `server_handle` returns into the loop of `main`,
also in a child, which has closed `ss`; a `write` to a client that is gone may end the child. -/

namespace LearnCLinux.Exmaple.TcpServer

/-- Where a process stands in the loop of `main` or that of `server_handle`.  Connections are numbered
as they are accepted. -/
inductive Pc : Type
  | accept
  | fork (cs : Nat)
  | closeCs (cs : Nat)
  | closeSs (cs : Nat)
  | read (cs : Nat)
  | write (cs : Nat)
  | killed
  deriving DecidableEq

/-- `ss` tells whether the listening socket is open, and `held` are the connections that are. -/
structure Process where
  pc : Pc
  ss : Bool
  held : List Nat
  deriving DecidableEq

structure State where
  processes : List Process
  accepted : Nat
  deriving DecidableEq

def start : State := ⟨[⟨.accept, true, []⟩], 0⟩

/-- `ok` tells whether `accept` or `fork` does not fail, whether `read` returns 0, and whether `write`
returns at all. -/
structure Label where
  process : Nat
  ok : Bool
  deriving DecidableEq

section Code

/-- `-1` is not 0: `server_handle` returns only where the client has closed its end. -/
def serverHandle (p : Process) (ok : Bool) : Process :=
  match p.pc with
  | .read cs => { p with pc := if ok then .accept else .write cs }
  -- SIGPIPE is not caught
  | .write cs => if ok then { p with pc := .read cs } else ⟨.killed, false, []⟩
  | _ => p

/-- The process, how many connections have been accepted, and the child if there is a new one. -/
def main (p : Process) (ok : Bool) (accepted : Nat) : Option (Process × Nat × List Process) :=
  match p.pc with
  | .accept =>
    if p.ss ∧ ok then
      some ({ p with pc := .fork accepted, held := accepted :: p.held }, accepted + 1, [])
    else some (p, accepted, [])
  | .fork cs =>
    some ({ p with pc := .closeCs cs }, accepted, if ok then [{ p with pc := .closeSs cs }] else [])
  | .closeCs cs => some ({ p with pc := .accept, held := p.held.erase cs }, accepted, [])
  | .closeSs cs => some ({ p with pc := .read cs, ss := false }, accepted, [])
  | .read _ | .write _ => some (serverHandle p ok, accepted, [])
  | .killed => none

def step (s : State) (l : Label) : Option State :=
  s.processes[l.process]?.bind fun p =>
    (main p l.ok s.accepted).map fun (p, accepted, children) =>
      ⟨s.processes.set l.process p ++ children, accepted⟩

/-- The connection that a child is made for. -/
def observe (s : State) (l : Label) (_ : State) : List Nat :=
  match s.processes[l.process]? with
  | some ⟨.fork cs, _, _⟩ => if l.ok then [cs] else []
  | _ => []

def forked (ls : List Label) : List Nat := Run.trace step observe start ls

end Code

/-- The first process listens, and holds the connection that it has just accepted. -/
inductive Parent (accepted : Nat) (forked : List Nat) : Process → Prop
  | accept : Parent accepted forked ⟨.accept, true, []⟩
  | fork {cs : Nat} : cs < accepted → cs ∉ forked → Parent accepted forked ⟨.fork cs, true, [cs]⟩
  | closeCs {cs : Nat} : Parent accepted forked ⟨.closeCs cs, true, [cs]⟩

/-- A child holds its connection until SIGPIPE ends it, and once it has closed `ss` there is none that
it could accept. -/
inductive Child (cs : Nat) : Process → Prop
  | closeSs : Child cs ⟨.closeSs cs, true, [cs]⟩
  | read : Child cs ⟨.read cs, false, [cs]⟩
  | write : Child cs ⟨.write cs, false, [cs]⟩
  | accept : Child cs ⟨.accept, false, [cs]⟩
  | killed : Child cs ⟨.killed, false, []⟩

structure Serves (forked : List Nat) (s : State) : Prop where
  length : s.processes.length = forked.length + 1
  parent : ∃ p, s.processes[0]? = some p ∧ Parent s.accepted forked p
  child : ∀ i cs, forked[i]? = some cs → ∃ p, s.processes[i + 1]? = some p ∧ Child cs p
  accepted : ∀ cs ∈ forked, cs < s.accepted
  distinct : forked.Nodup

section Steps

variable {fs : List Nat} {s s' : State} {l : Label} {ls : List Label} {p : Process} {ok : Bool}
  {accepted cs : Nat}

theorem start_serves : Serves [] start where
  length := rfl
  parent := ⟨_, rfl, .accept⟩
  child i cs h := by simp at h
  accepted cs h := by simp at h
  distinct := List.nodup_nil

theorem Child.main (hc : Child cs p) {r : Process × Nat × List Process}
    (h : main p ok accepted = some r) : ∃ p', r = (p', accepted, []) ∧ Child cs p' := by
  cases hc with
  | closeSs =>
    cases h
    exact ⟨_, rfl, .read⟩
  | read =>
    cases h
    cases ok with
    | true => exact ⟨_, rfl, .accept⟩
    | false => exact ⟨_, rfl, .write⟩
  | write =>
    cases h
    cases ok with
    | true => exact ⟨_, rfl, .read⟩
    | false => exact ⟨_, rfl, .killed⟩
  | accept =>
    cases h
    exact ⟨_, rfl, .accept⟩
  | killed => cases h

theorem Parent.main (hp : Parent accepted fs p) (haccepted : ∀ cs ∈ fs, cs < accepted)
    (hfork : ∀ cs, p.pc = .fork cs → ok = false) :
    ∃ p' a, main p ok accepted = some (p', a, []) ∧ Parent a fs p' ∧ accepted ≤ a := by
  cases hp with
  | accept =>
    cases ok with
    | true =>
      have hnew : accepted ∉ fs := fun hmem => Nat.lt_irrefl _ (haccepted _ hmem)
      exact ⟨_, _, rfl, .fork (Nat.lt_succ_self _) hnew, Nat.le_succ _⟩
    | false => exact ⟨_, _, rfl, .accept, Nat.le_refl _⟩
  | fork =>
    cases hfork _ rfl
    exact ⟨_, _, rfl, .closeCs, Nat.le_refl _⟩
  | @closeCs cs =>
    refine ⟨⟨.accept, true, [cs].erase cs⟩, _, rfl, ?_, Nat.le_refl _⟩
    rw [List.erase_cons_head]
    exact .accept

theorem observe_nil (hp : s.processes[l.process]? = some p)
    (hfork : ∀ cs, p.pc = .fork cs → l.ok = false) : observe s l s' = [] := by
  obtain ⟨pc, ss, held⟩ := p
  rw [observe, hp]
  cases pc with
  | fork cs => exact if_neg (by simp [hfork cs rfl])
  | _ => rfl

theorem Serves.setParent {a : Nat} (hs : Serves fs s) (hp : Parent a fs p)
    (ha : s.accepted ≤ a) : Serves fs ⟨s.processes.set 0 p, a⟩ where
  length := by rw [List.length_set, hs.length]
  parent := by
    refine ⟨p, List.getElem?_set_self ?_, hp⟩
    rw [hs.length]
    exact Nat.succ_pos _
  child i cs hi := by
    obtain ⟨q, hq, hchild⟩ := hs.child i cs hi
    exact ⟨q, (List.getElem?_set_ne (Nat.succ_ne_zero i).symm).trans hq, hchild⟩
  accepted cs hcs := Nat.lt_of_lt_of_le (hs.accepted cs hcs) ha
  distinct := hs.distinct

theorem Serves.setChild {j : Nat} (hs : Serves fs s) (hj : fs[j]? = some cs) (hc : Child cs p) :
    Serves fs ⟨s.processes.set (j + 1) p, s.accepted⟩ where
  length := by rw [List.length_set, hs.length]
  parent := by
    obtain ⟨q, hq, hparent⟩ := hs.parent
    exact ⟨q, (List.getElem?_set_ne (Nat.succ_ne_zero j)).trans hq, hparent⟩
  child i c hi := by
    obtain ⟨q, hq, hchild⟩ := hs.child i c hi
    by_cases hij : i = j
    · subst hij
      cases hj.symm.trans hi
      refine ⟨p, List.getElem?_set_self ?_, hc⟩
      exact (List.getElem?_eq_some_iff.mp hq).1
    · exact ⟨q, (List.getElem?_set_ne fun heq => hij (Nat.succ.inj heq).symm).trans hq, hchild⟩
  accepted := hs.accepted
  distinct := hs.distinct

theorem Serves.fork (hs : Serves fs s) (hc : Child cs p) (haccepted : cs < s.accepted)
    (hnew : cs ∉ fs) (hparent : s.processes[0]? = some ⟨.closeCs cs, true, [cs]⟩) :
    Serves (fs ++ [cs]) ⟨s.processes ++ [p], s.accepted⟩ where
  length := by rw [List.length_append, List.length_append, hs.length]; rfl
  parent := by
    refine ⟨⟨.closeCs cs, true, [cs]⟩, ?_, .closeCs⟩
    rw [List.getElem?_append_left (by rw [hs.length]; exact Nat.succ_pos _), hparent]
  child := by
    refine Threads.forall_concat (fun i c hi => ?_) ⟨p, ?_, hc⟩
    · obtain ⟨q, hq, hchild⟩ := hs.child i c hi
      refine ⟨q, ?_, hchild⟩
      rwa [List.getElem?_append_left (List.getElem?_eq_some_iff.mp hq).1]
    · rw [← hs.length, List.getElem?_concat_length]
  accepted c hmem := by
    rcases List.mem_append.mp hmem with hold | hlast
    · exact hs.accepted c hold
    · cases List.mem_singleton.mp hlast
      exact haccepted
  distinct := by
    rw [List.nodup_append_comm]
    exact List.nodup_cons.mpr ⟨hnew, hs.distinct⟩

theorem step_eq {children : List Process} {p' : Process} (hp : s.processes[l.process]? = some p)
    (hmain : main p l.ok s.accepted = some (p', accepted, children)) (h : step s l = some s') :
    s' = ⟨s.processes.set l.process p' ++ children, accepted⟩ := by
  rw [step, hp, Option.bind_some, hmain] at h
  exact (Option.some.inj h).symm

theorem Serves.step_parent (hs : Serves fs s) (hzero : l.process = 0) (h : step s l = some s') :
    Serves (fs ++ observe s l s') s' := by
  obtain ⟨p, hp, hparent⟩ := hs.parent
  rw [← hzero] at hp
  by_cases hfork : ∀ cs, p.pc = .fork cs → l.ok = false
  · obtain ⟨p', a, hmain, hparent', ha⟩ := hparent.main hs.accepted hfork
    rw [observe_nil hp hfork, List.append_nil, step_eq hp hmain h, hzero, List.append_nil]
    exact hs.setParent hparent' ha
  · simp only [not_forall, Bool.not_eq_false] at hfork
    obtain ⟨cs, hpc, hok⟩ := hfork
    cases hparent <;> cases hpc
    next haccepted hnew =>
    have hcs : observe s l s' = [cs] := by
      rw [observe, hp]
      exact if_pos hok
    have hmain : main ⟨.fork cs, true, [cs]⟩ l.ok s.accepted = some
        (⟨.closeCs cs, true, [cs]⟩, s.accepted, [⟨.closeSs cs, true, [cs]⟩]) := by
      rw [hok]
      rfl
    rw [hcs, step_eq hp hmain h, hzero]
    have hwaits := hs.setParent (p := ⟨.closeCs cs, true, [cs]⟩) .closeCs (Nat.le_refl _)
    refine hwaits.fork .closeSs haccepted hnew (List.getElem?_set_self ?_)
    rw [hs.length]
    exact Nat.succ_pos _

theorem Serves.step_child {i : Nat} (hs : Serves fs s) (hi : l.process = i + 1)
    (h : step s l = some s') : Serves (fs ++ observe s l s') s' := by
  obtain ⟨p, hp, hnext⟩ := Option.bind_eq_some_iff.mp h
  have hlt : i < fs.length := by
    have hlt' := (List.getElem?_eq_some_iff.mp hp).1
    rw [hi, hs.length] at hlt'
    exact Nat.lt_of_succ_lt_succ hlt'
  have hcs := List.getElem?_eq_getElem hlt
  obtain ⟨q, hq, hchild⟩ := hs.child i _ hcs
  rw [← hi] at hq
  cases hq.symm.trans hp
  obtain ⟨r, hmain, -⟩ := Option.map_eq_some_iff.mp hnext
  obtain ⟨p', rfl, hchild'⟩ := hchild.main hmain
  have hfork : ∀ cs, p.pc = .fork cs → l.ok = false := by
    intro cs hpc
    cases hchild <;> cases hpc
  rw [observe_nil hp hfork, List.append_nil, step_eq hp hmain h, hi, List.append_nil]
  exact hs.setChild hcs hchild'

theorem Serves.step (hs : Serves fs s) (h : step s l = some s') :
    Serves (fs ++ observe s l s') s' := by
  cases hl : l.process with
  | zero => exact hs.step_parent hl h
  | succ i => exact hs.step_child hl h

/-- In every run there is one child for each connection that a child was made for.  It never gets
another, and its own stays open, also when the client has left, unless SIGPIPE ends the child. -/
theorem one_child_each (hrun : Run.exec TcpServer.step start ls = some s) : Serves (forked ls) s :=
  Run.trace_invariant observe (fun _ _ _ _ hs h _ => hs.step h) [] start_serves
    (Run.always_true start ls) hrun

/-- A client is accepted, sends twice and leaves, and the second answer ends its child; the child of
another one, that leaves in between, stands in the loop of `main`. -/
def clientsLeave : List Label :=
  [⟨0, true⟩, ⟨0, true⟩, ⟨1, true⟩, ⟨0, true⟩, ⟨1, false⟩, ⟨1, true⟩, ⟨0, true⟩, ⟨0, true⟩,
    ⟨2, true⟩, ⟨2, true⟩, ⟨1, false⟩, ⟨1, false⟩]

theorem forked_clientsLeave : forked clientsLeave = [0, 1] := by decide

theorem one_child_each_leaves : ∃ s, Run.exec TcpServer.step start clientsLeave = some s ∧
    s.processes.map Process.pc = [.closeCs 1, .killed, .accept] ∧ Serves [0, 1] s := by
  obtain ⟨s, hs, hpcs⟩ : ∃ s, Run.exec TcpServer.step start clientsLeave = some s ∧
      decide (s.processes.map Process.pc = [.closeCs 1, .killed, .accept]) = true :=
    (Option.any_eq_true _ _).mp (by decide)
  exact ⟨s, hs, of_decide_eq_true hpcs, forked_clientsLeave ▸ one_child_each hs⟩

end Steps

end LearnCLinux.Exmaple.TcpServer
