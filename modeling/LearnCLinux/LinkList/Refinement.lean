import LearnCLinux.LinkList.Sequence

/-! The functions of `link_list.c` on a list refine the operations on its sequence. -/

universe u v

namespace LearnCLinux.LinkList

open LinkedList

variable {A : Type u} {E : Type v} [DecidableEq A] [Zero A]

def Holds (h : Heap A (Node A E)) (n : A × E) : Prop := ∃ q, h.load n.1 = some ⟨n.2, q⟩

/-- The nodes behind the header, up to NULL. -/
structure Represents (L : A) (h : Heap A (Node A E)) (ns : List (A × E)) : Prop where
  linked : Segment Node.next h L (L :: ns.map Prod.fst) 0
  holds : ∀ n ∈ ns, Holds h n

def first (ns : List (A × E)) : A := (ns.map Prod.fst).headD 0

section Finding

variable {L p : A} {X : E} {h : Heap A (Node A E)} {n : A × E} {ns ns₁ ns₂ : List (A × E)}
  {c : Node A E}

theorem first_eq (hseg : Segment Node.next h p (ns.map Prod.fst) 0) : first ns = p := by
  cases ns with
  | nil =>
    cases hseg
    rfl
  | cons n ns =>
    cases hseg
    rfl

theorem first_ne_zero (hseg : Segment Node.next h p (ns.map Prod.fst) 0) (hns : ns ≠ []) :
    first ns ≠ 0 := by
  cases ns with
  | nil => exact absurd rfl hns
  | cons n ns => exact fun hzero => hseg.zero_not_mem (hzero ▸ List.mem_cons_self)

theorem node_next (hseg : Segment Node.next h p (p :: ns.map Prod.fst) 0) :
    ∃ c, h.load p = some c ∧ c.next = first ns ∧
      Segment Node.next h (first ns) (ns.map Prod.fst) 0 := by
  cases hseg with
  | cons hc hrest => exact ⟨_, hc, (first_eq hrest).symm, (first_eq hrest).symm ▸ hrest⟩

theorem Represents.isEmpty (hr : Represents L h ns) : isEmpty h L = some ns.isEmpty := by
  obtain ⟨c, hc, hnext, hrest⟩ := node_next hr.linked
  rw [LinkList.isEmpty, hc, Option.map_some, hnext]
  cases ns with
  | nil => exact congrArg some (decide_eq_true rfl)
  | cons n ns =>
    exact congrArg some (decide_eq_false (first_ne_zero hrest (List.cons_ne_nil n ns)))

theorem Represents.isLast {P : A} (hr : Represents L h ns) (hP : P ∈ L :: ns.map Prod.fst) :
    isLast h P L = some (decide (P = (ns.map Prod.fst).getLastD L)) := by
  obtain ⟨qs, a, heq⟩ := exists_last L (ns.map Prod.fst)
  have hlinked := hr.linked
  obtain ⟨c, hc⟩ := hlinked.load hP
  rw [heq] at hlinked hP
  rw [LinkList.isLast, hc, getLastD_of_cons_eq heq, Option.map_some]
  rcases List.mem_append.mp hP with hP | hP
  · have hnext : c.next ≠ 0 := by
      intro hzero
      exact hlinked.zero_not_mem (hzero ▸ hlinked.next_mem hP hc)
    have hPa : P ≠ a := by
      have hmiddle : Segment Node.next h L (qs ++ [a] ++ []) 0 := by
        rwa [List.append_nil]
      exact hmiddle.ne_middle (.inl hP)
    rw [decide_eq_false hnext, decide_eq_false hPa]
  · cases List.mem_singleton.mp hP
    rw [hlinked.next_last hc, decide_eq_true rfl, decide_eq_true rfl]

variable [DecidableEq E]

theorem walk_find (hseg : Segment Node.next h n.1 (n.1 :: ns.map Prod.fst) 0)
    (hholds : ∀ m ∈ n :: ns, Holds h m) :
    ∃ ps, Walk Node.next h (compareElement X) n.1 ps (firstNode X (n :: ns)) := by
  induction ns generalizing n with
  | nil =>
    obtain ⟨c, hc, hnext, -⟩ := node_next hseg
    obtain ⟨q, hq⟩ := hholds n List.mem_cons_self
    cases hc.symm.trans hq
    refine ⟨[n.1], .leave hc ?_⟩
    by_cases hn : n.2 = X
    · simp [compareElement, firstNode, hn]
    · simp [compareElement, firstNode, hn, show q = 0 from hnext]
  | cons m ns ih =>
    obtain ⟨c, hc, hnext, hrest⟩ := node_next hseg
    obtain ⟨q, hq⟩ := hholds n List.mem_cons_self
    cases hc.symm.trans hq
    by_cases hn : n.2 = X
    · exact ⟨[n.1], .leave hc (by simp [compareElement, firstNode, hn])⟩
    · have hq0 : q ≠ 0 := by
        rw [show q = first (m :: ns) from hnext]
        exact first_ne_zero hrest (List.cons_ne_nil m ns)
      obtain ⟨ps, hps⟩ := ih (n := m) hrest fun k hk => hholds k (List.mem_cons_of_mem n hk)
      have hfirst : firstNode X (n :: m :: ns) = firstNode X (m :: ns) := by
        simp [firstNode, hn]
      refine ⟨n.1 :: ps, .go hc (by simp [compareElement, hn, hq0]) ?_⟩
      rw [hfirst, show Node.next ⟨n.2, q⟩ = m.1 from hnext]
      exact hps

theorem Represents.find (hr : Represents L h ns) (X : E) : find h L X = some (firstNode X ns) := by
  obtain ⟨c, hc, hnext, hrest⟩ := node_next hr.linked
  rw [LinkList.find, hc, Option.bind_some, hnext]
  cases ns with
  | nil => exact if_pos rfl
  | cons n ns =>
    rw [if_neg (first_ne_zero hrest (List.cons_ne_nil n ns))]
    exact walk_size_iff.mpr (walk_find hrest hr.holds)

theorem walk_findPrevious (hseg : Segment Node.next h p (p :: ns.map Prod.fst) 0)
    (hholds : ∀ m ∈ ns, Holds h m) :
    ∃ ps, Walk Node.next h (compareNext h X) p ps (nodeBefore p X ns) := by
  induction ns generalizing p with
  | nil =>
    obtain ⟨c, hc, hnext, -⟩ := node_next hseg
    exact ⟨[p], .leave hc (by simp [compareNext, nodeBefore, show c.next = 0 from hnext])⟩
  | cons m ns ih =>
    obtain ⟨c, hc, hnext, hrest⟩ := node_next hseg
    have hne : c.next ≠ 0 := by
      rw [hnext]
      exact first_ne_zero hrest (List.cons_ne_nil m ns)
    obtain ⟨q, hq⟩ := hholds m List.mem_cons_self
    have hload : h.load c.next = some ⟨m.2, q⟩ := by
      rw [hnext]
      exact hq
    by_cases hm : m.2 = X
    · exact ⟨[p], .leave hc (by simp [compareNext, nodeBefore, hne, hload, hm])⟩
    · obtain ⟨ps, hps⟩ := ih (p := m.1) hrest fun k hk => hholds k (List.mem_cons_of_mem m hk)
      have hbefore : nodeBefore p X (m :: ns) = nodeBefore m.1 X ns := by
        rw [nodeBefore, List.takeWhile_cons_of_pos (by simpa using hm), List.map_cons,
          List.getLastD_cons]
        rfl
      refine ⟨p :: ps, .go hc (by simp [compareNext, hne, hload, hm]) ?_⟩
      rw [hbefore, show c.next = m.1 from hnext]
      exact hps

theorem Represents.findPrevious (hr : Represents L h ns) (X : E) :
    findPrevious h L X = some (nodeBefore L X ns) :=
  walk_size_iff.mpr (walk_findPrevious hr.linked hr.holds)

end Finding

section Operations

variable {L P p : A} {X : E} {h h' : Heap A (Node A E)} {n : A × E} {ns ns₁ ns₂ : List (A × E)}
  {c d t : Node A E}

theorem Represents.nodup (hr : Represents L h ns) : (L :: ns.map Prod.fst).Nodup := hr.linked.nodup

theorem setElement_eq (hc : h.load P = some c) (X : E) :
    setElement h P X = some (h.insert P { c with element := X }) := by
  rw [setElement, hc]
  rfl

theorem setNext_eq (hc : h.load P = some c) (Q : A) :
    setNext h P Q = some (h.insert P { c with next := Q }) := by
  rw [setNext, hc]
  rfl

def inserted (h : Heap A (Node A E)) (X : E) (P : A) (c : Node A E) (p : A) :
    Heap A (Node A E) :=
  AList.insert P { c with next := p } (h.insert p ⟨X, c.next⟩)

theorem insert_eq (hc : h.load P = some c) (hp : h.Fresh p) (L : A) (t : Node A E) :
    insert h X L P (some (p, t)) = some (inserted h X P c p) := by
  have hP : P ≠ p := hp.ne hc
  rw [insert, malloc]
  simp only
  rw [setElement_eq (Heap.load_insert hp.1), Option.bind_some, AList.insert_insert,
    Heap.load_insert_of_ne hP, hc, Option.bind_some, setNext_eq (Heap.load_insert hp.1),
    Option.bind_some, AList.insert_insert]
  exact setNext_eq ((Heap.load_insert_of_ne hP).trans hc) p

theorem insert_null (h : Heap A (Node A E)) (X : E) (L P : A) : insert h X L P none = none := by
  simp [insert, malloc, setElement]

theorem load_inserted_new (hc : h.load P = some c) (hp : h.Fresh p) :
    (inserted h X P c p).load p = some ⟨X, c.next⟩ :=
  (Heap.load_insert_of_ne (hp.ne hc).symm).trans (Heap.load_insert hp.1)

theorem load_inserted_before (hc : h.load P = some c) :
    (inserted h X P c p).load P = some { c with next := p } :=
  Heap.load_insert (Heap.ne_zero_of_load hc)

theorem load_inserted_of_ne {a : A} (hap : a ≠ p) (haP : a ≠ P) :
    (inserted h X P c p).load a = h.load a :=
  (Heap.load_insert_of_ne haP).trans (Heap.load_insert_of_ne hap)

theorem Holds.inserted (hn : Holds h n) (hc : h.load P = some c) (hp : h.Fresh p) :
    Holds (inserted h X P c p) n := by
  obtain ⟨q, hq⟩ := hn
  by_cases hnP : n.1 = P
  · subst hnP
    cases hc.symm.trans hq
    exact ⟨p, load_inserted_before hc⟩
  · exact ⟨q, (load_inserted_of_ne (hp.ne hq) hnP).trans hq⟩

theorem Represents.inserted [DecidableEq E] (hr : Represents L h ns)
    (hP : P ∈ L :: ns.map Prod.fst) (hc : h.load P = some c) (hp : h.Fresh p) :
    Represents L (inserted h X P c p) (place L P (p, X) ns) := by
  obtain ⟨ps, ns₁, ns₂, rfl, hbefore, hplace⟩ := exists_place hP hr.nodup (p, X)
  have hlinked := hr.linked
  rw [List.map_append, ← List.cons_append, hbefore] at hlinked
  rw [hplace]
  constructor
  · rw [List.map_append, ← List.cons_append, hbefore]
    refine hlinked.link hc (fun q hq => ?_) (load_inserted_before hc) rfl
      (load_inserted_new hc hp) rfl
    obtain ⟨b, hb⟩ := hlinked.load (List.mem_append.mpr (hq.imp_left (List.mem_append_left _)))
    exact congrArg _ (load_inserted_of_ne (hp.ne hb) (hlinked.ne_middle hq))
  · intro n hn
    have hnew : Holds (LinkList.inserted h X P c p) (p, X) := ⟨_, load_inserted_new hc hp⟩
    rcases List.mem_append.mp hn with hn | hn
    · exact (hr.holds n (List.mem_append_left _ hn)).inserted hc hp
    · rcases List.mem_cons.mp hn with rfl | hn
      · exact hnew
      · exact (hr.holds n (List.mem_append_right _ hn)).inserted hc hp

def deleted (h : Heap A (Node A E)) (P : A) (c : Node A E) (p : A) (t : Node A E) :
    Heap A (Node A E) :=
  AList.erase p (h.insert P { c with next := t.next })

theorem load_deleted_before (hc : h.load P = some c) (hPp : P ≠ p) :
    (deleted h P c p t).load P = some { c with next := t.next } :=
  (Heap.load_erase_of_ne hPp).trans (Heap.load_insert (Heap.ne_zero_of_load hc))

theorem load_deleted_of_ne {a : A} (hap : a ≠ p) (haP : a ≠ P) :
    (deleted h P c p t).load a = h.load a :=
  (Heap.load_erase_of_ne hap).trans (Heap.load_insert_of_ne haP)

theorem Holds.deleted (hn : Holds h n) (hc : h.load P = some c) (hnp : n.1 ≠ p) :
    Holds (deleted h P c p t) n := by
  obtain ⟨q, hq⟩ := hn
  by_cases hnP : n.1 = P
  · subst hnP
    cases hc.symm.trans hq
    exact ⟨t.next, load_deleted_before hc hnp⟩
  · exact ⟨q, (load_deleted_of_ne hnp hnP).trans hq⟩

/-- What was not in the list is where it was, and is still not in it. -/
def Outside (L : A) (h : Heap A (Node A E)) (ns : List (A × E)) (h' : Heap A (Node A E))
    (ns' : List (A × E)) : Prop :=
  ∀ a c, a ∉ L :: ns.map Prod.fst → h.load a = some c →
    h'.load a = some c ∧ a ∉ L :: ns'.map Prod.fst

theorem Outside.refl (L : A) (h : Heap A (Node A E)) (ns : List (A × E)) : Outside L h ns h ns :=
  fun _ _ ha hc => ⟨hc, ha⟩

theorem Outside.trans {h₁ h₂ h₃ : Heap A (Node A E)} {ns₁ ns₂ ns₃ : List (A × E)}
    (h₁₂ : Outside L h₁ ns₁ h₂ ns₂) (h₂₃ : Outside L h₂ ns₂ h₃ ns₃) : Outside L h₁ ns₁ h₃ ns₃ :=
  fun a c ha hc => h₂₃ a c (h₁₂ a c ha hc).2 (h₁₂ a c ha hc).1

theorem outside_inserted (hP : P ∈ L :: ns.map Prod.fst) (hp : h.Fresh p) :
    Outside L h ns (inserted h X P c p) (place L P (p, X) ns) := by
  intro a d ha hd
  have hap : a ≠ p := hp.ne hd
  have haP : a ≠ P := fun haP => ha (haP ▸ hP)
  refine ⟨(load_inserted_of_ne hap haP).trans hd, fun hmem => ?_⟩
  rcases List.mem_cons.mp hmem with rfl | hmem
  · exact ha List.mem_cons_self
  · obtain ⟨k, hk, rfl⟩ := List.mem_map.mp hmem
    rcases mem_place hk with rfl | hk
    · exact hap rfl
    · exact ha (List.mem_cons_of_mem L (List.mem_map_of_mem hk))

theorem outside_deleted (hP : P ∈ L :: ns₁.map Prod.fst) :
    Outside L h (ns₁ ++ (p, X) :: ns₂) (deleted h P c p t) (ns₁ ++ ns₂) := by
  intro a d ha hd
  simp only [List.map_append, List.map_cons, List.mem_cons, List.mem_append, not_or] at ha hP ⊢
  have hap : a ≠ p := ha.2.2.1
  have haP : a ≠ P := by
    rintro rfl
    exact hP.elim ha.1 ha.2.1
  exact ⟨(load_deleted_of_ne hap haP).trans hd, ha.1, ha.2.1, ha.2.2.2⟩

variable [DecidableEq E]

theorem Represents.delete_absent (hr : Represents L h ns) (habsent : ∀ n ∈ ns, n.2 ≠ X) :
    delete h L X = some h := by
  obtain ⟨qs, P, heq⟩ := exists_last L (ns.map Prod.fst)
  have hP : P ∈ L :: ns.map Prod.fst := by
    rw [heq]
    exact List.mem_append_right qs List.mem_cons_self
  have hprev : LinkList.findPrevious h L X = some P := by
    rw [hr.findPrevious, nodeBefore_absent habsent, getLastD_of_cons_eq heq]
  have hlast : LinkList.isLast h P L = some true := by
    rw [hr.isLast hP, getLastD_of_cons_eq heq, decide_eq_true rfl]
  rw [delete, hprev, Option.bind_some, hlast]
  rfl

theorem Represents.delete_first (hr : Represents L h (ns₁ ++ (p, X) :: ns₂))
    (hne : ∀ n ∈ ns₁, n.2 ≠ X) : ∃ P c t, delete h L X = some (deleted h P c p t) ∧
      P ∈ L :: ns₁.map Prod.fst ∧ P ≠ p ∧
      Represents L (deleted h P c p t) (ns₁ ++ ns₂) := by
  obtain ⟨qs, P, heq⟩ := exists_last L (ns₁.map Prod.fst)
  have hlinked := hr.linked
  rw [List.map_append, ← List.cons_append, heq] at hlinked
  obtain ⟨c, hc⟩ := hlinked.load (a := P) (by simp)
  obtain ⟨t, ht⟩ := hlinked.load (a := p) (by simp)
  have hPp : P ≠ p := hlinked.ne_next (.inl (List.mem_append_right qs List.mem_cons_self))
  have hnext : c.next = p := by
    obtain ⟨q, hfirst, hrest⟩ := hlinked.split
    rw [hfirst.next_last hc]
    cases hrest
    rfl
  have hprev : LinkList.findPrevious h L X = some P := by
    rw [hr.findPrevious, nodeBefore_append hne, getLastD_of_cons_eq heq]
  have hlast : LinkList.isLast h P L = some false := by
    rw [LinkList.isLast, hc, Option.map_some, hnext,
      decide_eq_false (Heap.ne_zero_of_load ht)]
  have hfree : Heap.load (h.insert P { c with next := t.next }) p = some t :=
    (Heap.load_insert_of_ne hPp.symm).trans ht
  refine ⟨P, c, t, ?_, by rw [heq]; simp, hPp, ?_, ?_⟩
  · rw [delete, hprev, Option.bind_some, hlast, Option.bind_some, if_neg Bool.false_ne_true, hc,
      Option.bind_some, hnext, ht, Option.bind_some, setNext_eq hc, Option.bind_some]
    exact Heap.free_of_load hfree
  · rw [List.map_append, ← List.cons_append, heq]
    refine hlinked.unlink ht (fun a ha => ?_) (load_deleted_before hc hPp) rfl
    have hap : a ≠ p := hlinked.ne_next (ha.imp_left (List.mem_append_left _))
    have haP : a ≠ P := hlinked.ne_middle (ha.imp_right (List.mem_cons_of_mem p))
    exact congrArg _ (load_deleted_of_ne hap haP)
  · intro n hn
    refine (hr.holds n ?_).deleted hc ?_
    · rcases List.mem_append.mp hn with hn | hn
      · exact List.mem_append_left _ hn
      · exact List.mem_append_right _ (List.mem_cons_of_mem _ hn)
    · apply hlinked.ne_next
      rw [← heq]
      rcases List.mem_append.mp hn with hn | hn
      · exact .inl (List.mem_cons_of_mem _ (List.mem_map_of_mem hn))
      · exact .inr (List.mem_map_of_mem hn)

/-- A call does to the list what it does to the sequence, unless it needs memory and there is
none. -/
theorem Represents.step (hr : Represents L h ns) {x : Command A E} (hplaced : x.Placed L ns)
    (hpossible : Possible h x) (halloc : x.Allocated) :
    ∃ h', run h L x = some h' ∧ Represents L h' (x.apply L ns) ∧
      Outside L h ns h' (x.apply L ns) := by
  cases x with
  | insert X P block =>
    cases block with
    | none => exact absurd rfl halloc
    | some block =>
      obtain ⟨p, t⟩ := block
      obtain ⟨c, hc⟩ := hr.linked.load hplaced
      exact ⟨_, insert_eq hc hpossible L t, hr.inserted hplaced hc hpossible,
        outside_inserted hplaced hpossible⟩
  | delete X =>
    by_cases hmem : ∃ n ∈ ns, n.2 = X
    · obtain ⟨ns₁, p, ns₂, rfl, hne⟩ := exists_occurrence hmem
      obtain ⟨P, c, t, hdelete, hP, -, hr'⟩ := hr.delete_first hne
      refine ⟨_, hdelete, ?_, ?_⟩
      · rw [Command.apply, removeFirst_append hne]
        exact hr'
      · rw [Command.apply, removeFirst_append hne]
        exact outside_deleted hP
    · have habsent : ∀ n ∈ ns, n.2 ≠ X := fun n hn hX => hmem ⟨n, hn, hX⟩
      refine ⟨h, hr.delete_absent habsent, ?_, ?_⟩
      · rw [Command.apply, removeFirst_absent habsent]
        exact hr
      · rw [Command.apply, removeFirst_absent habsent]
        exact Outside.refl L h ns
  | find X =>
    refine ⟨h, ?_, hr, Outside.refl L h ns⟩
    rw [run, hr.find]
    rfl
  | findPrevious X =>
    refine ⟨h, ?_, hr, Outside.refl L h ns⟩
    rw [run, hr.findPrevious]
    rfl

theorem run_not_allocated {x : Command A E} (halloc : ¬ x.Allocated) (h : Heap A (Node A E)) :
    run h L x = none := by
  cases x with
  | insert X P block =>
    cases block with
    | none => exact insert_null h X L P
    | some block => exact absurd (Option.some_ne_none block) halloc
  | _ => exact absurd trivial halloc

end Operations

section Runs

variable [DecidableEq E] {L : A} {h : Heap A (Node A E)} {ns : List (A × E)}
  {cs : List (Command A E)} {s : State A E}

theorem exec_crashed (hrun : Run.exec (step L) (State.crashed : State A E) cs = some s) :
    s = .crashed := by
  induction cs with
  | nil => cases hrun; rfl
  | cons x cs ih =>
    obtain ⟨m, hm, hrest⟩ := Run.exec_cons.mp hrun
    cases hm
    exact ih hrest

/-- As long as there is memory the list goes through the sequences.  After that nothing runs. -/
theorem Represents.exec (hr : Represents L h ns) (hplaced : AllPlaced L ns cs)
    (hrun : Run.exec (LinkList.step L) (.running h) cs = some s) :
    ((∀ x ∈ cs, x.Allocated) → ∃ h', s = .running h' ∧ Represents L h' (nodesAfter L ns cs) ∧
      Outside L h ns h' (nodesAfter L ns cs)) ∧
    ((∃ x ∈ cs, ¬ x.Allocated) → s = .crashed) := by
  induction cs generalizing h ns with
  | nil =>
    cases hrun
    exact ⟨fun _ => ⟨h, rfl, hr, Outside.refl L h ns⟩, fun h => by simp at h⟩
  | cons x cs ih =>
    obtain ⟨m, hm, hrest⟩ := Run.exec_cons.mp hrun
    obtain ⟨hpossible, rfl⟩ := step_running hm
    by_cases halloc : x.Allocated
    · obtain ⟨h', hrun', hr', hout⟩ := hr.step hplaced.1 hpossible halloc
      rw [hrun'] at hrest
      obtain ⟨hgood, hbad⟩ := ih hr' hplaced.2 hrest
      constructor
      · intro hall
        obtain ⟨h'', hs, hr'', hout'⟩ := hgood fun y hy => hall y (List.mem_cons_of_mem x hy)
        exact ⟨h'', hs, hr'', hout.trans hout'⟩
      · rintro ⟨y, hy, hnot⟩
        rcases List.mem_cons.mp hy with rfl | hy
        · exact absurd halloc hnot
        · exact hbad ⟨y, hy, hnot⟩
    · rw [run_not_allocated halloc h] at hrest
      exact ⟨fun hall => absurd (hall x List.mem_cons_self) halloc, fun _ => exec_crashed hrest⟩

/-- The list at `L` is the sequence `ns`, and every call that reads it says so. -/
structure IsSequence (L : A) (h : Heap A (Node A E)) (ns : List (A × E)) : Prop where
  represents : Represents L h ns
  find : ∀ X, find h L X = some (firstNode X ns)
  findPrevious : ∀ X, findPrevious h L X = some (nodeBefore L X ns)
  isEmpty : isEmpty h L = some ns.isEmpty
  isLast : ∀ P ∈ L :: ns.map Prod.fst,
    isLast h P L = some (decide (P = (ns.map Prod.fst).getLastD L))

theorem Represents.isSequence (hr : Represents L h ns) : IsSequence L h ns :=
  ⟨hr, hr.find, hr.findPrevious, hr.isEmpty, fun _ hP => hr.isLast hP⟩

/-- After any sequence of calls the list is the sequence they make, and nothing outside it has
changed, if and only if no `malloc` returned NULL. -/
theorem list_is_sequence_iff (hstart : Represents L h ns) (hplaced : AllPlaced L ns cs)
    (hrun : Run.exec (step L) (.running h) cs = some s) :
    (∃ h', s = .running h' ∧ IsSequence L h' (nodesAfter L ns cs) ∧
      Outside L h ns h' (nodesAfter L ns cs)) ↔ ∀ x ∈ cs, x.Allocated := by
  obtain ⟨hgood, hbad⟩ := hstart.exec hplaced hrun
  constructor
  · rintro ⟨h', rfl, -⟩ x hx
    by_contra halloc
    cases hbad ⟨x, hx, halloc⟩
  · intro hall
    obtain ⟨h', hs, hr, hout⟩ := hgood hall
    exact ⟨h', hs, hr.isSequence, hout⟩

end Runs

structure Address where
  number : Nat
  deriving DecidableEq

instance : Zero Address := ⟨⟨0⟩⟩

def headerOnly : Heap Address (Node Address Nat) :=
  AList.insert ⟨9⟩ ⟨5, ⟨1⟩⟩ (AList.singleton ⟨1⟩ ⟨0, 0⟩)

theorem headerOnly_represents : Represents (Address.mk 1) headerOnly [] where
  linked := .cons (c := ⟨0, 0⟩) rfl (.nil 0)
  holds n hn := by cases hn

def insertTwice : List (Command Address Nat) :=
  [.insert 5 ⟨1⟩ (some (⟨2⟩, ⟨7, ⟨7⟩⟩)), .insert 6 ⟨2⟩ (some (⟨3⟩, ⟨7, ⟨7⟩⟩)), .delete 5]

theorem list_is_sequence_after_delete : ∃ h,
    Run.exec (step (Address.mk 1)) (.running headerOnly) insertTwice = some (.running h) ∧
      IsSequence ⟨1⟩ h [(⟨3⟩, 6)] ∧ Outside ⟨1⟩ headerOnly [] h [(⟨3⟩, 6)] := by
  obtain ⟨s, hs⟩ : ∃ s, Run.exec (step (Address.mk 1)) (.running headerOnly) insertTwice = some s :=
    Option.isSome_iff_exists.mp (by decide +kernel)
  have hplaced : AllPlaced (Address.mk 1) [] insertTwice := by
    refine ⟨List.mem_cons_self, ?_, trivial, trivial⟩
    exact List.mem_cons_of_mem _ List.mem_cons_self
  have hall : ∀ x ∈ insertTwice, x.Allocated := by
    simp [insertTwice, Command.Allocated]
  obtain ⟨h, rfl, hsequence⟩ := (list_is_sequence_iff headerOnly_represents hplaced hs).mpr hall
  exact ⟨h, hs, hsequence⟩

/-- `Insert` stores through what `malloc` returns. -/
theorem insert_without_memory_crashes : Represents (Address.mk 1) headerOnly [] ∧
    AllPlaced (Address.mk 1) [] [Command.insert 5 ⟨1⟩ none] ∧
      Run.exec (step (Address.mk 1)) (.running headerOnly) [.insert 5 ⟨1⟩ none] = some .crashed :=
  ⟨headerOnly_represents, ⟨List.mem_cons_self, trivial⟩, rfl⟩

end LearnCLinux.LinkList
