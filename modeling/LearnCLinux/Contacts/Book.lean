import LearnCLinux.Contacts.Operations
import LearnCLinux.Library.OrderedMap
import Mathlib.Data.List.Induction

/-! The contact book as a map in the order of insertion. -/

namespace LearnCLinux.Contacts

open LinkedList OrderedMap

abbrev Entry := CString × CString

def ShortEntry (e : Entry) : Prop := e.1.length < nameSize ∧ e.2.length < numberSize

namespace Command

def name : Command → CString
  | .addPerson name _ _ => name
  | .delPerson name => name
  | .findPerson name => name
  | .changePerson name _ => name

def Short : Command → Prop
  | .addPerson name number _ => ShortEntry (name, number)
  | .delPerson name => name.length < nameSize
  | .findPerson name => name.length < nameSize
  | .changePerson name number => ShortEntry (name, number)

def apply (book : List Entry) : Command → List Entry
  | .addPerson name number _ => add book name number
  | .delPerson name => remove book name
  | .findPerson _ => book
  | .changePerson name number => change book name number

instance : (x : Command) → Decidable x.Short
  | .addPerson _ _ _ => instDecidableAnd
  | .delPerson _ => Nat.decLt ..
  | .findPerson _ => Nat.decLt ..
  | .changePerson _ _ => instDecidableAnd

/-- What is deleted is there, and there is memory for what is added. -/
def Safe (book : List Entry) : Command → Prop
  | .addPerson name _ block => block = none → name ∈ keys book
  | .delPerson name => name ∈ keys book
  | .findPerson _ => True
  | .changePerson _ _ => True

end Command

def createdBy (m : Memory) (contacts : Position) : Command → List Position
  | .addPerson name _ (some (p, _)) => if findPerson m contacts name = some 0 then [p] else []
  | _ => []

def bookAfter (cs : List Command) : List Entry := cs.foldl Command.apply []

def Holds (m : Memory) (p : Position) (e : Entry) : Prop :=
  ∃ b, m.load p = some b ∧ b.Reads nameAt e.1 ∧ b.Reads numberAt e.2

/-- The nodes behind the header are the entries of `book`, in its order and with distinct names,
and they are what `findPerson` finds. -/
structure IsBook (c : Start) (m : Memory) (book : List Entry) : Prop where
  nodes : ∃ nodes : List (Position × Entry), nodes.map Prod.snd = book ∧
    Segment Person.next m.heap c.contacts (c.contacts :: nodes.map Prod.fst) 0 ∧
      ∀ n ∈ nodes, Holds m n.1 n.2
  distinct : (keys book).Nodup
  finds : ∀ name number, name.length < nameSize → ¬ c.header.Reads nameAt name →
    (name, number) ∈ book →
      ∃ p, findPerson m c.contacts name = some p ∧ Holds m p (name, number)
  finds_none : ∀ name, name.length < nameSize → ¬ c.header.Reads nameAt name →
    name ∉ keys book → findPerson m c.contacts name = some 0

structure Represents (c : Start) (m : Memory) (nodes : List (Position × Entry)) : Prop where
  linked : Segment Person.next m.heap c.contacts (c.contacts :: nodes.map Prod.fst) 0
  holds : ∀ n ∈ nodes, Holds m n.1 n.2
  short : ∀ n ∈ nodes, ShortEntry n.2
  distinct : (keys (nodes.map Prod.snd)).Nodup
  header : ∃ b, m.load c.contacts = some b ∧ b.text = c.header.text

section Finding

variable {c : Start} {m m' : Memory} {nodes ns₁ ns₂ : List (Position × Entry)} {p : Position}
  {name number : CString}

theorem short_before_next (h : name.length < nameSize) : nameAt + name.length < nextAt :=
  name_before_next (Nat.lt_add_right _ h)

theorem ShortEntry.inside (h : ShortEntry (name, number)) :
    nameAt + name.length < 32 ∧ numberAt + number.length < 32 :=
  ⟨before_end (short_before_next h.1), before_end (number_before_next h.2)⟩

theorem Represents.not_reads (hr : Represents c m nodes) (hname : name.length < nameSize)
    (hheader : ¬ c.header.Reads nameAt name) {q : Position} {b : Person} (hb : m.load q = some b)
    (hq : q = c.contacts ∨ ∃ n ∈ nodes, n.1 = q ∧ n.2.1 ≠ name) : ¬ b.Reads nameAt name := by
  rcases hq with rfl | ⟨n, hn, rfl, hne⟩
  · obtain ⟨b', hb', htext⟩ := hr.header
    cases hb'.symm.trans hb
    rwa [Person.reads_congr htext (short_before_next hname)]
  · obtain ⟨b', hb', hreads, -⟩ := hr.holds n hn
    cases hb'.symm.trans hb
    exact fun h => hne (hreads.unique h)

theorem Represents.findPerson_none (hr : Represents c m nodes) (hname : name.length < nameSize)
    (hheader : ¬ c.header.Reads nameAt name) (habsent : name ∉ keys (nodes.map Prod.snd)) :
    findPerson m c.contacts name = some 0 := by
  have hne := not_mem_keys.mp habsent
  obtain ⟨ps, a, heq⟩ := exists_last c.contacts (nodes.map Prod.fst)
  have hlinked := hr.linked
  rw [heq] at hlinked
  apply findPerson_absent (before_end (short_before_next hname)) hlinked
  intro q hq b hb
  rw [← heq] at hq
  apply hr.not_reads hname hheader hb
  rcases List.mem_cons.mp hq with rfl | hq
  · exact .inl rfl
  · obtain ⟨n, hn, rfl⟩ := List.mem_map.mp hq
    exact .inr ⟨n, hn, rfl, hne n.2 (List.mem_map_of_mem hn)⟩

theorem Represents.findPerson_some (hr : Represents c m (ns₁ ++ (p, name, number) :: ns₂))
    (hheader : ¬ c.header.Reads nameAt name) : findPerson m c.contacts name = some p := by
  have hmem : (p, name, number) ∈ ns₁ ++ (p, name, number) :: ns₂ := by simp
  have hname := (hr.short _ hmem).1
  have hdistinct := hr.distinct
  rw [List.map_append, List.map_cons, nodup_append_cons] at hdistinct
  have hne := not_mem_keys.mp hdistinct.2
  have hlinked := hr.linked
  rw [List.map_append, List.map_cons, ← List.cons_append, List.append_cons] at hlinked
  obtain ⟨q, hfirst, -⟩ := hlinked.split
  apply findPerson_found (before_end (short_before_next hname)) hfirst
  · intro a ha b hb
    apply hr.not_reads hname hheader hb
    rcases List.mem_cons.mp ha with rfl | ha
    · exact .inl rfl
    · obtain ⟨n, hn, rfl⟩ := List.mem_map.mp ha
      refine .inr ⟨n, List.mem_append_left _ hn, rfl, hne n.2 ?_⟩
      exact List.mem_append_left _ (List.mem_map_of_mem hn)
  · intro b hb
    obtain ⟨b', hb', hreads, -⟩ := hr.holds _ hmem
    cases hb'.symm.trans hb
    exact hreads

theorem exists_node (h : name ∈ keys (nodes.map Prod.snd)) :
    ∃ ns₁ p number ns₂, nodes = ns₁ ++ (p, name, number) :: ns₂ := by
  obtain ⟨e, he, rfl⟩ := List.mem_map.mp h
  obtain ⟨n, hn, rfl⟩ := List.mem_map.mp he
  obtain ⟨ns₁, ns₂, rfl⟩ := List.append_of_mem hn
  exact ⟨ns₁, n.1, n.2.2, ns₂, rfl⟩

theorem Represents.isBook (hr : Represents c m nodes) : IsBook c m (nodes.map Prod.snd) where
  nodes := ⟨nodes, rfl, hr.linked, hr.holds⟩
  distinct := hr.distinct
  finds name number hname hheader hmem := by
    obtain ⟨n, hn, heq⟩ := List.mem_map.mp hmem
    obtain ⟨ns₁, ns₂, rfl⟩ := List.append_of_mem hn
    obtain ⟨p, e⟩ := n
    cases heq
    exact ⟨p, hr.findPerson_some hheader, hr.holds _ hn⟩
  finds_none name hname hheader habsent := hr.findPerson_none hname hheader habsent

end Finding

section Steps

variable {c : Start} {m m' : Memory} {nodes nodes' ns₁ ns₂ : List (Position × Entry)}
  {p q : Position} {name number : CString} {b : Person} {e : Entry}

def KeepsText (m m' : Memory) (q : Position) : Prop :=
  ∀ e, m.load q = some e → ∃ e', m'.load q = some e' ∧ e'.text = e.text

theorem Holds.of_text (hh : Holds m p e) (hshort : ShortEntry e) (htext : KeepsText m m' p) :
    Holds m' p e := by
  obtain ⟨b, hb, hname, hnumber⟩ := hh
  obtain ⟨b', hb', heq⟩ := htext b hb
  refine ⟨b', hb', ?_, ?_⟩
  · rwa [Person.reads_congr heq (short_before_next hshort.1)]
  · rwa [Person.reads_congr heq (number_before_next hshort.2)]

theorem Represents.of_nodes (hr : Represents c m nodes)
    (hlinked : Segment Person.next m'.heap c.contacts (c.contacts :: nodes'.map Prod.fst) 0)
    (hnodes : ∀ n ∈ nodes', n ∈ nodes ∧ KeepsText m m' n.1 ∨ Holds m' n.1 n.2 ∧ ShortEntry n.2)
    (hdistinct : (keys (nodes'.map Prod.snd)).Nodup) (hheader : KeepsText m m' c.contacts) :
    Represents c m' nodes' where
  linked := hlinked
  holds n hn := by
    rcases hnodes n hn with ⟨hold, htext⟩ | ⟨hnew, -⟩
    · exact (hr.holds n hold).of_text (hr.short n hold) htext
    · exact hnew
  short n hn := by
    rcases hnodes n hn with ⟨hold, -⟩ | ⟨-, hnew⟩
    · exact hr.short n hold
    · exact hnew
  distinct := hdistinct
  header := by
    obtain ⟨b, hb, htext⟩ := hr.header
    obtain ⟨b', hb', heq⟩ := hheader b hb
    exact ⟨b', hb', heq.trans htext⟩

theorem Represents.add (hr : Represents c m nodes) (hshort : ShortEntry (name, number))
    (hheader : ¬ c.header.Reads nameAt name) (habsent : name ∉ keys (nodes.map Prod.snd))
    (hp : m.heap.Fresh p) : ∃ m', addPerson m c.contacts name number (some (p, b)) = some m' ∧
      Represents c m' (nodes ++ [(p, name, number)]) := by
  have hinside := hshort.inside
  obtain ⟨ps, a, heq⟩ := exists_last c.contacts (nodes.map Prod.fst)
  have hlinked := hr.linked
  rw [heq] at hlinked
  obtain ⟨d, ha⟩ := hlinked.load (List.mem_append_right _ List.mem_cons_self)
  have hlast := findPervious_eq hlinked hlinked.zero_not_mem
  have hkept : ∀ q, KeepsText m (added m a d p b name number hinside) q := by
    intro q e he
    obtain ⟨e', he', htext, -⟩ := load_added ha hp he
    exact ⟨e', he', htext⟩
  refine ⟨added m a d p b name number hinside, ?_, hr.of_nodes ?_ ?_ ?_ (hkept _)⟩
  · rw [addPerson_absent (hr.findPerson_none hshort.1 hheader habsent) hlast ha hp,
      dif_pos hinside]
  · rw [List.map_append, ← List.cons_append, heq]
    exact segment_added hlinked ha hp
  · intro n hn
    rcases List.mem_append.mp hn with hn | hn
    · exact .inl ⟨hn, hkept n.1⟩
    · cases List.mem_singleton.mp hn
      refine .inr ⟨⟨_, load_added_new ha hp, ?_, ?_⟩, hshort⟩
      · rw [Person.reads_congr (Person.text_setNext ..) (short_before_next hshort.1)]
        exact Person.reads_name_enter_iff.mpr (.inl hshort.1)
      · rw [Person.reads_congr (Person.text_setNext ..) (number_before_next hshort.2)]
        exact Person.reads_number_enter
  · rw [List.map_append, List.map_singleton, nodup_append_cons, List.append_nil]
    exact ⟨hr.distinct, habsent⟩

theorem Represents.ne_of_mem (hr : Represents c m (ns₁ ++ (p, e) :: ns₂)) (hq : q = c.contacts ∨
    q ∈ (ns₁ ++ ns₂).map Prod.fst) : q ≠ p := by
  have hnodup := hr.linked.nodup
  rw [List.map_append, List.map_cons, ← List.cons_append, List.nodup_middle,
    List.nodup_cons, List.cons_append, ← List.map_append] at hnodup
  rintro rfl
  exact hnodup.1 (List.mem_cons.mpr hq)

theorem Represents.findPervious_some (hr : Represents c m (ns₁ ++ (p, e) :: ns₂)) :
    ∃ ps a, c.contacts :: ns₁.map Prod.fst = ps ++ [a] ∧ findPervious m c.contacts p = some a := by
  obtain ⟨ps, a, heq⟩ := exists_last c.contacts (ns₁.map Prod.fst)
  have hlinked := hr.linked
  rw [List.map_append, List.map_cons, ← List.cons_append, heq] at hlinked
  obtain ⟨r, hfirst, hrest⟩ := hlinked.split
  refine ⟨ps, a, heq, ?_⟩
  cases hrest with
  | cons =>
    apply findPervious_eq hfirst
    rw [← heq]
    intro hmem
    refine hr.ne_of_mem ((List.mem_cons.mp hmem).imp_right fun hold => ?_) rfl
    rw [List.map_append]
    exact List.mem_append_left _ hold

theorem Represents.del (hr : Represents c m (ns₁ ++ (p, name, number) :: ns₂))
    (hheader : ¬ c.header.Reads nameAt name) :
    ∃ m', delPerson m c.contacts name = some m' ∧ Represents c m' (ns₁ ++ ns₂) := by
  obtain ⟨b, hb, -⟩ := hr.holds (p, name, number) (by simp)
  obtain ⟨ps, a, heq, hprev⟩ := hr.findPervious_some
  have hlinked := hr.linked
  rw [List.map_append, List.map_cons, ← List.cons_append, heq] at hlinked
  obtain ⟨r, hfirst, -⟩ := hlinked.split
  obtain ⟨d, ha⟩ := hfirst.load (List.mem_append_right _ List.mem_cons_self)
  have hpa : p ≠ a := by
    have hmem : a ∈ c.contacts :: ns₁.map Prod.fst := by simp [heq]
    apply (hr.ne_of_mem _).symm
    rw [List.map_append, List.mem_append]
    exact (List.mem_cons.mp hmem).imp_right .inl
  have hkept : ∀ q, q = c.contacts ∨ q ∈ (ns₁ ++ ns₂).map Prod.fst →
      KeepsText m (deleted m a d p b) q :=
    fun q hq e he => load_deleted ha (hr.ne_of_mem hq) he
  have hdistinct := hr.distinct
  rw [List.map_append, List.map_cons, nodup_append_cons, ← List.map_append] at hdistinct
  refine ⟨deleted m a d p b, delPerson_found (hr.findPerson_some hheader) hprev ha hb hpa,
    hr.of_nodes ?_ ?_ hdistinct.1 (hkept _ (.inl rfl))⟩
  · rw [List.map_append, ← List.cons_append, heq]
    exact segment_deleted hlinked ha hb
  · intro n hn
    refine .inl ⟨?_, hkept n.1 (.inr (List.mem_map_of_mem hn))⟩
    rw [List.mem_append, List.mem_cons]
    exact (List.mem_append.mp hn).imp_right .inr

theorem Represents.change {old : CString} (hr : Represents c m (ns₁ ++ (p, name, old) :: ns₂))
    (hheader : ¬ c.header.Reads nameAt name) (hshort : ShortEntry (name, number)) :
    ∃ m', changePerson m c.contacts name number = some m' ∧
      Represents c m' (ns₁ ++ (p, name, number) :: ns₂) := by
  obtain ⟨b, hb, -⟩ := hr.holds (p, name, old) (by simp)
  have hinside := hshort.inside
  have hself : Heap.load (m.heap.insert p (b.enter name number hinside)) p =
      some (b.enter name number hinside) := Heap.load_insert (Heap.ne_zero_of_load hb)
  have hkept : ∀ q, q = c.contacts ∨ q ∈ (ns₁ ++ ns₂).map Prod.fst →
      KeepsText m ⟨m.heap.insert p (b.enter name number hinside),
        m.stores ++ entered p name number⟩ q :=
    fun q hq e he => ⟨e, (Heap.load_insert_of_ne (hr.ne_of_mem hq)).trans he, rfl⟩
  have hdistinct := hr.distinct
  rw [List.map_append, List.map_cons, nodup_append_cons] at hdistinct
  refine ⟨_, changePerson_found (hr.findPerson_some hheader) hb hinside,
    hr.of_nodes ?_ ?_ ?_ (hkept _ (.inl rfl))⟩
  · have hlinked := hr.linked
    rw [List.map_append, List.map_cons] at hlinked ⊢
    apply hlinked.congr
    intro q _
    by_cases hqp : q = p
    · subst hqp
      have hload : m.heap.load q = some b := hb
      rw [hself, hload, Option.map_some, Option.map_some,
        Person.next_enter (short_before_next hshort.1) (number_before_next hshort.2)]
    · exact congrArg _ (Heap.load_insert_of_ne hqp)
  · intro n hn
    rw [List.mem_append, List.mem_cons] at hn
    obtain rfl | hn : n = (p, name, number) ∨ n ∈ ns₁ ++ ns₂ := by
      rw [List.mem_append]
      tauto
    · refine .inr ⟨⟨_, hself, ?_, Person.reads_number_enter⟩, hshort⟩
      exact Person.reads_name_enter_iff.mpr (.inl hshort.1)
    · refine .inl ⟨?_, hkept n.1 (.inr (List.mem_map_of_mem hn))⟩
      rw [List.mem_append, List.mem_cons]
      exact (List.mem_append.mp hn).imp_right .inr
  · rw [List.map_append, List.map_cons, nodup_append_cons]
    exact hdistinct

theorem Represents.step (hr : Represents c m nodes) {x : Command} (hshort : x.Short)
    (hheader : ¬ c.header.Reads nameAt x.name) (hpossible : Possible m x)
    (hsafe : x.Safe (nodes.map Prod.snd)) :
    ∃ m' nodes', run m c.contacts x = some m' ∧ Represents c m' nodes' ∧
      nodes'.map Prod.snd = x.apply (nodes.map Prod.snd) ∧
      nodes'.map Prod.fst ⊆ nodes.map Prod.fst ++ createdBy m c.contacts x := by
  have hsame : nodes.map Prod.fst ⊆ nodes.map Prod.fst ++ createdBy m c.contacts x :=
    List.subset_append_left ..
  cases x with
  | addPerson name number block =>
    by_cases hname : name ∈ keys (nodes.map Prod.snd)
    · obtain ⟨ns₁, p, old, ns₂, rfl⟩ := exists_node hname
      obtain ⟨b, hb, -⟩ := hr.holds (p, name, old) (by simp)
      refine ⟨m, _, ?_, hr, (add_of_mem hname).symm, hsame⟩
      exact addPerson_found (hr.findPerson_some hheader) (Heap.ne_zero_of_load hb) block
    · cases block with
      | none => exact absurd (hsafe rfl) hname
      | some block =>
        obtain ⟨p, b⟩ := block
        obtain ⟨m', hm', hr'⟩ := hr.add (b := b) hshort hheader hname hpossible
        refine ⟨m', _, hm', hr', ?_, ?_⟩
        · rw [Command.apply, add_of_not_mem hname, List.map_append]
          rfl
        · rw [createdBy, if_pos (hr.findPerson_none hshort.1 hheader hname), List.map_append]
          exact List.Subset.refl _
  | delPerson name =>
    obtain ⟨ns₁, p, old, ns₂, rfl⟩ := exists_node hsafe
    obtain ⟨m', hm', hr'⟩ := hr.del hheader
    have hdistinct := hr.distinct
    rw [List.map_append, List.map_cons] at hdistinct
    refine ⟨m', _, hm', hr', ?_, fun q hq => hsame ?_⟩
    · rw [Command.apply, List.map_append, List.map_append, List.map_cons, remove_append hdistinct]
    · rw [List.map_append, List.map_cons, List.mem_append, List.mem_cons]
      rw [List.map_append, List.mem_append] at hq
      exact hq.imp_right .inr
  | findPerson name =>
    by_cases hname : name ∈ keys (nodes.map Prod.snd)
    · obtain ⟨ns₁, p, old, ns₂, rfl⟩ := exists_node hname
      refine ⟨m, _, ?_, hr, rfl, hsame⟩
      rw [run, hr.findPerson_some hheader, Option.map_some]
    · refine ⟨m, _, ?_, hr, rfl, hsame⟩
      rw [run, hr.findPerson_none hshort hheader hname, Option.map_some]
  | changePerson name number =>
    by_cases hname : name ∈ keys (nodes.map Prod.snd)
    · obtain ⟨ns₁, p, old, ns₂, rfl⟩ := exists_node hname
      obtain ⟨m', hm', hr'⟩ := hr.change hheader hshort
      have hdistinct := hr.distinct
      rw [List.map_append, List.map_cons] at hdistinct
      refine ⟨m', _, hm', hr', ?_, fun q hq => hsame ?_⟩
      · rw [Command.apply, List.map_append, List.map_append, List.map_cons, List.map_cons,
          change_append hdistinct]
      · rwa [List.map_append, List.map_cons] at hq ⊢
    · refine ⟨m, _, ?_, hr, (change_of_not_mem hname).symm, hsame⟩
      exact changePerson_absent (hr.findPerson_none hshort.1 hheader hname)

theorem Represents.crash (hr : Represents c m nodes) {x : Command} (hshort : x.Short)
    (hheader : ¬ c.header.Reads nameAt x.name) (hbroken : ¬ x.Safe (nodes.map Prod.snd)) :
    run m c.contacts x = none := by
  cases x with
  | addPerson name number block =>
    rw [Command.Safe, Classical.not_imp] at hbroken
    obtain ⟨rfl, habsent⟩ := hbroken
    exact addPerson_null (hr.findPerson_none hshort.1 hheader habsent)
  | delPerson name => exact delPerson_absent (hr.findPerson_none hshort hheader hbroken)
  | findPerson name => exact absurd trivial hbroken
  | changePerson name number => exact absurd trivial hbroken

end Steps

section Runs

variable {c : Start} {cs : List Command} {s : State}

def AllSafe (cs : List Command) : Prop :=
  ∀ xs x ys, cs = xs ++ x :: ys → x.Safe (bookAfter xs)

theorem allSafe_nil : AllSafe [] := by
  intro xs x ys heq
  simp at heq

theorem allSafe_concat {x : Command} :
    AllSafe (cs ++ [x]) ↔ AllSafe cs ∧ x.Safe (bookAfter cs) := by
  constructor
  · intro h
    refine ⟨fun xs y ys heq => h xs y (ys ++ [x]) ?_, h cs x [] rfl⟩
    rw [heq, List.append_assoc, List.cons_append]
  · rintro ⟨h, hlast⟩ xs y ys heq
    rcases List.eq_nil_or_concat' ys with rfl | ⟨ys, z, rfl⟩
    · obtain ⟨rfl, htail⟩ := List.append_inj' heq rfl
      cases htail
      exact hlast
    · rw [← List.cons_append, ← List.append_assoc] at heq
      exact h xs y ys (List.append_inj' heq rfl).1

theorem start_represents (hnext : c.header.next = 0) :
    Represents c ⟨AList.singleton c.contacts c.header, []⟩ [] where
  linked := by
    have hload : Heap.load (AList.singleton c.contacts c.header) c.contacts = some c.header :=
      Heap.load_insert (h := ∅) c.contacts_ne_null
    have hseg : Segment Person.next (AList.singleton c.contacts c.header) c.contacts [c.contacts]
        c.header.next := .cons hload (.nil _)
    rwa [hnext] at hseg
  holds n hn := by cases hn
  short n hn := by cases hn
  distinct := List.nodup_nil
  header := ⟨c.header, Heap.load_insert (h := ∅) c.contacts_ne_null, rfl⟩

/-- As long as all is safe the list represents the map.  After that nothing runs. -/
theorem exec_represents (hnext : c.header.next = 0) (hshort : ∀ x ∈ cs, x.Short)
    (hheader : ∀ x ∈ cs, ¬ c.header.Reads nameAt x.name)
    (hrun : Run.exec (step c.contacts) (start c) cs = some s) :
    (AllSafe cs → ∃ m nodes, s = .running m ∧ Represents c m nodes ∧
      nodes.map Prod.snd = bookAfter cs) ∧ (¬ AllSafe cs → s = .crashed) := by
  induction cs using List.reverseRecOn generalizing s with
  | nil =>
    cases hrun
    exact ⟨fun _ => ⟨_, [], rfl, start_represents hnext, rfl⟩, fun h => absurd allSafe_nil h⟩
  | append_singleton cs x ih =>
    obtain ⟨s₀, hs₀, hlast⟩ := Run.exec_append.mp hrun
    obtain ⟨s₁, hs₁, hnil⟩ := Run.exec_cons.mp hlast
    cases hnil
    obtain ⟨hgood, hbad⟩ := ih (fun y hy => hshort y (List.mem_append_left _ hy))
      (fun y hy => hheader y (List.mem_append_left _ hy)) hs₀
    have hx : x ∈ cs ++ [x] := List.mem_append_right _ List.mem_cons_self
    rw [allSafe_concat]
    by_cases hsafe : AllSafe cs
    · obtain ⟨m, nodes, rfl, hr, hbook⟩ := hgood hsafe
      obtain ⟨hpossible, rfl⟩ := step_running hs₁
      rw [← hbook]
      constructor
      · rintro ⟨-, hnow⟩
        obtain ⟨m', nodes', hm', hr', hbook', -⟩ :=
          hr.step (hshort x hx) (hheader x hx) hpossible hnow
        refine ⟨m', nodes', by rw [hm']; rfl, hr', ?_⟩
        rw [hbook', hbook, bookAfter, bookAfter, List.foldl_append]
        rfl
      · intro hbroken
        rw [hr.crash (hshort x hx) (hheader x hx) fun hnow => hbroken ⟨hsafe, hnow⟩]
        rfl
    · cases hbad hsafe
      cases hs₁
      exact ⟨fun h => absurd h.1 hsafe, fun _ => rfl⟩

/-- After any sequence of commands the list is the map they make, if and only if each contact to be
deleted was there, and no `malloc` for a new one returned NULL. -/
theorem book_is_map_iff (hnext : c.header.next = 0) (hshort : ∀ x ∈ cs, x.Short)
    (hheader : ∀ x ∈ cs, ¬ c.header.Reads nameAt x.name)
    (hrun : Run.exec (step c.contacts) (start c) cs = some s) :
    (∃ m, s = .running m ∧ IsBook c m (bookAfter cs)) ↔ AllSafe cs := by
  obtain ⟨hgood, hbad⟩ := exec_represents hnext hshort hheader hrun
  constructor
  · rintro ⟨m, rfl, -⟩
    by_contra hbroken
    cases hbad hbroken
  · intro hsafe
    obtain ⟨m, nodes, rfl, hr, hbook⟩ := hgood hsafe
    exact ⟨m, rfl, hbook ▸ hr.isBook⟩

end Runs

theorem book_is_map_after_delete : ∃ s m, Run.exec (step emptyBook.contacts) (start emptyBook)
    [.addPerson nineLetters tenDigits (some (address 2, dirty)), .delPerson nineLetters] = some s ∧
      s = .running m ∧ IsBook emptyBook m [] := by
  obtain ⟨s, hs⟩ := Option.isSome_iff_exists.mp
    (show (Run.exec (step emptyBook.contacts) (start emptyBook)
      [.addPerson nineLetters tenDigits (some (address 2, dirty)),
        .delPerson nineLetters]).isSome = true by decide +kernel)
  have hsafe : AllSafe [.addPerson nineLetters tenDigits (some (address 2, dirty)),
      .delPerson nineLetters] := by
    have hfirst : AllSafe ([] ++ [.addPerson nineLetters tenDigits (some (address 2, dirty))]) :=
      allSafe_concat.mpr ⟨allSafe_nil, fun h => by cases h⟩
    exact allSafe_concat.mpr ⟨hfirst, List.mem_cons_self⟩
  obtain ⟨m, hm, hbook⟩ := (book_is_map_iff rfl (by decide) (by decide +kernel) hs).mpr hsafe
  exact ⟨s, m, hs, hm, hbook⟩

/-- With no contact of that name `find_pervious` returns the last node, here the header, and the
link of NULL is read. -/
theorem absent_delete_crashes : ∃ m, start emptyBook = .running m ∧
    findPerson m emptyBook.contacts nineLetters = some 0 ∧
      findPervious m emptyBook.contacts 0 = some emptyBook.contacts ∧ m.load 0 = none ∧
        Run.exec (step emptyBook.contacts) (start emptyBook) [.delPerson nineLetters] =
          some .crashed := by
  refine ⟨_, rfl, by decide +kernel, by decide +kernel, rfl, rfl⟩

end LearnCLinux.Contacts
