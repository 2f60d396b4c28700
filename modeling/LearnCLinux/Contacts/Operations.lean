import LearnCLinux.Contacts.Code

/-! What the functions of `contacts.c` do to a list. -/

namespace LearnCLinux.Contacts

open LinkedList Terminated

def Person.enter (b : Person) (name number : CString)
    (h : nameAt + name.length < 32 ∧ numberAt + number.length < 32) : Person :=
  (b.write nameAt name.bytes h.1).write numberAt number.bytes h.2

def entered (p : Position) (name number : CString) : List (Position × Nat) :=
  stored p nameAt name.bytes ++ stored p numberAt number.bytes

def added (m : Memory) (a : Position) (d : Person) (p : Position) (b : Person)
    (name number : CString)
    (h : nameAt + name.length < 32 ∧ numberAt + number.length < 32) : Memory where
  heap := (m.heap.insert p ((b.enter name number h).setNext 0)).insert a (d.setNext p)
  stores := m.stores ++ entered p name number

def deleted (m : Memory) (a : Position) (d : Person) (p : Position) (b : Person) : Memory :=
  { m with heap := AList.erase p (m.heap.insert a (d.setNext b.next)) }

variable {m : Memory} {contacts p q a : Position} {name number : CString} {b d e : Person}
  {ps : List Position} {h : nameAt + name.length < 32 ∧ numberAt + number.length < 32}

section Finding

theorem findPerson_found (hname : nameAt + name.length < 32)
    (hseg : Segment Person.next m.heap contacts (ps ++ [p]) q)
    (hother : ∀ a ∈ ps, ∀ b, m.load a = some b → ¬ b.Reads nameAt name)
    (hp : ∀ b, m.load p = some b → b.Reads nameAt name) : findPerson m contacts name = some p := by
  apply findPerson_iff.mpr
  refine ⟨ps ++ [p], hseg.walk ?_ ?_⟩
  · intro a ha b hb
    have hnext : b.next ≠ 0 := by
      intro hzero
      have hmem := hseg.next_mem ha hb
      rw [hzero] at hmem
      exact hseg.zero_not_mem hmem
    rw [compareName_eq hname, if_neg (hother a ha b hb), if_neg hnext]
  · intro b hb
    rw [compareName_eq hname, if_pos (hp b hb)]

theorem findPerson_absent (hname : nameAt + name.length < 32)
    (hseg : Segment Person.next m.heap contacts (ps ++ [a]) 0)
    (hother : ∀ q ∈ ps ++ [a], ∀ b, m.load q = some b → ¬ b.Reads nameAt name) :
    findPerson m contacts name = some 0 := by
  apply findPerson_iff.mpr
  refine ⟨ps ++ [a], hseg.walk ?_ ?_⟩
  · intro q hq b hb
    have hnext : b.next ≠ 0 := by
      intro hzero
      have hmem := hseg.next_mem hq hb
      rw [hzero] at hmem
      exact hseg.zero_not_mem hmem
    rw [compareName_eq hname, if_neg (hother q (List.mem_append_left _ hq) b hb), if_neg hnext]
  · intro b hb
    rw [compareName_eq hname, if_neg (hother a (List.mem_append_right _ List.mem_cons_self) b hb),
      if_pos (hseg.next_last hb)]

end Finding

section Changing

theorem copy_eq (hb : m.load p = some b) (i : Nat) (s : CString) : m.strcpy p i s.bytes =
    if h : i + s.length < 32 then
      some ⟨m.heap.insert p (b.write i s.bytes h), m.stores ++ stored p i s.bytes⟩
    else none := strcpy_eq hb

theorem enter_eq (hb : m.load p = some b) (k : Memory → Option Memory) :
    ((m.strcpy p nameAt name.bytes).bind fun m => (m.strcpy p numberAt number.bytes).bind k) =
      if h : nameAt + name.length < 32 ∧ numberAt + number.length < 32 then
        k ⟨m.heap.insert p (b.enter name number h), m.stores ++ entered p name number⟩
      else none := by
  rw [copy_eq hb]
  by_cases hname : nameAt + name.length < 32
  · have hload : Memory.load ⟨m.heap.insert p (b.write nameAt name.bytes hname),
        m.stores ++ stored p nameAt name.bytes⟩ p = some (b.write nameAt name.bytes hname) :=
      Heap.load_insert (Heap.ne_zero_of_load hb)
    rw [dif_pos hname, Option.bind_some, copy_eq hload]
    by_cases hnumber : numberAt + number.length < 32
    · rw [dif_pos hnumber, dif_pos ⟨hname, hnumber⟩, Option.bind_some, AList.insert_insert,
        List.append_assoc]
      rfl
    · rw [dif_neg hnumber, dif_neg fun h => hnumber h.2]
      rfl
  · rw [dif_neg hname, dif_neg fun h => hname h.1]
    rfl

theorem setNext_eq (hb : m.load p = some b) :
    m.setNext p q = some { m with heap := m.heap.insert p (b.setNext q) } := by
  rw [Memory.setNext, hb]
  rfl

theorem addPerson_found (hfind : findPerson m contacts name = some p) (hp : p ≠ 0)
    (block : Option (Position × Person)) : addPerson m contacts name number block = some m := by
  rw [addPerson, hfind, Option.bind_some, if_pos hp]

theorem addPerson_null (hfind : findPerson m contacts name = some 0) :
    addPerson m contacts name number none = none := by
  have hcopy : m.strcpy 0 nameAt name.bytes = none := by
    cases name.bytes with
    | nil => rfl
    | cons => rfl
  rw [addPerson, hfind, Option.bind_some, if_neg (by simp)]
  cases findPervious m contacts 0 with
  | none => rfl
  | some a =>
    simp only [Memory.malloc, Option.bind_some, hcopy]
    rfl

theorem addPerson_absent (hfind : findPerson m contacts name = some 0)
    (hlast : findPervious m contacts 0 = some a) (ha : m.load a = some d) (hp : m.heap.Fresh p) :
    addPerson m contacts name number (some (p, b)) =
      if h : nameAt + name.length < 32 ∧ numberAt + number.length < 32 then
        some (added m a d p b name number h)
      else none := by
  have hload : Memory.load ⟨m.heap.insert p b, m.stores⟩ p = some b := Heap.load_insert hp.1
  rw [addPerson, hfind, Option.bind_some, if_neg (by simp), hlast, Option.bind_some]
  refine (enter_eq hload _).trans ?_
  split
  · next h =>
    have hentered : Memory.load ⟨(m.heap.insert p b).insert p (b.enter name number h),
        m.stores ++ entered p name number⟩ p = some (b.enter name number h) :=
      Heap.load_insert hp.1
    rw [setNext_eq hentered, Option.bind_some, AList.insert_insert, AList.insert_insert]
    apply setNext_eq
    exact (Heap.load_insert_of_ne (hp.ne ha)).trans ha
  · rfl

theorem delPerson_absent (hfind : findPerson m contacts name = some 0) :
    delPerson m contacts name = none := by
  rw [delPerson, hfind, Option.bind_some]
  cases findPervious m contacts 0 with
  | none => rfl
  | some a => rfl

theorem delPerson_found (hfind : findPerson m contacts name = some p)
    (hprev : findPervious m contacts p = some a) (ha : m.load a = some d) (hb : m.load p = some b)
    (hne : p ≠ a) : delPerson m contacts name = some (deleted m a d p b) := by
  have hload : Heap.load (m.heap.insert a (d.setNext b.next)) p = some b :=
    (Heap.load_insert_of_ne hne).trans hb
  rw [delPerson, hfind, Option.bind_some, hprev, Option.bind_some, hb, Option.bind_some,
    setNext_eq ha, Option.bind_some, Memory.free, Heap.free_of_load hload]
  rfl

theorem changePerson_absent (hfind : findPerson m contacts name = some 0) :
    changePerson m contacts name number = some m := by
  rw [changePerson, hfind, Option.bind_some, if_pos rfl]

theorem changePerson_found (hfind : findPerson m contacts name = some p) (hb : m.load p = some b)
    (h : nameAt + name.length < 32 ∧ numberAt + number.length < 32) :
    changePerson m contacts name number =
      some ⟨m.heap.insert p (b.enter name number h), m.stores ++ entered p name number⟩ := by
  rw [changePerson, hfind, Option.bind_some, if_neg (Heap.ne_zero_of_load hb)]
  have henter : ((m.strcpy p nameAt name.bytes).bind fun m =>
      (m.strcpy p numberAt number.bytes).bind some) = _ := enter_eq hb some
  rw [dif_pos h] at henter
  simpa using henter

end Changing

section Added

theorem load_added_new (ha : m.load a = some d) (hp : m.heap.Fresh p) :
    (added m a d p b name number h).load p = some ((b.enter name number h).setNext 0) :=
  (Heap.load_insert_of_ne (hp.ne ha).symm).trans (Heap.load_insert hp.1)

theorem load_added_last (ha : m.load a = some d) :
    (added m a d p b name number h).load a = some (d.setNext p) :=
  Heap.load_insert (Heap.ne_zero_of_load ha)

theorem load_added_of_ne (hqp : q ≠ p) (hqa : q ≠ a) :
    (added m a d p b name number h).load q = m.load q :=
  (Heap.load_insert_of_ne hqa).trans (Heap.load_insert_of_ne hqp)

theorem load_added (ha : m.load a = some d) (hp : m.heap.Fresh p) (hq : m.load q = some e) :
    ∃ e', (added m a d p b name number h).load q = some e' ∧ e'.text = e.text ∧
      (q ≠ a → e' = e) := by
  by_cases hqa : q = a
  · subst hqa
    cases ha.symm.trans hq
    exact ⟨d.setNext p, load_added_last ha, d.text_setNext p, fun hne => absurd rfl hne⟩
  · exact ⟨e, (load_added_of_ne (hp.ne hq) hqa).trans hq, rfl, fun _ => rfl⟩

theorem segment_added (hseg : Segment Person.next m.heap contacts (ps ++ [a]) 0)
    (ha : m.load a = some d) (hp : m.heap.Fresh p) :
    Segment Person.next (added m a d p b name number h).heap contacts (ps ++ [a] ++ [p]) 0 := by
  have hfresh : ∀ q ∈ ps, q ≠ p ∧ q ≠ a := by
    intro q hq
    obtain ⟨e, he⟩ := hseg.load (List.mem_append_left _ hq)
    refine ⟨hp.ne he, ?_⟩
    rintro rfl
    exact (List.nodup_append.mp hseg.nodup).2.2 q hq q List.mem_cons_self rfl
  have hlinked : Segment Person.next (added m a d p b name number h).heap contacts (ps ++ [a])
      (d.setNext p).next := by
    refine hseg.relink (fun q hq => ?_) (load_added_last ha)
    exact congrArg _ (load_added_of_ne (hfresh q hq).1 (hfresh q hq).2)
  rw [Person.next_setNext] at hlinked
  have hnew : Segment Person.next (added m a d p b name number h).heap p [p]
      ((b.enter name number h).setNext 0).next := .cons (load_added_new ha hp) (.nil _)
  rw [Person.next_setNext] at hnew
  exact hlinked.append hnew

end Added

section Deleted

theorem load_deleted_last (ha : m.load a = some d) (hne : a ≠ p) :
    (deleted m a d p b).load a = some (d.setNext b.next) :=
  (Heap.load_erase_of_ne hne).trans (Heap.load_insert (Heap.ne_zero_of_load ha))

theorem load_deleted_of_ne (hqp : q ≠ p) (hqa : q ≠ a) :
    (deleted m a d p b).load q = m.load q :=
  (Heap.load_erase_of_ne hqp).trans (Heap.load_insert_of_ne hqa)

theorem load_deleted (ha : m.load a = some d) (hqp : q ≠ p) (hq : m.load q = some e) :
    ∃ e', (deleted m a d p b).load q = some e' ∧ e'.text = e.text := by
  by_cases hqa : q = a
  · subst hqa
    cases ha.symm.trans hq
    exact ⟨d.setNext b.next, load_deleted_last ha hqp, d.text_setNext b.next⟩
  · exact ⟨e, (load_deleted_of_ne hqp hqa).trans hq, rfl⟩

theorem segment_deleted {qs : List Position}
    (hseg : Segment Person.next m.heap contacts (ps ++ [a] ++ p :: qs) 0)
    (ha : m.load a = some d) (hb : m.load p = some b) :
    Segment Person.next (deleted m a d p b).heap contacts (ps ++ [a] ++ qs) 0 := by
  have hap : a ≠ p := hseg.ne_next (.inl (List.mem_append_right ps List.mem_cons_self))
  refine hseg.unlink hb (fun q hq => ?_) (load_deleted_last ha hap) (Person.next_setNext ..)
  have hqp : q ≠ p := hseg.ne_next (hq.imp_left (List.mem_append_left _))
  have hqa : q ≠ a := hseg.ne_middle (hq.imp_right (List.mem_cons_of_mem p))
  exact congrArg _ (load_deleted_of_ne hqp hqa)

end Deleted

section Fields

theorem Person.reads_number_enter : (b.enter name number h).Reads numberAt number :=
  readsAt_overwrite (by rw [Person.length_bytes]; decide)

/-- The name is read back if it fits, or if just the number follows its first ten bytes. -/
theorem Person.reads_name_enter_iff : (b.enter name number h).Reads nameAt name ↔
    name.length < nameSize ∨ name.bytes.drop nameSize = number.bytes := by
  have hlength : name.bytes.length < b.bytes.length := by
    rw [b.length_bytes]
    simpa [nameAt, CString.length] using h.1
  apply readsAt_neighbours hlength _ name.no_nul number.no_nul
  rw [b.length_bytes]
  decide

theorem Person.next_enter (hname : nameAt + name.length < nextAt)
    (hnumber : numberAt + number.length < nextAt) : (b.enter name number h).next = b.next := by
  have hdrop : ∀ (b : Person) (i : Nat) (s : CString) (hs : i + s.length < 32),
      i + s.length < nextAt → (b.write i s.bytes hs).bytes.drop nextAt = b.bytes.drop nextAt := by
    intro b i s hs hlt
    apply drop_overwrite
    · rw [List.length_append, List.length_singleton]
      exact hlt
    · rw [b.length_bytes]
      decide
  rw [Person.next, Person.next]
  congr 1
  rw [Person.enter, hdrop _ numberAt number h.2 hnumber, hdrop b nameAt name h.1 hname]

end Fields

end LearnCLinux.Contacts
