import LearnCLinux.Contacts.Memory
import LearnCLinux.Library.Run

/-! The functions of `contacts.c`.  A dereference of NULL, or of a pointer to no block, ends the
program, and nothing comes back from a walk in a circle. -/

namespace LearnCLinux.Contacts

open LinkedList

section Code

variable (m : Memory) (contacts : Position)

/-- One call of `findPerson`: it returns, or calls itself with `p -> next`. -/
def compareName (name : CString) (p : Position) (b : Person) : Option (Option Position) :=
  (strcmp b nameAt name.bytes).map fun d =>
    if d = 0 then some p else if b.next = 0 then some 0 else none

def findPerson (name : CString) : Option Position :=
  walk Person.next (compareName name) m.heap m.heap.size contacts

/-- The name is misspelt in the source. -/
def findPervious (p : Position) : Option Position :=
  walk Person.next (before Person.next p) m.heap m.heap.size contacts

/-- The loop is that of `find_pervious`, with NULL. -/
def addPerson (name number : CString) (block : Option (Position × Person)) : Option Memory :=
  (findPerson m contacts name).bind fun tmp =>
    if tmp ≠ 0 then some m
    else (findPervious m contacts 0).bind fun p =>
      let (m, person) := m.malloc block
      (m.strcpy person nameAt name.bytes).bind fun m =>
      (m.strcpy person numberAt number.bytes).bind fun m =>
      (m.setNext person 0).bind fun m => m.setNext p person

def delPerson (name : CString) : Option Memory :=
  (findPerson m contacts name).bind fun aimP =>
  (findPervious m contacts aimP).bind fun preP =>
  (m.load aimP).bind fun b =>
  (m.setNext preP b.next).bind fun m => m.free aimP

def changePerson (name number : CString) : Option Memory :=
  (findPerson m contacts name).bind fun aimP =>
    if aimP = 0 then some m
    else (m.strcpy aimP nameAt name.bytes).bind fun m => m.strcpy aimP numberAt number.bytes

/-- The calls of `main`.  With `addPerson` comes what `malloc` returns in it. -/
inductive Command : Type
  | addPerson (name number : CString) (block : Option (Position × Person))
  | delPerson (name : CString)
  | findPerson (name : CString)
  | changePerson (name number : CString)

def Possible : Command → Prop
  | .addPerson _ _ (some (p, _)) => m.heap.Fresh p
  | _ => True

instance : (c : Command) → Decidable (Possible m c)
  | .addPerson _ _ (some (p, _)) => inferInstanceAs (Decidable (m.heap.Fresh p))
  | .addPerson _ _ none => instDecidableTrue
  | .delPerson _ => instDecidableTrue
  | .findPerson _ => instDecidableTrue
  | .changePerson _ _ => instDecidableTrue

def run : Command → Option Memory
  | .addPerson name number block => addPerson m contacts name number block
  | .delPerson name => delPerson m contacts name
  | .findPerson name => (findPerson m contacts name).map fun _ => m
  | .changePerson name number => changePerson m contacts name number

end Code

/-- The program waits for a command, or one has not come back. -/
inductive State : Type
  | running (m : Memory)
  | crashed

def step (contacts : Position) : State → Command → Option State
  | .running m, c =>
    if Possible m c then some (((run m contacts c).map .running).getD .crashed) else none
  | .crashed, _ => some .crashed

/-- The header may hold anything: `main` does not initialise it. -/
structure Start where
  contacts : Position
  header : Person
  contacts_ne_null : contacts ≠ 0

def start (c : Start) : State := .running ⟨AList.singleton c.contacts c.header, []⟩

def address (n : UInt8) : Position := ⟨n :: List.replicate 7 0, rfl⟩

def emptyBook : Start where
  contacts := address 1
  header := ⟨List.replicate 32 0, rfl⟩
  contacts_ne_null := by decide

def dirty : Person := ⟨List.replicate 32 0xAA, rfl⟩

def nineLetters : CString := ⟨[97, 98, 99, 100, 101, 102, 103, 104, 105], by decide⟩

def tenLetters : CString := ⟨[97, 98, 99, 100, 101, 102, 103, 104, 105, 106], by decide⟩

def tenDigits : CString := ⟨[49, 50, 51, 52, 53, 54, 55, 56, 57, 48], by decide⟩

section Steps

variable {contacts : Position} {s : State}

theorem step_running {m : Memory} {x : Command}
    (h : step contacts (.running m) x = some s) :
    Possible m x ∧ s = ((run m contacts x).map State.running).getD .crashed := by
  rw [step] at h
  split at h
  · next hp => exact ⟨hp, (Option.some.inj h).symm⟩
  · cases h

end Steps

section Finding

variable {m m' : Memory} {contacts p a : Position} {name number : CString} {b : Person}
  {ps : List Position}

theorem compareName_eq (hname : nameAt + name.length < 32) : compareName name p b =
    some (if b.Reads nameAt name then some p else if b.next = 0 then some 0 else none) := by
  obtain ⟨d, hd⟩ := exists_strcmp (b := b) hname
  have hzero : d = 0 ↔ b.Reads nameAt name := by
    rw [Person.Reads, ← strcmp_eq_zero_iff, hd]
    simp
  simp only [compareName, hd, Option.map_some, hzero]

theorem findPerson_iff : findPerson m contacts name = some p ↔
    ∃ ps, Walk Person.next m.heap (compareName name) contacts ps p := walk_size_iff

theorem compareName_of_reads (h : b.Reads nameAt name) :
    compareName name p b = some (some p) := by
  have hzero : strcmp b nameAt name.bytes = some 0 := strcmp_eq_zero_iff.mpr h
  rw [compareName, hzero]
  rfl

theorem findPerson_none (h : findPerson m contacts name = some 0) :
    ∃ ps a, Segment Person.next m.heap contacts (ps ++ [a]) 0 ∧
      ∀ q ∈ ps ++ [a], ∀ b, m.load q = some b → ¬ b.Reads nameAt name := by
  obtain ⟨ps, hw⟩ := findPerson_iff.mp h
  obtain ⟨qs, a, b, rfl, hseg, ha, hleave, hpassed⟩ := hw.segment
  have hnext : b.next = 0 := by
    obtain ⟨d, -, hd⟩ := Option.map_eq_some_iff.mp hleave
    split at hd
    · exact absurd (Option.some.inj hd) (Heap.ne_zero_of_load ha)
    · split at hd
      · assumption
      · cases hd
  rw [hnext] at hseg
  refine ⟨qs, a, hseg, fun q hq d hd hreads => ?_⟩
  have hvisit := compareName_of_reads (p := q) hreads
  rcases List.mem_append.mp hq with hq | hq
  · obtain ⟨e, he, hgo⟩ := hpassed q hq
    cases he.symm.trans hd
    cases hgo.symm.trans hvisit
  · cases List.mem_singleton.mp hq
    cases ha.symm.trans hd
    cases hleave.symm.trans hvisit
    exact Heap.ne_zero_of_load ha rfl

theorem findPervious_eq (hseg : Segment Person.next m.heap contacts (ps ++ [a]) p)
    (hp : p ∉ ps ++ [a]) : findPervious m contacts p = some a :=
  walk_size_iff.mpr ⟨_, hseg.walk_before hp⟩

end Finding

end LearnCLinux.Contacts
