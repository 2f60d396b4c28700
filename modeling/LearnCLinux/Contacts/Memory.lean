import LearnCLinux.Library.LinkedList
import LearnCLinux.Library.Terminated
import Mathlib.Data.UInt

/-! The memory of `contacts.c`, byte by byte.  A `struct Person` has the name at 0, the number at
10, three bytes of padding, and `next`, an eight byte pointer, at 24. -/

namespace LearnCLinux.Contacts

open LinkedList Terminated

structure CString where
  bytes : List UInt8
  no_nul : 0 ∉ bytes
  deriving DecidableEq

def CString.length (s : CString) : Nat := s.bytes.length

structure Position where
  bytes : List UInt8
  length_bytes : bytes.length = 8
  deriving DecidableEq

instance : Zero Position := ⟨⟨List.replicate 8 0, List.length_replicate⟩⟩

structure Person where
  bytes : List UInt8
  length_bytes : bytes.length = 32
  deriving DecidableEq

def nameSize : Nat := 10

def numberSize : Nat := 11

def nameAt : Nat := 0

def numberAt : Nat := nameAt + nameSize

/-- `offsetof(struct Person, next)`. -/
def nextAt : Nat := 24

namespace Person

def text (b : Person) : List UInt8 := b.bytes.take nextAt

def next (b : Person) : Position :=
  ⟨b.bytes.drop nextAt, by rw [List.length_drop, b.length_bytes]; rfl⟩

def setNext (b : Person) (p : Position) : Person where
  bytes := b.text ++ p.bytes
  length_bytes := by
    rw [text, List.length_append, List.length_take, b.length_bytes, p.length_bytes]
    rfl

def set (b : Person) (i : Nat) (x : UInt8) : Person :=
  ⟨b.bytes.set i x, List.length_set.trans b.length_bytes⟩

def Reads (b : Person) (i : Nat) (s : CString) : Prop := ReadsAt b.bytes i s.bytes

instance (b : Person) (i : Nat) (s : CString) : Decidable (b.Reads i s) :=
  inferInstanceAs (Decidable (ReadsAt ..))

end Person

structure Memory where
  heap : Heap Position Person
  /-- A history variable: where `strcpy` has stored so far. -/
  stores : List (Position × Nat)

/-- `strcmp` compares with the bytes of `b` from `i` on. -/
def strcmp (b : Person) : Nat → List UInt8 → Option Int
  | i, [] => b.bytes[i]?.map fun y => -(y.toNat : Int)
  | i, x :: s => b.bytes[i]?.bind fun y =>
    if x = y then strcmp b (i + 1) s else some (x.toNat - y.toNat)

namespace Memory

def load (m : Memory) (p : Position) : Option Person := m.heap.load p

def store (m : Memory) (p : Position) (i : Nat) (x : UInt8) : Option Memory :=
  (m.load p).bind fun b =>
    if i < b.bytes.length then
      some { heap := m.heap.insert p (b.set i x), stores := m.stores ++ [(p, i)] }
    else none

/-- A store behind the end of the block is a fault. -/
def strcpy (m : Memory) (p : Position) : Nat → List UInt8 → Option Memory
  | i, [] => m.store p i 0
  | i, x :: s => (m.store p i x).bind fun m => m.strcpy p (i + 1) s

/-- `p -> next = q`. -/
def setNext (m : Memory) (p q : Position) : Option Memory :=
  (m.load p).map fun b => { m with heap := m.heap.insert p (b.setNext q) }

/-- A block with whatever is in it, or NULL. -/
def malloc (m : Memory) : Option (Position × Person) → Memory × Position
  | some (p, b) => ({ m with heap := m.heap.insert p b }, p)
  | none => (m, 0)

def free (m : Memory) (p : Position) : Option Memory :=
  (m.heap.free p).map fun h => { m with heap := h }

end Memory

section Bounds

variable {name number : CString} {i : Nat}

theorem name_before_next (h : name.length < nameSize + numberSize) :
    nameAt + name.length < nextAt := by
  simp only [nameAt, nameSize, numberSize, nextAt] at h ⊢
  omega

theorem number_before_next (h : number.length < numberSize) :
    numberAt + number.length < nextAt := by
  simp only [nameAt, numberAt, nameSize, numberSize, nextAt] at h ⊢
  omega

theorem before_end (h : i < nextAt) : i < 32 := Nat.lt_trans h (by decide)

end Bounds

section Records

variable {b b' : Person} {i : Nat} {s t : CString} {p : Position}

theorem Person.ext_bytes (h : b.bytes = b'.bytes) : b = b' := by
  cases b
  cases h
  rfl

theorem CString.ext_bytes (h : s.bytes = t.bytes) : s = t := by
  cases s
  cases h
  rfl

theorem Person.length_text (b : Person) : b.text.length = nextAt := by
  rw [text, List.length_take, b.length_bytes]
  rfl

@[simp] theorem Person.text_setNext (b : Person) (p : Position) : (b.setNext p).text = b.text :=
  List.take_left' b.length_text

@[simp] theorem Person.next_setNext (b : Person) (p : Position) : (b.setNext p).next = p := by
  have hdrop : (b.text ++ p.bytes).drop nextAt = p.bytes := List.drop_left' b.length_text
  rw [next]
  congr 1

theorem Person.Reads.unique (hs : b.Reads i s) (ht : b.Reads i t) : s = t :=
  CString.ext_bytes (ReadsAt.unique hs ht s.no_nul t.no_nul)

theorem Person.reads_congr (h : b.text = b'.text) (hs : i + s.length < nextAt) :
    b.Reads i s ↔ b'.Reads i s := by
  have htext : ∀ b : Person, b.Reads i s ↔ ReadsAt b.text i s.bytes :=
    fun b => (readsAt_take hs).symm
  rw [htext, htext, h]

theorem toNat_sub_ne_zero {x y : UInt8} (h : x ≠ y) : (x.toNat : Int) - y.toNat ≠ 0 := by
  intro heq
  apply h
  apply UInt8.toNat_inj.mp
  omega

theorem strcmp_eq_zero_iff {s : List UInt8} : strcmp b i s = some 0 ↔ ReadsAt b.bytes i s := by
  induction s generalizing i with
  | nil =>
    rw [readsAt_nil, strcmp]
    cases b.bytes[i]? with
    | none => simp
    | some y => simp [← UInt8.toNat_inj]
  | cons x s ih =>
    rw [readsAt_cons, strcmp, ← ih]
    cases b.bytes[i]? with
    | none => simp
    | some y =>
      by_cases hxy : x = y
      · simp [hxy]
      · simp [hxy, Ne.symm hxy, toNat_sub_ne_zero hxy]

theorem exists_strcmp {s : List UInt8} (h : i + s.length < 32) : ∃ d, strcmp b i s = some d := by
  induction s generalizing i with
  | nil =>
    rw [strcmp, List.getElem?_eq_getElem (by rw [b.length_bytes]; simpa using h)]
    exact ⟨_, rfl⟩
  | cons x s ih =>
    rw [List.length_cons] at h
    rw [strcmp, List.getElem?_eq_getElem (by rw [b.length_bytes]; omega), Option.bind_some]
    split
    · exact ih (by omega)
    · exact ⟨_, rfl⟩

end Records

section Copying

variable {m m' : Memory} {b b' : Person} {p : Position} {i : Nat}

def Person.write (b : Person) (i : Nat) (s : List UInt8) (h : i + s.length < 32) : Person where
  bytes := overwrite b.bytes i (s ++ [0])
  length_bytes := by
    rw [length_overwrite, b.length_bytes]
    rw [List.length_append, List.length_singleton, b.length_bytes]
    omega

def stored (p : Position) (i : Nat) (s : List UInt8) : List (Position × Nat) :=
  (List.range' i (s.length + 1)).map fun j => (p, j)

theorem store_eq (hb : m.load p = some b) (x : UInt8) : m.store p i x =
    if i < 32 then some { heap := m.heap.insert p (b.set i x), stores := m.stores ++ [(p, i)] }
    else none := by
  rw [Memory.store, hb, Option.bind_some, b.length_bytes]

theorem strcpy_eq {s : List UInt8} (hb : m.load p = some b) : m.strcpy p i s =
    if h : i + s.length < 32 then
      some { heap := m.heap.insert p (b.write i s h), stores := m.stores ++ stored p i s }
    else none := by
  induction s generalizing m b i with
  | nil =>
    rw [Memory.strcpy, store_eq hb]
    by_cases h : i < 32
    · rw [if_pos h, dif_pos (by simpa using h)]
      congr 3
      apply Person.ext_bytes
      exact (overwrite_singleton (by rw [b.length_bytes]; exact h)).symm
    · rw [if_neg h, dif_neg (by simpa using h)]
  | cons x s ih =>
    rw [Memory.strcpy, store_eq hb]
    by_cases h : i < 32
    · have hload : Memory.load ⟨m.heap.insert p (b.set i x), m.stores ++ [(p, i)]⟩ p =
          some (b.set i x) := Heap.load_insert (Heap.ne_zero_of_load hb)
      rw [if_pos h, Option.bind_some, ih hload]
      have hiff : i + 1 + s.length < 32 ↔ i + (x :: s).length < 32 := by
        rw [List.length_cons]
        omega
      simp only [hiff]
      split
      · congr 2
        · rw [AList.insert_insert]
          congr 1
          apply Person.ext_bytes
          exact overwrite_set (by rw [b.length_bytes]; exact h)
        · rw [stored, stored, List.append_assoc]
          rfl
      · rfl
    · rw [if_neg h, dif_neg (by rw [List.length_cons]; omega)]
      rfl

end Copying

end LearnCLinux.Contacts
