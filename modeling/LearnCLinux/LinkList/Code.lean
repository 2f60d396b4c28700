import LearnCLinux.Library.LinkedList
import LearnCLinux.Library.Run

/-! `practise/link_list.c`: lists behind a header.  A dereference of NULL, or of a pointer to no
block, ends the program. -/

universe u v

namespace LearnCLinux.LinkList

open LinkedList

structure Node (A : Type u) (E : Type v) where
  element : E
  next : A
  deriving DecidableEq

variable {A : Type u} {E : Type v} [DecidableEq A] [Zero A] [DecidableEq E]

section Code

variable (h : Heap A (Node A E)) (L : A)

def isEmpty : Option Bool := (h.load L).map fun l => decide (l.next = 0)

/-- The list is not looked at. -/
def isLast (P _L : A) : Option Bool := (h.load P).map fun n => decide (n.next = 0)

/-- The loop of `Find` at a node: the test for NULL is that of the next round. -/
def compareElement (X : E) (P : A) (n : Node A E) : Option (Option A) :=
  some (if n.element = X then some P else if n.next = 0 then some 0 else none)

def find (X : E) : Option A :=
  (h.load L).bind fun l =>
    if l.next = 0 then some 0 else walk Node.next (compareElement X) h h.size l.next

def compareNext (X : E) (P : A) (n : Node A E) : Option (Option A) :=
  if n.next = 0 then some (some P)
  else (h.load n.next).map fun m => if m.element = X then some P else none

def findPrevious (X : E) : Option A := walk Node.next (compareNext h X) h h.size L

/-- `P -> Element = X`. -/
def setElement (P : A) (X : E) : Option (Heap A (Node A E)) :=
  (h.load P).map fun n => h.insert P { n with element := X }

def setNext (P Q : A) : Option (Heap A (Node A E)) :=
  (h.load P).map fun n => h.insert P { n with next := Q }

def delete (X : E) : Option (Heap A (Node A E)) :=
  (findPrevious h L X).bind fun P =>
  (isLast h P L).bind fun last =>
    if last then some h
    else (h.load P).bind fun n =>
      (h.load n.next).bind fun t => (setNext h P t.next).bind fun h => h.free n.next

/-- A block with whatever is in it, or NULL. -/
def malloc : Option (A × Node A E) → Heap A (Node A E) × A
  | some (p, n) => (h.insert p n, p)
  | none => (h, 0)

def insert (X : E) (_L P : A) (block : Option (A × Node A E)) : Option (Heap A (Node A E)) :=
  let (h, tmpCell) := malloc h block
  (setElement h tmpCell X).bind fun h =>
  (h.load P).bind fun n => (setNext h tmpCell n.next).bind fun h => setNext h P tmpCell

end Code

/-- A call.  With `Insert` comes what `malloc` returns in it. -/
inductive Command (A : Type u) (E : Type v) : Type (max u v)
  | insert (X : E) (P : A) (block : Option (A × Node A E))
  | delete (X : E)
  | find (X : E)
  | findPrevious (X : E)

def Possible (h : Heap A (Node A E)) : Command A E → Prop
  | .insert _ _ (some (p, _)) => h.Fresh p
  | _ => True

instance (h : Heap A (Node A E)) : (x : Command A E) → Decidable (Possible h x)
  | .insert _ _ (some (p, _)) => inferInstanceAs (Decidable (h.Fresh p))
  | .insert _ _ none => instDecidableTrue
  | .delete _ => instDecidableTrue
  | .find _ => instDecidableTrue
  | .findPrevious _ => instDecidableTrue

def run (h : Heap A (Node A E)) (L : A) : Command A E → Option (Heap A (Node A E))
  | .insert X P block => insert h X L P block
  | .delete X => delete h L X
  | .find X => (find h L X).map fun _ => h
  | .findPrevious X => (findPrevious h L X).map fun _ => h

inductive State (A : Type u) (E : Type v) : Type (max u v)
  | running (h : Heap A (Node A E))
  | crashed

def step (L : A) : State A E → Command A E → Option (State A E)
  | .running h, x =>
    if Possible h x then some (((run h L x).map .running).getD .crashed) else none
  | .crashed, _ => some .crashed

theorem step_running {L : A} {h : Heap A (Node A E)} {x : Command A E} {s : State A E}
    (hs : step L (.running h) x = some s) :
    Possible h x ∧ s = ((run h L x).map State.running).getD .crashed := by
  rw [step] at hs
  split at hs
  · next hp => exact ⟨hp, (Option.some.inj hs).symm⟩
  · cases hs

end LearnCLinux.LinkList
