import LearnCLinux.LinkList.Refinement

/-! `DeleteList` of `link_list.c`. -/

universe u v

namespace LearnCLinux.LinkList

open LinkedList

variable {A : Type u} {E : Type v} [DecidableEq A] [Zero A]

/-- A round of the loop frees a cell, so there are no more of them than cells.  `TmpAddress` is `P`. -/
def deleteList (h : Heap A (Node A E)) (L : A) : Option (Heap A (Node A E) × List A) :=
  (h.load L).bind fun l =>
  (setNext h L 0).bind fun h => freeLoop Node.next (h.size + 1) h l.next []

def DeletesAll (h : Heap A (Node A E)) (L : A) (ps : List A) : Prop :=
  ∃ h' freed, deleteList h L = some (h', freed) ∧ freed.Perm ps ∧
    (h'.load L).map Node.next = some 0

variable {h : Heap A (Node A E)} {L : A} {ps : List A}

theorem deletesAll_iff (hseg : Segment Node.next h L (L :: ps) 0) : DeletesAll h L ps ↔ ps = [] := by
  obtain ⟨l, P, hl, hnext, hrest⟩ : ∃ l P, h.load L = some l ∧ l.next = P ∧
      Segment Node.next h P ps 0 := by
    cases hseg with
    | cons hl hrest => exact ⟨_, _, hl, rfl, hrest⟩
  have hset : setNext h L 0 = some (h.insert L { l with next := 0 }) := by
    rw [setNext, hl, Option.map_some]
  rw [DeletesAll, deleteList, hl, Option.bind_some, hset, Option.bind_some, hnext]
  cases hrest with
  | nil =>
    refine iff_of_true ⟨_, [], freeLoop_zero, List.Perm.refl [], ?_⟩ rfl
    rw [Heap.load_insert (Heap.ne_zero_of_load hl), Option.map_some]
  | cons hp _ =>
    rw [freeLoop_of_ne (Heap.ne_zero_of_load hp)]
    simp

def oneNode : Heap Address (Node Address Nat) :=
  AList.insert ⟨2⟩ ⟨5, 0⟩ (AList.singleton ⟨1⟩ ⟨0, ⟨2⟩⟩)

theorem oneNode_linked : Segment Node.next oneNode ⟨1⟩ [⟨1⟩, ⟨2⟩] 0 := by
  have hnode : Segment Node.next oneNode (Address.mk 2) [⟨2⟩] 0 := .cons (c := ⟨5, 0⟩) rfl (.nil 0)
  exact .cons (c := ⟨0, ⟨2⟩⟩) rfl hnode

end LearnCLinux.LinkList
