import LearnCLinux.Contacts.Code
import LearnCLinux.LinkList.Teardown

/-! `exit_contacts` of `contacts.c`, which frees a list as `DeleteList` of `link_list.c` does. -/

universe u v

namespace LearnCLinux.Contacts

open LinkedList

/-- The loop takes the header too.  `Tmp` is `contacts`, and `exit` comes behind the loop. -/
def exitContacts (m : Memory) (contacts : Position) : Option (Memory × List Position) :=
  (freeLoop Person.next (m.heap.size + 1) m.heap contacts []).map fun (heap, freed) =>
    ({ m with heap }, freed)

def FreesAll (m : Memory) (contacts : Position) (ps : List Position) : Prop :=
  ∃ m' freed, exitContacts m contacts = some (m', freed) ∧ freed.Perm (contacts :: ps)

theorem not_freesAll {m : Memory} {contacts : Position} (hne : contacts ≠ 0)
    (ps : List Position) : ¬ FreesAll m contacts ps := by
  rintro ⟨m', freed, hexit, -⟩
  rw [exitContacts, freeLoop_of_ne hne] at hexit
  cases hexit

/-- Both loops read the link of a cell that they have freed, so only an empty list is torn down, and
only where the header stays. -/
theorem teardown_iff {A : Type u} {E : Type v} [DecidableEq A] [Zero A]
    {h : Heap A (LinkList.Node A E)} {L : A} {ps : List A} {m : Memory} {contacts : Position}
    {qs : List Position} (hlist : Segment LinkList.Node.next h L (L :: ps) 0)
    (hcontacts : Segment Person.next m.heap contacts (contacts :: qs) 0) :
    (LinkList.DeletesAll h L ps ↔ ps = []) ∧ ¬ FreesAll m contacts qs := by
  refine ⟨LinkList.deletesAll_iff hlist, not_freesAll ?_ qs⟩
  rintro rfl
  exact hcontacts.zero_not_mem List.mem_cons_self

theorem teardown_empty_list :
    (LinkList.DeletesAll LinkList.headerOnly ⟨1⟩ [] ↔ ([] : List LinkList.Address) = []) ∧
      ¬ FreesAll ⟨AList.singleton emptyBook.contacts emptyBook.header, []⟩ emptyBook.contacts [] :=
  teardown_iff LinkList.headerOnly_represents.linked (.cons (c := emptyBook.header) rfl (.nil _))

/-- The node at 2 is freed, and then its link is read; and so it is with the header of an empty
book. -/
theorem teardown_reads_freed :
    Segment LinkList.Node.next LinkList.oneNode ⟨1⟩ [⟨1⟩, ⟨2⟩] 0 ∧
      LinkList.deleteList LinkList.oneNode ⟨1⟩ = none ∧
      ¬ LinkList.DeletesAll LinkList.oneNode ⟨1⟩ [⟨2⟩] ∧
      Segment Person.next (AList.singleton emptyBook.contacts emptyBook.header)
        emptyBook.contacts [emptyBook.contacts] 0 ∧
      ¬ FreesAll ⟨AList.singleton emptyBook.contacts emptyBook.header, []⟩ emptyBook.contacts [] := by
  refine ⟨LinkList.oneNode_linked, rfl, ?_, .cons (c := emptyBook.header) rfl (.nil _),
    not_freesAll emptyBook.contacts_ne_null []⟩
  rintro ⟨h', freed, hdelete, -⟩
  cases hdelete

end LearnCLinux.Contacts
