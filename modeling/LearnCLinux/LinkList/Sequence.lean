import Mathlib.Data.List.TakeWhile
import LearnCLinux.LinkList.Code

/-! The list of `link_list.c` as a sequence of nodes, each with its address and its element. -/

universe u v

namespace LearnCLinux.LinkList

open LinkedList

variable {A : Type u} {E : Type v}

/-- The node `n` directly after the one at `P`. -/
def insertAfter [DecidableEq A] (P : A) (n : A × E) : List (A × E) → List (A × E)
  | [] => []
  | m :: ns => if m.1 = P then m :: n :: ns else m :: insertAfter P n ns

def place [DecidableEq A] (L P : A) (n : A × E) (ns : List (A × E)) : List (A × E) :=
  if P = L then n :: ns else insertAfter P n ns

def removeFirst [DecidableEq E] (X : E) (ns : List (A × E)) : List (A × E) := ns.eraseP fun n => n.2 = X

/-- The node of the first occurrence, or NULL. -/
def firstNode [Zero A] [DecidableEq E] (X : E) (ns : List (A × E)) : A :=
  ((ns.find? fun n => n.2 = X).map Prod.fst).getD 0

/-- The node before the first occurrence, or the last one. -/
def nodeBefore [DecidableEq E] (L : A) (X : E) (ns : List (A × E)) : A :=
  ((ns.takeWhile fun n => n.2 ≠ X).map Prod.fst).getLastD L

namespace Command

def apply [DecidableEq A] [DecidableEq E] (L : A) (ns : List (A × E)) : Command A E → List (A × E)
  | .insert X P (some (p, _)) => place L P (p, X) ns
  | .insert _ _ none => ns
  | .delete X => removeFirst X ns
  | .find _ => ns
  | .findPrevious _ => ns

/-- A new node goes behind the header or behind a node of the list. -/
def Placed (L : A) (ns : List (A × E)) : Command A E → Prop
  | .insert _ P _ => P ∈ L :: ns.map Prod.fst
  | _ => True

def Allocated : Command A E → Prop
  | .insert _ _ block => block ≠ none
  | _ => True

end Command

def nodesAfter [DecidableEq A] [DecidableEq E] (L : A) (ns : List (A × E)) (cs : List (Command A E)) : List (A × E) :=
  cs.foldl (Command.apply L) ns

def AllPlaced [DecidableEq A] [DecidableEq E] (L : A) : List (A × E) → List (Command A E) → Prop
  | _, [] => True
  | ns, x :: cs => x.Placed L ns ∧ AllPlaced L (x.apply L ns) cs

theorem getLastD_of_cons_eq {L P : A} {ps qs : List A} (h : L :: ps = qs ++ [P]) :
    ps.getLastD L = P := by
  rw [← List.getLastD_cons (a := L) (b := L), h, List.getLastD_concat]

section Places

variable [DecidableEq A] {L P : A} {n m : A × E} {ns ns₁ ns₂ : List (A × E)}

theorem insertAfter_append (hne : ∀ n ∈ ns₁, n.1 ≠ m.1) :
    insertAfter m.1 n (ns₁ ++ m :: ns₂) = ns₁ ++ m :: n :: ns₂ := by
  induction ns₁ with
  | nil => simp [insertAfter]
  | cons k ns₁ ih =>
    rw [List.cons_append, insertAfter, if_neg (hne k List.mem_cons_self),
      ih fun n hn => hne n (List.mem_cons_of_mem k hn)]
    rfl

theorem exists_place (hP : P ∈ L :: ns.map Prod.fst) (hnodup : (L :: ns.map Prod.fst).Nodup)
    (n : A × E) : ∃ ps ns₁ ns₂, ns = ns₁ ++ ns₂ ∧ L :: ns₁.map Prod.fst = ps ++ [P] ∧
      place L P n ns = ns₁ ++ n :: ns₂ := by
  by_cases hPL : P = L
  · subst hPL
    exact ⟨[], [], ns, rfl, rfl, if_pos rfl⟩
  · obtain ⟨m, hm, rfl⟩ := List.mem_map.mp (List.mem_of_ne_of_mem hPL hP)
    obtain ⟨ns₁, ns₂, rfl⟩ := List.append_of_mem hm
    refine ⟨L :: ns₁.map Prod.fst, ns₁ ++ [m], ns₂, by simp, by simp, ?_⟩
    have hne : ∀ k ∈ ns₁, k.1 ≠ m.1 := by
      intro k hk heq
      simp only [List.map_append, List.map_cons] at hnodup
      have htail := (List.nodup_cons.mp hnodup).2
      exact (List.nodup_append.mp htail).2.2 k.1 (List.mem_map_of_mem hk) m.1 List.mem_cons_self heq
    rw [place, if_neg hPL, insertAfter_append hne]
    simp

theorem mem_insertAfter {k : A × E} (hk : k ∈ insertAfter P n ns) : k = n ∨ k ∈ ns := by
  induction ns with
  | nil => exact .inr hk
  | cons m ns ih =>
    rw [insertAfter] at hk
    split at hk
    · rw [List.mem_cons, List.mem_cons] at hk
      rw [List.mem_cons]
      exact or_left_comm.mp hk
    · rcases List.mem_cons.mp hk with rfl | hk
      · exact .inr List.mem_cons_self
      · exact (ih hk).imp_right (List.mem_cons_of_mem m)

theorem mem_place {k : A × E} (hk : k ∈ place L P n ns) : k = n ∨ k ∈ ns := by
  rw [place] at hk
  split at hk
  · exact List.mem_cons.mp hk
  · exact mem_insertAfter hk

end Places

section Occurrences

variable [DecidableEq E] {L : A} {X : E} {ns ns₁ ns₂ : List (A × E)}

theorem exists_occurrence (h : ∃ n ∈ ns, n.2 = X) : ∃ ns₁ p ns₂, ns = ns₁ ++ (p, X) :: ns₂ ∧
    ∀ n ∈ ns₁, n.2 ≠ X := by
  induction ns with
  | nil => simp at h
  | cons n ns ih =>
    by_cases hn : n.2 = X
    · subst hn
      exact ⟨[], n.1, ns, rfl, by simp⟩
    · obtain ⟨k, hk, hkX⟩ := h
      rcases List.mem_cons.mp hk with rfl | hk
      · exact absurd hkX hn
      · obtain ⟨ns₁, p, ns₂, rfl, hne⟩ := ih ⟨k, hk, hkX⟩
        refine ⟨n :: ns₁, p, ns₂, rfl, fun m hm => ?_⟩
        rcases List.mem_cons.mp hm with rfl | hm
        · exact hn
        · exact hne m hm

theorem removeFirst_append (hne : ∀ n ∈ ns₁, n.2 ≠ X) (p : A) :
    removeFirst X (ns₁ ++ (p, X) :: ns₂) = ns₁ ++ ns₂ := by
  rw [removeFirst, List.eraseP_append_right _ (by simpa using hne)]
  simp

theorem nodeBefore_absent (hne : ∀ n ∈ ns, n.2 ≠ X) :
    nodeBefore L X ns = (ns.map Prod.fst).getLastD L := by
  rw [nodeBefore, List.takeWhile_eq_self_iff.mpr (by simpa using hne)]

theorem removeFirst_absent (hne : ∀ n ∈ ns, n.2 ≠ X) : removeFirst X ns = ns :=
  List.eraseP_of_forall_not (by simpa using hne)

theorem nodeBefore_append (hne : ∀ n ∈ ns₁, n.2 ≠ X) (p : A) :
    nodeBefore L X (ns₁ ++ (p, X) :: ns₂) = (ns₁.map Prod.fst).getLastD L := by
  rw [nodeBefore, List.takeWhile_append_of_pos (by simpa using hne)]
  simp

end Occurrences

end LearnCLinux.LinkList
