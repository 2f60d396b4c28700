import Mathlib.Data.List.Nodup

/-! A map that keeps its entries in the order in which they were entered. -/

universe u v

namespace LearnCLinux.OrderedMap

variable {K : Type u} {V : Type v}

def keys (l : List (K × V)) : List K := l.map Prod.fst

section Definitions

variable [DecidableEq K]

/-- A key that is there already keeps its value. -/
def add (l : List (K × V)) (k : K) (v : V) : List (K × V) :=
  if k ∈ keys l then l else l ++ [(k, v)]

def remove (l : List (K × V)) (k : K) : List (K × V) := l.filter fun e => e.1 ≠ k

def change (l : List (K × V)) (k : K) (v : V) : List (K × V) :=
  l.map fun e => if e.1 = k then (k, v) else e

end Definitions

variable {l l₁ l₂ : List (K × V)} {k : K} {v w : V}

theorem exists_append (h : k ∈ keys l) : ∃ l₁ v l₂, l = l₁ ++ (k, v) :: l₂ := by
  obtain ⟨⟨_, v⟩, hv, rfl⟩ := List.mem_map.mp h
  obtain ⟨l₁, l₂, rfl⟩ := List.append_of_mem hv
  exact ⟨l₁, v, l₂, rfl⟩

theorem not_mem_keys : k ∉ keys l ↔ ∀ e ∈ l, e.1 ≠ k := by
  constructor
  · rintro h e he rfl
    exact h (List.mem_map_of_mem he)
  · intro h hk
    obtain ⟨e, he, rfl⟩ := List.mem_map.mp hk
    exact h e he rfl

theorem nodup_append_cons : (keys (l₁ ++ (k, v) :: l₂)).Nodup ↔
    (keys (l₁ ++ l₂)).Nodup ∧ k ∉ keys (l₁ ++ l₂) := by
  rw [keys, keys, List.map_append, List.map_append, List.map_cons, List.nodup_middle,
    List.nodup_cons, and_comm]

variable [DecidableEq K]

theorem add_of_mem (h : k ∈ keys l) : add l k v = l := if_pos h

theorem add_of_not_mem (h : k ∉ keys l) : add l k v = l ++ [(k, v)] := if_neg h

theorem remove_of_not_mem (h : k ∉ keys l) : remove l k = l := by
  apply List.filter_eq_self.mpr
  intro e he
  exact decide_eq_true (not_mem_keys.mp h e he)

theorem change_of_not_mem (h : k ∉ keys l) : change l k v = l := by
  rw [change]
  conv_rhs => rw [← List.map_id l]
  apply List.map_congr_left
  intro e he
  exact if_neg (not_mem_keys.mp h e he)

theorem remove_append (h : (keys (l₁ ++ (k, v) :: l₂)).Nodup) :
    remove (l₁ ++ (k, v) :: l₂) k = l₁ ++ l₂ := by
  have hsame : remove (l₁ ++ l₂) k = l₁ ++ l₂ := remove_of_not_mem (nodup_append_cons.mp h).2
  rw [remove, List.filter_append] at hsame
  rw [remove, List.filter_append, List.filter_cons_of_neg (by simp), hsame]

theorem change_append (h : (keys (l₁ ++ (k, v) :: l₂)).Nodup) :
    change (l₁ ++ (k, v) :: l₂) k w = l₁ ++ (k, w) :: l₂ := by
  have hne := (nodup_append_cons.mp h).2
  rw [keys, List.map_append, List.mem_append, not_or] at hne
  have hleft : change l₁ k w = l₁ := change_of_not_mem hne.1
  have hright : change l₂ k w = l₂ := change_of_not_mem hne.2
  rw [change, List.map_append, List.map_cons, if_pos rfl]
  exact congrArg₂ (fun l l' => l ++ (k, w) :: l') hleft hright

end LearnCLinux.OrderedMap
