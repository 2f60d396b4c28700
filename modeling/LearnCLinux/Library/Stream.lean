import LearnCLinux.Library.Terminated

/-! A stream between two programs: what is written is read in any pieces, but in its order. -/

universe u

namespace LearnCLinux.Stream

open Terminated

variable {α : Type u}

/-- A call that may take `limit` entries takes `n`.  On an empty stream it waits. -/
def read (limit n : Nat) (l : List α) : Option (List α × List α) :=
  if 0 < n ∧ n ≤ limit ∧ n ≤ l.length then some (l.take n, l.drop n) else none

section Pieces

variable {limit n : Nat} {l buf rest : List α}

@[simp] theorem read_nil : read limit n ([] : List α) = none := by
  apply if_neg
  rintro ⟨hpos, -, hle⟩
  exact Nat.not_lt_of_le hle hpos

theorem read_append (h : read limit n l = some (buf, rest)) : buf ++ rest = l := by
  rw [read] at h
  split at h
  · cases h
    exact List.take_append_drop n l
  · cases h

theorem length_read (h : read limit n l = some (buf, rest)) :
    0 < buf.length ∧ buf.length ≤ limit := by
  rw [read] at h
  split at h
  · next hn =>
    cases h
    rw [List.length_take_of_le hn.2.2]
    exact ⟨hn.1, hn.2.1⟩
  · cases h

theorem read_whole (h : read limit n l = some (buf, rest)) (hwhole : n = min limit l.length)
    (hlength : l.length ≤ limit) : buf = l ∧ rest = [] := by
  rw [read] at h
  split at h
  · cases h
    rw [hwhole, Nat.min_eq_right hlength, List.take_length, List.drop_length]
    exact ⟨rfl, rfl⟩
  · cases h

theorem exists_read (hlimit : 0 < limit) (hl : l ≠ []) : ∃ n p, read limit n l = some p := by
  refine ⟨1, (l.take 1, l.drop 1), if_pos ⟨Nat.zero_lt_one, hlimit, ?_⟩⟩
  exact List.length_pos_of_ne_nil hl

end Pieces

section Messages

variable [Zero α] {ss ts : List (List α)}

theorem flatMap_terminated_inj (hs : ∀ s ∈ ss, 0 ∉ s) (ht : ∀ t ∈ ts, 0 ∉ t)
    (h : ss.flatMap (· ++ [0]) = ts.flatMap (· ++ [0])) : ss = ts := by
  induction ss generalizing ts with
  | nil =>
    cases ts with
    | nil => rfl
    | cons t ts => simp at h
  | cons s ss ih =>
    cases ts with
    | nil => simp at h
    | cons t ts =>
      rw [List.flatMap_cons, List.flatMap_cons] at h
      have hfirst : s = t := by
        have hread : ReadsAt (t ++ [0] ++ ts.flatMap (· ++ [0])) 0 s := h ▸ List.prefix_append ..
        exact hread.unique (List.prefix_append ..) (hs s List.mem_cons_self)
          (ht t List.mem_cons_self)
      subst hfirst
      rw [ih (fun s hmem => hs s (List.mem_cons_of_mem _ hmem))
        (fun t hmem => ht t (List.mem_cons_of_mem _ hmem)) (List.append_cancel_left h)]

end Messages

end LearnCLinux.Stream
