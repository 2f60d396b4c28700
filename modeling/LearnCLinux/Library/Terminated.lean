import Mathlib.Data.List.Basic

/-! Strings that end at a terminator, stored in a buffer. -/

universe u

namespace LearnCLinux.Terminated

variable {α : Type u}

section Buffers

variable {l xs : List α} {i n : Nat} {x : α}

def overwrite (l : List α) (i : Nat) (xs : List α) : List α :=
  l.take i ++ xs ++ l.drop (i + xs.length)

theorem cons_prefix_drop : x :: xs <+: l.drop i ↔ l[i]? = some x ∧ xs <+: l.drop (i + 1) := by
  rw [List.drop_eq_getElem?_toList_append]
  cases hi : l[i]? with
  | none =>
    have hlength := List.getElem?_eq_none_iff.mp hi
    simp [List.drop_eq_nil_of_le (Nat.le_succ_of_le hlength)]
  | some y => simp [eq_comm]

theorem length_overwrite (h : i + xs.length ≤ l.length) : (overwrite l i xs).length = l.length := by
  simp only [overwrite, List.length_append, List.length_take, List.length_drop]
  omega

theorem length_overwrite_start (h : xs.length ≤ l.length) : (overwrite l 0 xs).length = l.length :=
  length_overwrite (by rwa [Nat.zero_add])

theorem length_take_append (h : i ≤ l.length) : (l.take i ++ xs).length = i + xs.length := by
  rw [List.length_append, List.length_take_of_le h]

theorem take_overwrite (h : i ≤ l.length) : (overwrite l i xs).take i = l.take i := by
  rw [overwrite, List.append_assoc]
  exact List.take_left' (List.length_take_of_le h)

theorem drop_overwrite_start (h : i ≤ l.length) :
    (overwrite l i xs).drop i = xs ++ l.drop (i + xs.length) := by
  rw [overwrite, List.append_assoc]
  exact List.drop_left' (List.length_take_of_le h)

theorem drop_overwrite (h : i + xs.length ≤ n) (hn : n ≤ l.length) :
    (overwrite l i xs).drop n = l.drop n := by
  have hlength : (l.take i ++ xs).length = i + xs.length := length_take_append (by omega)
  rw [overwrite, List.drop_append, hlength, List.drop_eq_nil_of_le (by omega), List.nil_append,
    List.drop_drop]
  congr 1
  omega

theorem getElem?_overwrite_of_le (hi : i ≤ l.length) (hn : i + xs.length ≤ n) :
    (overwrite l i xs)[n]? = l[n]? := by
  have hlength : (l.take i ++ xs).length = i + xs.length := length_take_append hi
  rw [overwrite, List.getElem?_append_right (hlength ▸ hn), hlength, List.getElem?_drop,
    Nat.add_sub_cancel' hn]

theorem overwrite_singleton (h : i < l.length) : overwrite l i [x] = l.set i x := by
  rw [overwrite, List.set_eq_take_append_cons_drop, if_pos h, List.append_assoc]
  rfl

theorem overwrite_set (h : i < l.length) :
    overwrite (l.set i x) (i + 1) xs = overwrite l i (x :: xs) := by
  have htake : (l.set i x).take (i + 1) = l.take i ++ [x] := by
    rw [List.set_eq_take_append_cons_drop, if_pos h, List.take_append,
      List.length_take_of_le (Nat.le_of_lt h)]
    simp [List.take_take]
  have hdrop : (l.set i x).drop (i + 1 + xs.length) = l.drop (i + (x :: xs).length) := by
    rw [List.drop_set_of_lt (by omega), List.length_cons]
    congr 1
    omega
  rw [overwrite, overwrite, htake, hdrop, List.append_assoc, List.append_assoc, List.append_assoc]
  rfl

theorem prefix_set (h : xs <+: l) (hi : xs.length ≤ i) : xs <+: l.set i x := by
  obtain ⟨t, rfl⟩ := h
  rw [List.set_append_right _ _ hi]
  exact List.prefix_append ..

theorem prefix_set_concat (h : xs <+: l) (hlt : xs.length < l.length) :
    xs ++ [x] <+: l.set xs.length x := by
  obtain ⟨t, rfl⟩ := h
  rw [List.set_append_right _ _ (Nat.le_refl _), Nat.sub_self]
  cases t with
  | nil => simp at hlt
  | cons y t =>
    rw [List.set_cons_zero]
    exact ⟨t, (List.append_cons xs x t).symm⟩

theorem concat_prefix : xs ++ [x] <+: l ↔ xs <+: l ∧ l[xs.length]? = some x := by
  constructor
  · rintro ⟨t, rfl⟩
    refine ⟨?_, by simp⟩
    rw [List.append_assoc]
    exact List.prefix_append ..
  · rintro ⟨⟨t, rfl⟩, hx⟩
    rw [List.getElem?_append_right (Nat.le_refl _), Nat.sub_self] at hx
    cases t with
    | nil => cases hx
    | cons y t =>
      cases hx
      exact ⟨t, (List.append_cons xs x t).symm⟩

end Buffers

section Strings

variable [Zero α] {l s t xs : List α} {i j n : Nat} {x : α}

/-- From `i` on the buffer reads `s`. -/
def ReadsAt (l : List α) (i : Nat) (s : List α) : Prop := s ++ [0] <+: l.drop i

instance [DecidableEq α] (l : List α) (i : Nat) (s : List α) : Decidable (ReadsAt l i s) :=
  inferInstanceAs (Decidable (_ <+: _))

theorem readsAt_nil : ReadsAt l i [] ↔ l[i]? = some 0 := by
  rw [ReadsAt, List.nil_append, cons_prefix_drop]
  simp

theorem readsAt_cons : ReadsAt l i (x :: s) ↔ l[i]? = some x ∧ ReadsAt l (i + 1) s :=
  cons_prefix_drop

theorem ReadsAt.unique (hs : ReadsAt l i s) (ht : ReadsAt l i t) (hs0 : 0 ∉ s) (ht0 : 0 ∉ t) :
    s = t := by
  induction s generalizing i t with
  | nil =>
    cases t with
    | nil => rfl
    | cons y t =>
      cases (readsAt_nil.mp hs).symm.trans (readsAt_cons.mp ht).1
      exact absurd List.mem_cons_self ht0
  | cons x s ih =>
    obtain ⟨hx, hs⟩ := readsAt_cons.mp hs
    cases t with
    | nil =>
      cases hx.symm.trans (readsAt_nil.mp ht)
      exact absurd List.mem_cons_self hs0
    | cons y t =>
      obtain ⟨hy, hrest⟩ := readsAt_cons.mp ht
      cases hx.symm.trans hy
      congr 1
      apply ih hs hrest
      · exact fun h => hs0 (List.mem_cons_of_mem _ h)
      · exact fun h => ht0 (List.mem_cons_of_mem _ h)

theorem readsAt_take (h : i + s.length < n) : ReadsAt (l.take n) i s ↔ ReadsAt l i s := by
  rw [ReadsAt, ReadsAt, List.drop_take, List.prefix_take_iff, List.length_append,
    List.length_singleton]
  exact and_iff_left (by omega)

theorem readsAt_drop (h : l.take n = s.take n) :
    ReadsAt l 0 s ↔ ReadsAt l n (s.drop n) := by
  have hl : l = s.take n ++ l.drop n := by rw [← h, List.take_append_drop]
  have hs : s ++ [0] = s.take n ++ (s.drop n ++ [0]) := by
    rw [← List.append_assoc, List.take_append_drop]
  rw [ReadsAt, ReadsAt, List.drop_zero, hs]
  conv_lhs => rw [hl]
  exact List.prefix_append_right_inj _

theorem length_storeString (h : s.length < l.length) :
    (overwrite l 0 (s ++ [0])).length = l.length := by
  apply length_overwrite_start
  rwa [List.length_append]

theorem readsAt_overwrite (h : i ≤ l.length) : ReadsAt (overwrite l i (s ++ [0])) i s := by
  rw [ReadsAt, drop_overwrite_start h]
  exact List.prefix_append ..

theorem readsAt_overwrite_before (hj : j + s.length < i) (hi : i ≤ l.length) :
    ReadsAt (overwrite l i xs) j s ↔ ReadsAt l j s := by
  rw [← readsAt_take hj, take_overwrite hi, readsAt_take hj]

/-- Two strings are copied into neighbouring fields, the first of `n` entries.  The first is read
back if it fits, or if it goes on with just the second. -/
theorem readsAt_neighbours (hs : s.length < l.length) (hn : n ≤ l.length) (hs0 : 0 ∉ s)
    (ht0 : 0 ∉ t) :
    ReadsAt (overwrite (overwrite l 0 (s ++ [0])) n (t ++ [0])) 0 s ↔
      s.length < n ∨ s.drop n = t := by
  have hlength : (overwrite l 0 (s ++ [0])).length = l.length := length_storeString hs
  rcases Nat.lt_or_ge s.length n with hfits | hlong
  · rw [readsAt_overwrite_before (by omega) (hlength ▸ hn)]
    exact iff_of_true (readsAt_overwrite (Nat.zero_le _)) (.inl hfits)
  · have hread : ReadsAt (overwrite (overwrite l 0 (s ++ [0])) n (t ++ [0])) n t :=
      readsAt_overwrite (hlength ▸ hn)
    have htake : (overwrite (overwrite l 0 (s ++ [0])) n (t ++ [0])).take n = s.take n := by
      rw [take_overwrite (hlength ▸ hn), overwrite, List.take_zero, List.nil_append,
        List.append_assoc, List.take_append_of_le_length hlong]
    rw [readsAt_drop htake]
    constructor
    · intro hdrop
      exact .inr (hdrop.unique hread (fun h => hs0 (List.mem_of_mem_drop h)) ht0)
    · rintro (hlt | rfl)
      · omega
      · exact hread

/-- The string that a buffer begins with, if it ends inside it. -/
def readString [DecidableEq α] : List α → Option (List α)
  | [] => none
  | x :: l => if x = 0 then some [] else (readString l).map (x :: ·)

theorem readString_eq_some [DecidableEq α] :
    readString l = some s ↔ 0 ∉ s ∧ s ++ [0] <+: l := by
  induction l generalizing s with
  | nil => simp [readString]
  | cons x l ih =>
    rw [readString]
    by_cases hx : x = 0
    · rw [if_pos hx, Option.some_inj, hx]
      constructor
      · rintro rfl
        simp
      · rintro ⟨hs, hprefix⟩
        cases s with
        | nil => rfl
        | cons y s =>
          obtain ⟨rfl, -⟩ := List.cons_prefix_cons.mp hprefix
          exact absurd List.mem_cons_self hs
    · rw [if_neg hx, Option.map_eq_some_iff]
      constructor
      · rintro ⟨t, ht, rfl⟩
        obtain ⟨hmem, hprefix⟩ := ih.mp ht
        refine ⟨?_, List.cons_prefix_cons.mpr ⟨rfl, hprefix⟩⟩
        rw [List.mem_cons, not_or]
        exact ⟨Ne.symm hx, hmem⟩
      · rintro ⟨hs, hprefix⟩
        cases s with
        | nil =>
          obtain ⟨hzero, -⟩ := List.cons_prefix_cons.mp hprefix
          exact absurd hzero.symm hx
        | cons y s =>
          obtain ⟨rfl, hrest⟩ := List.cons_prefix_cons.mp hprefix
          exact ⟨s, ih.mpr ⟨fun hmem => hs (List.mem_cons_of_mem _ hmem), hrest⟩, rfl⟩

theorem readString_iff [DecidableEq α] : readString l = some s ↔ 0 ∉ s ∧ ReadsAt l 0 s := by
  rw [readString_eq_some, ReadsAt, List.drop_zero]

theorem readString_of_mem [DecidableEq α] (h : 0 ∈ l) :
    readString l = some (l.takeWhile (· ≠ 0)) := by
  induction l with
  | nil => cases h
  | cons x l ih =>
    rw [readString]
    by_cases hx : x = 0
    · rw [if_pos hx, List.takeWhile_cons_of_neg (by simpa using hx)]
    · rw [if_neg hx, ih ((List.mem_cons.mp h).resolve_left (Ne.symm hx)), Option.map_some,
        List.takeWhile_cons_of_pos (by simpa using hx)]

theorem readString_append [DecidableEq α] (h : readString l = some s) (t : List α) :
    readString (l ++ t) = some s := by
  rw [readString_eq_some] at h ⊢
  exact ⟨h.1, h.2.trans (List.prefix_append ..)⟩

theorem length_readString_lt [DecidableEq α] (h : readString l = some s) : s.length < l.length := by
  have hlength := (readString_eq_some.mp h).2.length_le
  rwa [List.length_append] at hlength

theorem take_of_readString [DecidableEq α] (h : readString l = some s) :
    l.take (s.length + 1) = s ++ [0] := by
  have hreads := (readString_eq_some.mp h).2
  rw [List.prefix_iff_eq_take, List.length_append] at hreads
  exact hreads.symm

theorem readString_overwrite [DecidableEq α] (hs : 0 ∉ s) :
    readString (overwrite l 0 s) = some s ↔ l[s.length]? = some 0 := by
  rw [readString_iff, and_iff_right hs, ReadsAt, overwrite, List.drop_zero, List.take_zero,
    List.nil_append, Nat.zero_add, List.prefix_append_right_inj, ← readsAt_nil, ReadsAt,
    List.nil_append]

/-- `s` is stored with its terminator, unless it runs over the end of the buffer. -/
def storeString (l s : List α) : Option (List α) :=
  if s.length < l.length then some (overwrite l 0 (s ++ [0])) else none

theorem storeString_of_lt (h : s.length < l.length) :
    storeString l s = some (overwrite l 0 (s ++ [0])) := if_pos h

theorem readString_storeString [DecidableEq α] (hs : 0 ∉ s) :
    readString (overwrite l 0 (s ++ [0])) = some s :=
  readString_iff.mpr ⟨hs, readsAt_overwrite (Nat.zero_le _)⟩

end Strings

end LearnCLinux.Terminated
