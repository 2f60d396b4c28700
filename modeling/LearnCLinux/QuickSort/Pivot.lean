import Mathlib.Data.Finset.Card
import LearnCLinux.QuickSort.Range

/-! What becomes of the cells between `i` and `j` once the pivot is outside of them: the cells that
hold more stay on the right, those that hold less on the left, and a cell that holds as much goes to
the other side when it is met. -/

namespace LearnCLinux.QuickSort

open Access

def count (p : Int → Prop) [DecidablePred p] (first last : Int) : Nat :=
  ((Int.range first (last + 1)).toFinset.filter p).card

section Counts

variable {p : Int → Prop} [DecidablePred p] {c first last s : Int}

theorem mem_range : c ∈ (Int.range first (last + 1)).toFinset ↔ first ≤ c ∧ c ≤ last := by
  rw [List.mem_toFinset, Int.mem_range_iff, Int.lt_add_one_iff]

theorem count_eq_zero (h : ∀ c, first ≤ c → c ≤ last → ¬ p c) : count p first last = 0 := by
  rw [count, Finset.card_eq_zero, Finset.filter_eq_empty_iff]
  intro c hc
  rw [mem_range] at hc
  exact h c hc.1 hc.2

theorem count_pos (hfirst : first ≤ s) (hlast : s ≤ last) (hs : p s) : 0 < count p first last :=
  Finset.card_pos.mpr ⟨s, Finset.mem_filter.mpr ⟨mem_range.mpr ⟨hfirst, hlast⟩, hs⟩⟩

theorem count_congr {q : Int → Prop} [DecidablePred q]
    (h : ∀ c, first ≤ c → c ≤ last → (p c ↔ q c)) : count p first last = count q first last := by
  refine congrArg Finset.card (Finset.filter_congr fun c hc => ?_)
  rw [mem_range] at hc
  exact h c hc.1 hc.2

theorem count_remove {first' last' : Int} (hs : p s) (hout : ¬ (first' ≤ s ∧ s ≤ last'))
    (h : ∀ c, p c → (first ≤ c ∧ c ≤ last ↔ c = s ∨ first' ≤ c ∧ c ≤ last')) :
    count p first last = count p first' last' + 1 := by
  have hinsert : (Int.range first (last + 1)).toFinset.filter p =
      insert s ((Int.range first' (last' + 1)).toFinset.filter p) := by
    ext c
    rw [Finset.mem_filter, Finset.mem_insert, Finset.mem_filter, mem_range, mem_range]
    constructor
    · rintro ⟨hc, hpc⟩
      exact ((h c hpc).mp hc).imp_right fun hc' => ⟨hc', hpc⟩
    · rintro (rfl | ⟨hc, hpc⟩)
      · exact ⟨(h c hs).mpr (.inl rfl), hs⟩
      · exact ⟨(h c hpc).mpr (.inr hc), hpc⟩
  rw [count, hinsert, Finset.card_insert_of_notMem, count]
  rw [Finset.mem_filter, mem_range]
  exact fun hmem => hout hmem.1

end Counts

/-- On which side a loop from `first` to `last` leaves what the cell `k` holds: on the right if this
is positive, on the left if it is negative.  Of what is as great as the pivot, that goes right which
`i` meets before `j` does. -/
def leaning (arr : Arr) (pivot first last k : Int) : Int :=
  if arr k = pivot then
    count (fun c => arr c ≤ pivot) (k + 1) last - count (fun c => pivot ≤ arr c) first (k - 1)
  else arr k - pivot

section Leaning

variable {arr arr' : Arr} {pivot first last k l r m i j i' j' : Int}

theorem leaning_of_ne (h : arr k ≠ pivot) : leaning arr pivot first last k = arr k - pivot :=
  if_neg h

theorem le_of_leaning_nonneg (h : 0 ≤ leaning arr pivot first last k) : pivot ≤ arr k := by
  by_cases heq : arr k = pivot
  · omega
  · rw [leaning_of_ne heq] at h
    omega

theorem le_of_leaning_nonpos (h : leaning arr pivot first last k ≤ 0) : arr k ≤ pivot := by
  by_cases heq : arr k = pivot
  · omega
  · rw [leaning_of_ne heq] at h
    omega

theorem leaning_congr (h : ∀ c, first ≤ c → c ≤ last → arr c = arr' c) (hfirst : first ≤ k)
    (hlast : k ≤ last) : leaning arr pivot first last k = leaning arr' pivot first last k := by
  have hafter : count (fun c => arr c ≤ pivot) (k + 1) last =
      count (fun c => arr' c ≤ pivot) (k + 1) last :=
    count_congr fun c hkc hc => by rw [h c (by omega) hc]
  have hbefore : count (fun c => pivot ≤ arr c) first (k - 1) =
      count (fun c => pivot ≤ arr' c) first (k - 1) :=
    count_congr fun c hc hck => by rw [h c hc (by omega)]
  rw [leaning, leaning, h k hfirst hlast, hafter, hbefore]

theorem swap_beside (hi : k ≠ i) (hj : k ≠ j) : (arr ∘ Equiv.swap i j) k = arr k :=
  congrArg arr (Equiv.swap_apply_of_ne_of_ne hi hj)

theorem leaning_swap (hi : i < k) (hj : k < j) :
    leaning (arr ∘ Equiv.swap i j) pivot (i + 1) (j - 1) k =
      leaning arr pivot (i + 1) (j - 1) k :=
  leaning_congr (fun _ hic hcj => swap_beside (by omega) (by omega)) (by omega) (by omega)

theorem Scanned.leaning_above (h : Scanned l r m arr i j i' j') (hk : j' < k) (hkj : k ≤ j) :
    0 < leaning arr (arr m) i j k := by
  have habove := h.above k hk hkj
  rw [leaning_of_ne (by omega)]
  omega

theorem Scanned.leaning_below (h : Scanned l r m arr i j i' j') (hk : i ≤ k) (hki : k < i') :
    leaning arr (arr m) i j k < 0 := by
  have hbelow := h.below k hk hki
  rw [leaning_of_ne (by omega)]
  omega

theorem Scanned.leaning_left (h : Scanned l r m arr i j i' j') (hij : i' < j') :
    0 < leaning arr (arr m) i j i' := by
  have hstop := h.left_stop
  by_cases heq : arr i' = arr m
  · have hbefore : count (fun c => arr m ≤ arr c) i (i' - 1) = 0 :=
      count_eq_zero fun c hc hci => not_le.mpr (h.below c hc (by omega))
    have hafter : 0 < count (fun c => arr c ≤ arr m) (i' + 1) j :=
      count_pos hij h.down.2.1 h.right_stop
    rw [leaning, if_pos heq, hbefore]
    omega
  · rw [leaning_of_ne heq]
    omega

theorem Scanned.leaning_right (h : Scanned l r m arr i j i' j') (hij : i' < j') :
    leaning arr (arr m) i j j' < 0 := by
  have hstop := h.right_stop
  by_cases heq : arr j' = arr m
  · have hafter : count (fun c => arr c ≤ arr m) (j' + 1) j = 0 :=
      count_eq_zero fun c hc hcj => not_le.mpr (h.above c (by omega) hcj)
    have hbefore : 0 < count (fun c => arr m ≤ arr c) i (j' - 1) :=
      count_pos h.up.1 (by omega) h.left_stop
    rw [leaning, if_pos heq, hafter]
    omega
  · rw [leaning_of_ne heq]
    omega

theorem Scanned.leaning_met (h : Scanned l r m arr i j i' j') (hij : i' = j') :
    leaning arr (arr m) i j i' = 0 := by
  have hleft := h.left_stop
  have hright := h.right_stop
  have hbefore : count (fun c => arr m ≤ arr c) i (i' - 1) = 0 :=
    count_eq_zero fun c hc hci => not_le.mpr (h.below c hc (by omega))
  have hafter : count (fun c => arr c ≤ arr m) (i' + 1) j = 0 :=
    count_eq_zero fun c hc hcj => not_le.mpr (h.above c (by omega) hcj)
  rw [← hij] at hright
  rw [leaning, if_pos (by omega), hbefore, hafter]
  rfl

theorem Scanned.leaning_between (h : Scanned l r m arr i j i' j') (hik : i' < k) (hkj : k < j') :
    leaning arr (arr m) i j k = leaning arr (arr m) (i' + 1) (j' - 1) k := by
  have hup := h.up.1
  have hdown := h.down.2.1
  have hbefore : count (fun c => arr m ≤ arr c) i (k - 1) =
      count (fun c => arr m ≤ arr c) (i' + 1) (k - 1) + 1 := by
    refine count_remove h.left_stop (by omega) fun c hc => ?_
    have hbelow := h.below c
    omega
  have hafter : count (fun c => arr c ≤ arr m) (k + 1) j =
      count (fun c => arr c ≤ arr m) (k + 1) (j' - 1) + 1 := by
    refine count_remove h.right_stop (by omega) fun c hc => ?_
    have habove := h.above c
    omega
  rw [leaning, leaning, hbefore, hafter]
  split
  · omega
  · rfl

end Leaning

/-- A loop from `i` to `j`, with the pivot outside, has left the cells in the order `σ`. -/
structure Settled (arr : Arr) (pivot i j : Int) (σ : Equiv.Perm Int) (a : Arr × Int × Int) :
    Prop where
  moved : MovesOnly i j σ
  arr_eq : a.1 = arr ∘ σ
  up : i ≤ a.2.1 ∧ (a.2.1 ≤ i ∨ a.2.1 ≤ j + 1)
  down : a.2.2 ≤ j ∧ (j ≤ a.2.2 ∨ i - 1 ≤ a.2.2)
  sides : ∀ c, i ≤ c → c ≤ j → (a.2.2 < c ↔ 0 ≤ leaning arr pivot i j (σ c)) ∧
    (c < a.2.1 ↔ leaning arr pivot i j (σ c) ≤ 0)

namespace Settled

variable {arr : Arr} {pivot c l r m i j i' j' : Int} {σ : Equiv.Perm Int} {a : Arr × Int × Int}

theorem exists_place (h : Settled arr pivot i j σ a) (hc : i ≤ c ∧ c ≤ j) :
    ∃ k, (i ≤ k ∧ k ≤ j) ∧ σ k = c :=
  ⟨σ.symm c, h.moved.symm.stays hc, σ.apply_symm_apply c⟩

theorem value (h : Settled arr pivot i j σ a) (c : Int) : a.1 c = arr (σ c) := congrFun h.arr_eq c

theorem value_outside (h : Settled arr pivot i j σ a) (hc : ¬ (i ≤ c ∧ c ≤ j)) :
    a.1 c = arr c := by
  rw [h.value, h.moved.fixed hc]

theorem finished (hij : ¬ i ≤ j) : Settled arr pivot i j (Equiv.refl Int) (arr, i, j) where
  moved := MovesOnly.refl i j
  arr_eq := rfl
  up := ⟨Int.le_refl i, .inl (Int.le_refl i)⟩
  down := ⟨Int.le_refl j, .inl (Int.le_refl j)⟩
  sides _ hic hcj := absurd (Int.le_trans hic hcj) hij

theorem of_crossed (hs : Scanned l r m arr i j i' j') (hcrossed : ¬ i' ≤ j')
    (h : Settled arr (arr m) i' j' σ a) : Settled arr (arr m) i j σ a := by
  have hnext := hs.crossed hcrossed
  have hup := hs.up
  have hdown := hs.down
  have hup' := h.up
  have hdown' := h.down
  refine ⟨h.moved.mono hup.1 hdown.2.1, h.arr_eq, by omega, by omega, fun c hic hcj => ?_⟩
  rw [h.moved.fixed (by omega)]
  by_cases hc : c < i'
  · have hbelow := hs.leaning_below hic hc
    omega
  · have habove := hs.leaning_above (k := c) (by omega) hcj
    omega

theorem of_exchange (hs : Scanned l r m arr i j i' j') (hij : i' ≤ j')
    (h : Settled (arr ∘ Equiv.swap i' j') (arr m) (i' + 1) (j' - 1) σ a) :
    Settled arr (arr m) i j (σ.trans (Equiv.swap i' j')) a := by
  have hup := hs.up
  have hdown := hs.down
  have hup' := h.up
  have hdown' := h.down
  have hmoved : MovesOnly i j (σ.trans (Equiv.swap i' j')) :=
    (MovesOnly.swap (by omega) (by omega)).trans (h.moved.mono (by omega) (by omega))
  refine ⟨hmoved, h.arr_eq, by omega, by omega, fun c hic hcj => ?_⟩
  rw [Equiv.trans_apply]
  by_cases hbetween : i' < c ∧ c < j'
  · -- the rest of the loop decides
    obtain ⟨hstay, hstay'⟩ := h.moved.stays (k := c) (by omega)
    rw [Equiv.swap_apply_of_ne_of_ne (by omega) (by omega),
      hs.leaning_between (by omega) (by omega), ← leaning_swap (by omega) (by omega)]
    exact h.sides c (by omega) (by omega)
  · rw [h.moved.fixed (by omega)]
    by_cases hci : c = i'
    · rw [hci, Equiv.swap_apply_left]
      by_cases hmet : i' = j'
      · have hlean := hs.leaning_met hmet
        rw [← hmet]
        omega
      · have hlean := hs.leaning_right (by omega)
        omega
    · by_cases hcj' : c = j'
      · have hlean := hs.leaning_left (by omega)
        rw [hcj', Equiv.swap_apply_right]
        omega
      · rw [Equiv.swap_apply_of_ne_of_ne hci hcj']
        by_cases hc : c < i'
        · have hlean := hs.leaning_below hic hc
          omega
        · have hlean := hs.leaning_above (k := c) (by omega) hcj
          omega

end Settled

section Loops

variable {l r m i j : Int} {arr : Arr} {n : Nat} {p : Event → Prop}

/-- The pivot does not change any more. -/
theorem returns_settled (h : Looping l r m arr i j) (hl : intMin < l) (hr : r ≤ intMax)
    (hm : l ≤ m ∧ m ≤ r) (hmax : m < r ∨ r < intMax) (hout : m < i ∨ j < m) (hn : j + 3 - i ≤ n)
    (hpos : 0 < n) (hcell : ∀ c, l ≤ c ∧ c ≤ r → p (.cell c))
    (hexchange : ∀ arr i j, i ≠ m → j ≠ m → p (.exchange arr l r m i j)) :
    Returns (exchangeLoop l r m n arr i j) p fun a => ∃ σ, Settled arr (arr m) i j σ a := by
  induction n generalizing arr i j with
  | zero => exact absurd hpos (Nat.lt_irrefl 0)
  | succ n ih =>
    by_cases hij : i ≤ j
    · obtain ⟨i', j', hscanned, hround⟩ := returns_round h hij hl hr hm hmax (n := n) (by omega)
      obtain ⟨hi, hij', -⟩ := hscanned.up
      obtain ⟨hji', hj, -⟩ := hscanned.down
      rw [hround hcell]
      split
      · next hle =>
        have hpivot : (arr ∘ Equiv.swap i' j') m = arr m := swap_beside (by omega) (by omega)
        refine ⟨hexchange arr i' j' (by omega) (by omega), ?_⟩
        refine (ih (h.exchanged hscanned hle) (by omega) (by omega) (by omega)).mono
          (fun _ => id) fun a ⟨σ, hσ⟩ => ?_
        rw [hpivot] at hσ
        exact ⟨_, hσ.of_exchange hscanned hle⟩
      · next hcrossed =>
        have hnext := hscanned.crossed hcrossed
        refine (ih (h.crossed hscanned hcrossed) (by omega) (by omega) (by omega)).mono
          (fun _ => id) fun a ⟨σ, hσ⟩ => ?_
        exact ⟨σ, hσ.of_crossed hscanned hcrossed⟩
    · rw [exchangeLoop, if_neg hij, returns_pure]
      exact ⟨_, Settled.finished hij⟩

end Loops

end LearnCLinux.QuickSort
