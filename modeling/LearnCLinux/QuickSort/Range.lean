import LearnCLinux.QuickSort.Partition

/-! Where `sort` reads and writes, that it ends, and when the sum of its bounds overflows. -/

namespace LearnCLinux.QuickSort

open Access

namespace Event

def Inside (l r : Int) : Event → Prop
  | .cell i => l ≤ i ∧ i ≤ r
  | _ => True

/-- Cells and calls between the bounds of a call: those it makes have two cells at least. -/
def Within (l r : Int) : Event → Prop
  | .cell i => l ≤ i ∧ i ≤ r
  | .call l' r' => l ≤ l' ∧ r' ≤ r ∧ (l' < r' ∨ l' = l ∧ r' = r)
  | .exchange _ _ _ _ _ _ => True

/-- A call the sum of whose bounds is an `int`. -/
def SumFits : Event → Prop
  | .call l r => intMin ≤ l + r ∧ l + r ≤ intMax
  | _ => True

@[simp] theorem sumFits_cell {i : Int} : (cell i).SumFits := trivial

@[simp] theorem sumFits_call {l r : Int} :
    (call l r).SumFits ↔ intMin ≤ l + r ∧ l + r ≤ intMax := Iff.rfl

@[simp] theorem sumFits_exchange {arr : Arr} {l r m i j : Int} :
    (exchange arr l r m i j).SumFits := trivial

theorem Within.mono {e : Event} {l r l' r' : Int} (h : e.Within l' r') (hlr : l' < r')
    (hl : l ≤ l') (hr : r' ≤ r) : e.Within l r := by
  cases e with
  | cell i => exact ⟨Int.le_trans hl h.1, Int.le_trans h.2 hr⟩
  | call i j =>
    obtain ⟨hi, hj, hij⟩ := h
    exact ⟨by omega, by omega, by omega⟩
  | exchange => trivial

theorem Within.inside {e : Event} {l r : Int} (h : e.Within l r) : e.Inside l r := by
  cases e with
  | cell i => exact h
  | _ => trivial

/-- No sum overflows below the middle of the `int`s, nor where there is one cell. -/
theorem Within.sumFits {e : Event} {l r : Int} (h : e.Within l r) (hl : 0 ≤ l) (hlr : l ≤ r)
    (hsum : l + r ≤ intMax) (hr : l = r ∨ r ≤ 2 ^ 30) : e.SumFits := by
  cases e with
  | call i j =>
    obtain ⟨hi, hj, hij⟩ := h
    rw [sumFits_call]
    simp only [intMin, intMax] at hsum ⊢
    rcases hij with hij | ⟨rfl, rfl⟩
    · omega
    · omega
  | _ => trivial

end Event

def sortPart (n : Nat) (arr : Arr) (l r : Int) : Access Event Arr :=
  if l < r then sortUnbounded n arr l r else pure arr

section Unfolding

variable {l r : Int} {arr : Arr} {n : Nat} {p : Event → Prop} {q : Arr → Prop}

theorem not_returns_zero : ¬ Returns (sortUnbounded 0 arr l r) p q := returns_fail

theorem returns_sortUnbounded_succ : Returns (sortUnbounded (n + 1) arr l r) p q ↔
    p (.call l r) ∧ Returns (exchangeLoop l r ((l + r).tdiv 2) n arr l r) p fun a =>
      Returns (sortPart n a.1 l a.2.2) p fun b => Returns (sortPart n b a.2.1 r) p q := by
  simp only [sortUnbounded, sortWith, sortPart, returns_bind, returns_touch, returns_pure,
    returns_ite, List.mem_singleton, forall_eq]

theorem returns_sort_succ : Returns (sort (n + 1) arr l r) p q ↔
    p (.call l r) ∧ (intMin ≤ l + r ∧ l + r ≤ intMax) ∧
      Returns (exchangeLoop l r ((l + r).tdiv 2) n arr l r) p fun a =>
        Returns (if l < a.2.2 then sort n a.1 l a.2.2 else pure a.1) p fun b =>
          Returns (if a.2.1 < r then sort n b a.2.1 r else pure b) p q := by
  simp only [sort, sortWith, returns_bind, returns_touch, returns_int, returns_pure, returns_ite,
    List.mem_singleton, forall_eq]

theorem returns_exchangeLoop_sumFits {m i j : Int} {q : Arr × Int × Int → Prop} :
    Returns (exchangeLoop l r m n arr i j) p q ↔
      Returns (exchangeLoop l r m n arr i j) (fun e => p e ∧ e.SumFits) q := by
  induction n generalizing arr i j with
  | zero => exact ⟨fun h => (returns_fail h).elim, fun h => (returns_fail h).elim⟩
  | succ n ih =>
    simp only [exchangeLoop, returns_ite, returns_bind, returns_note, returns_touch, returns_pure,
      returns_int, List.mem_singleton, forall_eq, ← ih, Event.sumFits_cell, Event.sumFits_exchange,
      and_true]

/-- The code fails where a sum overflows, and only there. -/
theorem returns_sort_iff : Returns (sort n arr l r) p q ↔
    Returns (sortUnbounded n arr l r) (fun e => p e ∧ e.SumFits) q := by
  induction n generalizing arr l r q with
  | zero => exact ⟨fun h => (returns_fail h).elim, fun h => (returns_fail h).elim⟩
  | succ n ih =>
    rw [returns_sort_succ, returns_sortUnbounded_succ, ← returns_exchangeLoop_sumFits]
    simp only [sortPart, returns_ite, returns_pure, ih, Event.sumFits_call, and_assoc]

end Unfolding

section Fuel

variable {m d i j l r : Int} {arr : Arr} {n k : Nat} {passes : Int → Int → Bool}
  {p : Event → Prop}

theorem scan_succ {p q : Int → Prop} (h : Returns (scan passes d arr m n i) p q) :
    Returns (scan passes d arr m (n + 1) i) p q := by
  induction n generalizing i with
  | zero => exact (returns_fail h).elim
  | succ n ih =>
    rw [scan] at h ⊢
    simp only [returns_bind, returns_read, returns_ite, returns_int, returns_pure] at h ⊢
    obtain ⟨hi, hm, hpass, hstop⟩ := h
    exact ⟨hi, hm, fun h => ⟨(hpass h).1, ih (hpass h).2⟩, hstop⟩

theorem exchangeLoop_succ {q : Arr × Int × Int → Prop}
    (h : Returns (exchangeLoop l r m n arr i j) p q) :
    Returns (exchangeLoop l r m (n + 1) arr i j) p q := by
  induction n generalizing arr i j with
  | zero => exact (returns_fail h).elim
  | succ n ih =>
    rw [exchangeLoop] at h ⊢
    simp only [returns_ite, returns_bind, returns_note, returns_touch, returns_exchangeValue,
      returns_int, returns_pure] at h ⊢
    refine ⟨fun hij => ?_, h.2⟩
    refine (scan_succ (h.1 hij)).mono (fun _ => id) fun i' hup => ?_
    refine (scan_succ hup).mono (fun _ => id) fun j' hdown => ?_
    refine ⟨fun hij' => ?_, fun hcrossed => ih (hdown.2 hcrossed)⟩
    obtain ⟨hexchange, hcells, hi, hj, hrest⟩ := hdown.1 hij'
    exact ⟨hexchange, hcells, hi, hj, ih hrest⟩

theorem exchangeLoop_mono {q : Arr × Int × Int → Prop}
    (h : Returns (exchangeLoop l r m n arr i j) p q) (hn : n ≤ k) :
    Returns (exchangeLoop l r m k arr i j) p q := by
  induction hn with
  | refl => exact h
  | step _ ih => exact exchangeLoop_succ ih

theorem sortUnbounded_succ {q : Arr → Prop}
    (h : Returns (sortUnbounded n arr l r) p q) :
    Returns (sortUnbounded (n + 1) arr l r) p q := by
  induction n generalizing arr l r q with
  | zero => exact (not_returns_zero h).elim
  | succ n ih =>
    have hpart : ∀ {arr l r q}, Returns (sortPart n arr l r) p q →
        Returns (sortPart (n + 1) arr l r) p q := by
      intro arr l r q h
      rw [sortPart, returns_ite] at h ⊢
      exact ⟨fun hlr => ih (h.1 hlr), h.2⟩
    rw [returns_sortUnbounded_succ] at h ⊢
    refine ⟨h.1, (exchangeLoop_succ h.2).mono (fun _ => id) fun a ha => ?_⟩
    exact (hpart ha).mono (fun _ => id) fun b hb => hpart hb

theorem sortUnbounded_mono {q : Arr → Prop}
    (h : Returns (sortUnbounded n arr l r) p q) (hn : n ≤ k) :
    Returns (sortUnbounded k arr l r) p q := by
  induction hn with
  | refl => exact h
  | step _ ih => exact sortUnbounded_succ ih

theorem sortPart_mono {q : Arr → Prop} (h : Returns (sortPart n arr l r) p q)
    (hn : n ≤ k) : Returns (sortPart k arr l r) p q := by
  rw [sortPart, returns_ite] at h ⊢
  exact ⟨fun hlr => sortUnbounded_mono (h.1 hlr) hn, h.2⟩

theorem sortUnbounded_and {p' : Event → Prop} {q q' : Arr → Prop}
    (h : Returns (sortUnbounded n arr l r) p q) (h' : Returns (sortUnbounded k arr l r) p' q') :
    Returns (sortUnbounded (max n k) arr l r) (fun e => p e ∧ p' e) fun a => q a ∧ q' a :=
  (sortUnbounded_mono h (Nat.le_max_left n k)).and (sortUnbounded_mono h' (Nat.le_max_right n k))

end Fuel

section Bounds

variable {l r : Int} {arr : Arr} {n : Nat}

theorem middle_mem (hl : 0 ≤ l) (hlr : l ≤ r) :
    l ≤ (l + r).tdiv 2 ∧ (l + r).tdiv 2 ≤ r ∧ (l < r → (l + r).tdiv 2 < r) := by
  rw [Int.tdiv_eq_ediv_of_nonneg (by omega)]
  omega

/-- Without overflow `sort` ends, stays between its bounds, and rearranges what is there. -/
theorem returns_sortUnbounded (arr : Arr) (hl : 0 ≤ l) (hlr : l ≤ r) (hr : r ≤ intMax)
    (hmax : l < r ∨ r < intMax) (hn : r + 4 - l ≤ n) :
    Returns (sortUnbounded n arr l r) (Event.Within l r) (Rearranges l r arr) := by
  induction n generalizing arr l r with
  | zero => omega
  | succ n ih =>
    obtain ⟨hlm, hmr, hmlt⟩ := middle_mem hl hlr
    have hpart : ∀ arr {l' r'}, l ≤ l' → r' ≤ r → r' + 4 - l' ≤ n →
        Returns (sortPart n arr l' r') (Event.Within l r) (Rearranges l' r' arr) := by
      intro arr l' r' hl' hr' hn'
      rw [sortPart]
      split
      · next hlt =>
        exact (ih arr (by omega) (by omega) (by omega) (by omega) hn').mono
          (fun e he => he.mono hlt hl' hr') fun _ => id
      · rw [returns_pure]
        exact Rearranges.refl l' r' arr
    have hmin : intMin < l := by
      have : intMin < 0 := by decide
      omega
    rw [returns_sortUnbounded_succ]
    refine ⟨⟨Int.le_refl l, Int.le_refl r, .inr ⟨rfl, rfl⟩⟩,
      (returns_exchangeLoop (Looping.start hlm hmr arr) hmin hr ⟨hlm, hmr⟩ (by omega) (by omega)
        (by omega) (fun _ => id) fun _ _ _ => trivial).mono (fun _ => id) ?_⟩
    rintro ⟨b, i, j⟩ ⟨⟨hleft, hright, hapart⟩, hb⟩
    dsimp only at hleft hright hapart hb ⊢
    refine (hpart b (Int.le_refl l) (by omega) (by omega)).mono (fun _ => id) fun c hc => ?_
    refine (hpart c (by omega) (Int.le_refl r) (by omega)).mono (fun _ => id) fun d hd => ?_
    exact hb.trans ((hc.mono (Int.le_refl l) (by omega)).trans
      (hd.mono (by omega) (Int.le_refl r)))

theorem returns_sortPart (arr : Arr) (hl : 0 ≤ l) (hr : r ≤ intMax) (hn : r + 4 - l ≤ n) :
    Returns (sortPart n arr l r) (fun _ => True) (Rearranges l r arr) := by
  rw [sortPart, returns_ite]
  refine ⟨fun hlr => ?_, fun _ => returns_pure.mpr (Rearranges.refl l r arr)⟩
  exact (returns_sortUnbounded arr hl (by omega) hr (.inl hlr) hn).mono (fun _ _ => trivial)
    fun _ => id

end Bounds

/-- `sort` ends, touches cells from `left` to `right` only, and leaves there what was there, in some
order, and everything else as it was. -/
def SortsWithin (arr : Arr) (left right : Int) : Prop :=
  ∃ n, Returns (sort n arr left right) (Event.Inside left right) (Rearranges left right arr)

def NoSumOverflows (arr : Arr) (left right : Int) : Prop :=
  ∃ n, Returns (sortUnbounded n arr left right) Event.SumFits fun _ => True

section Overflows

variable {l r m : Int} {arr : Arr} {n : Nat}

theorem sortsWithin_iff (arr : Arr) (hl : 0 ≤ l) (hlr : l ≤ r) (hsum : l + r ≤ intMax) :
    SortsWithin arr l r ↔ NoSumOverflows arr l r := by
  constructor
  · rintro ⟨n, h⟩
    exact ⟨n, (returns_sort_iff.mp h).mono (fun _ he => he.2) fun _ _ => trivial⟩
  · rintro ⟨n, h⟩
    have hends := returns_sortUnbounded (n := (r + 4 - l).toNat) arr hl hlr (by omega)
      (by simp only [intMax] at hsum ⊢; omega) (by omega)
    refine ⟨_, returns_sort_iff.mpr ((sortUnbounded_and hends h).mono ?_ fun _ ha => ha.1)⟩
    exact fun e he => ⟨he.1.inside, he.2⟩

theorem returns_exchangeLoop_ascending (harr : ∀ k, l ≤ k → k ≤ r → arr k = k) (hl : 0 ≤ l)
    (hr : r ≤ intMax) (hm : l ≤ m ∧ m < r) (hn : r - l + 1 ≤ n) :
    Returns (exchangeLoop l r m (n + 2) arr l r) (fun _ => True)
      fun a => a = (arr, m + 1, m - 1) := by
  have hmin : intMin < 0 := by decide
  obtain ⟨i, j, hscanned, hround⟩ := returns_round (Looping.start hm.1 (by omega) arr)
    (n := n + 1) (by omega) (by omega) hr (by omega) (.inl hm.2) (by omega)
  obtain ⟨him, hmj⟩ := hscanned.exchange (by omega)
  obtain ⟨hli, -, hir⟩ := hscanned.up
  obtain ⟨-, hjr, hlj⟩ := hscanned.down
  -- both scans stop at the middle
  have hup := hscanned.left_stop
  have hdown := hscanned.right_stop
  have hmid := harr m hm.1 (by omega)
  rw [harr i hli hir, hmid] at hup
  rw [harr j hlj hjr, hmid] at hdown
  obtain rfl : i = m := by omega
  obtain rfl : j = i := by omega
  rw [hround fun _ _ => trivial, if_pos (Int.le_refl j), Equiv.swap_self, exchangeLoop,
    if_neg (by omega), returns_pure]
  exact ⟨trivial, rfl⟩

/-- On an ascending array the right part of the right part, and so on, comes to a sum that
overflows. -/
theorem ascending_overflows (harr : ∀ k, l ≤ k → k ≤ r → arr k = k) (hl : 0 ≤ l) (hlr : l < r)
    (hr : r ≤ intMax) (hbig : 2 ^ 30 < r) :
    ¬ Returns (sortUnbounded n arr l r) Event.SumFits fun _ => True := by
  induction n generalizing arr l with
  | zero => exact not_returns_zero
  | succ n ih =>
    intro h
    rw [returns_sortUnbounded_succ, Event.sumFits_call] at h
    obtain ⟨hsum, h⟩ := h
    simp only [intMax] at hsum
    obtain ⟨hlm, -, hmr⟩ := middle_mem hl (Int.le_of_lt hlr)
    have hmid : ((l + r).tdiv 2 : Int) = (l + r) / 2 := Int.tdiv_eq_ediv_of_nonneg (by omega)
    have hloop := returns_exchangeLoop_ascending (n := n + (r + 4 - l).toNat) harr hl hr
      ⟨hlm, hmr hlr⟩ (by omega)
    obtain ⟨-, -, -, -, hparts, rfl⟩ :=
      (exchangeLoop_mono h (k := n + (r + 4 - l).toNat + 2) (by omega)).and hloop
    have hleft := returns_sortPart (r := (l + r).tdiv 2 - 1)
      (n := n + (r + 4 - l).toNat) arr hl (by omega) (by omega)
    obtain ⟨b, -, -, -, hright, hb⟩ :=
      (sortPart_mono hparts (k := n + (r + 4 - l).toNat) (by omega)).and hleft
    have hlt : (l + r).tdiv 2 + 1 < r := by omega
    rw [sortPart, if_pos hlt] at hright
    refine ih (fun k hk hkr => ?_) (by omega) hlt hright
    rw [hb.outside (by omega), harr k (by omega) hkr]

theorem noSumOverflows_of_le (hl : 0 ≤ l) (hlr : l ≤ r) (hsum : l + r ≤ intMax)
    (hsmall : l = r ∨ r ≤ 2 ^ 30) (arr : Arr) : NoSumOverflows arr l r := by
  have hmax : r ≤ intMax ∧ (l < r ∨ r < intMax) := by
    simp only [intMax] at hsum ⊢
    omega
  refine ⟨(r + 4 - l).toNat, (returns_sortUnbounded arr hl hlr hmax.1 hmax.2 (by omega)).mono ?_
    fun _ _ => trivial⟩
  exact fun e he => he.sumFits hl hlr hsum hsmall

/-- Two cells past the middle of the `int`s are enough. -/
theorem ascending_sum_overflows :
    (0 : Int) ≤ 1073741822 ∧ (1073741822 : Int) + 1073741825 ≤ intMax ∧
      ¬ SortsWithin (fun k => k) 1073741822 1073741825 := by
  refine ⟨by decide, by decide, fun h => ?_⟩
  obtain ⟨n, hn⟩ := (sortsWithin_iff _ (by decide) (by decide) (by decide)).mp h
  exact ascending_overflows (fun _ _ _ => rfl) (by decide) (by decide) (by decide) (by decide) hn

/-- `sort` keeps to its bounds as long as no call has a sum that overflows.  That is so of every
array exactly where the bounds are below the middle of the `int`s, or there is one cell. -/
theorem sort_keeps_bounds_iff {left right : Int} (hleft : 0 ≤ left) (hle : left ≤ right)
    (hsum : left + right ≤ intMax) :
    (∀ arr, SortsWithin arr left right ↔ NoSumOverflows arr left right) ∧
      ((∀ arr, SortsWithin arr left right) ↔ left = right ∨ right ≤ 2 ^ 30) := by
  have hiff := fun arr => sortsWithin_iff arr hleft hle hsum
  refine ⟨hiff, fun h => ?_, fun h arr => ?_⟩
  · by_contra hbig
    obtain ⟨n, hn⟩ := (hiff fun k => k).mp (h _)
    have hmax : right ≤ intMax := by omega
    exact ascending_overflows (fun _ _ _ => rfl) hleft (by omega) hmax (by omega) hn
  · exact (hiff arr).mpr (noSumOverflows_of_le hleft hle hsum h arr)

theorem sort_keeps_bounds_four :
    (∀ arr, SortsWithin arr 0 3 ↔ NoSumOverflows arr 0 3) ∧
      ((∀ arr, SortsWithin arr 0 3) ↔ (0 : Int) = 3 ∨ (3 : Int) ≤ 2 ^ 30) :=
  sort_keeps_bounds_iff (by decide) (by decide) (by decide)

end Overflows

end LearnCLinux.QuickSort
