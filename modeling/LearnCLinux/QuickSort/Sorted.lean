import LearnCLinux.QuickSort.Pivot

/-! When `sort` sorts.  The pivot is read again after every exchange, also after the one that has
put something else in its place; what is left on one side may then belong on the other. -/

namespace LearnCLinux.QuickSort

open Access

/-- What is exchanged for the pivot is the pivot from then on.  Of the cells between `i` and `j`,
which have not been looked at, those that it will leave on the right are not below what is on the
left already, and those that it will leave on the left are not above what is on the right. -/
def Event.Harmless : Event → Prop
  | .exchange arr left right middle i j =>
    (i = middle → ∀ k, middle < k → k < j →
      0 ≤ leaning arr (arr j) (middle + 1) (j - 1) k →
        ∀ x, left ≤ x → x < middle → arr x ≤ arr k) ∧
    (j = middle → ∀ k, i < k → k < middle →
      leaning arr (arr i) (i + 1) (middle - 1) k ≤ 0 →
        ∀ y, middle < y → y ≤ right → arr k ≤ arr y)
  | _ => True

/-- What a loop from `i` to `j` leaves on the right is not below what is left of `i`. -/
def RightFits (arr : Arr) (pivot l i j : Int) : Prop :=
  ∀ k, i ≤ k → k ≤ j → 0 ≤ leaning arr pivot i j k → ∀ x, l ≤ x → x < i → arr x ≤ arr k

/-- What it leaves on the left is not above what is right of `j`. -/
def LeftFits (arr : Arr) (pivot i j r : Int) : Prop :=
  ∀ k, i ≤ k → k ≤ j → leaning arr pivot i j k ≤ 0 → ∀ y, j < y → y ≤ r → arr k ≤ arr y

def Separated (l r : Int) (a : Arr × Int × Int) : Prop :=
  SplitAt l (a.2.2 + 1) r a.1 ∧ SplitAt l a.2.1 r a.1

section Loops

variable {arr : Arr} {pivot l r m i j i' j' x y : Int} {σ : Equiv.Perm Int} {a : Arr × Int × Int}

namespace Settled

theorem low (h : Settled arr pivot i j σ a) (hx : x ≤ a.2.2 ∨ x < a.2.1) :
    x < i ∨ (i ≤ x ∧ x ≤ j) ∧ leaning arr pivot i j (σ x) ≤ 0 := by
  have hup := h.up
  have hdown := h.down
  by_cases hxi : x < i
  · exact .inl hxi
  · have hsides := h.sides x (by omega) (by omega)
    exact .inr ⟨by omega, by omega⟩

theorem high (h : Settled arr pivot i j σ a) (hy : a.2.2 < y ∨ a.2.1 ≤ y) :
    j < y ∨ (i ≤ y ∧ y ≤ j) ∧ 0 ≤ leaning arr pivot i j (σ y) := by
  have hup := h.up
  have hdown := h.down
  by_cases hjy : j < y
  · exact .inl hjy
  · have hsides := h.sides y (by omega) (by omega)
    exact .inr ⟨by omega, by omega⟩

theorem rightFits (h : Settled arr pivot i j σ a) (hjr : j ≤ r)
    (hsplit : SplitAt l (a.2.2 + 1) r a.1) : RightFits arr pivot l i j := by
  intro k hik hkj hk x hlx hxi
  obtain ⟨c, ⟨hic, hcj⟩, rfl⟩ := h.exists_place ⟨hik, hkj⟩
  have hdown := h.down
  have hright := (h.sides c hic hcj).1.mpr hk
  have hle := hsplit x hlx (by omega) c (by omega) (by omega)
  rwa [h.value_outside (by omega), h.value] at hle

theorem leftFits (h : Settled arr pivot i j σ a) (hli : l ≤ i)
    (hsplit : SplitAt l a.2.1 r a.1) : LeftFits arr pivot i j r := by
  intro k hik hkj hk y hjy hyr
  obtain ⟨c, ⟨hic, hcj⟩, rfl⟩ := h.exists_place ⟨hik, hkj⟩
  have hup := h.up
  have hleft := (h.sides c hic hcj).2.mpr hk
  have hle := hsplit c (by omega) hleft y (by omega) hyr
  rwa [h.value, h.value_outside (by omega)] at hle

theorem apart (h : Settled arr pivot i j σ a)
    (hblocks : ∀ x, l ≤ x → x < i → ∀ y, j < y → y ≤ r → arr x ≤ arr y)
    (hright : RightFits arr pivot l i j) (hleft : LeftFits arr pivot i j r) (hlx : l ≤ x)
    (hyr : y ≤ r) (hx : x ≤ a.2.2 ∨ x < a.2.1) (hy : a.2.2 < y ∨ a.2.1 ≤ y) :
    a.1 x ≤ a.1 y := by
  rcases h.low hx with hxi | ⟨hxij, hlow⟩
  · rw [h.value_outside (c := x) (by omega)]
    rcases h.high hy with hjy | ⟨hyij, hhigh⟩
    · rw [h.value_outside (by omega)]
      exact hblocks x hlx hxi y hjy hyr
    · rw [h.value]
      obtain ⟨hi, hj⟩ := h.moved.stays hyij
      exact hright (σ y) hi hj hhigh x hlx hxi
  · rw [h.value]
    rcases h.high hy with hjy | ⟨hyij, hhigh⟩
    · rw [h.value_outside (by omega)]
      obtain ⟨hi, hj⟩ := h.moved.stays hxij
      exact hleft (σ x) hi hj hlow y hjy hyr
    · rw [h.value]
      exact (le_of_leaning_nonpos hlow).trans (le_of_leaning_nonneg hhigh)

theorem separated_iff (h : Settled arr pivot i j σ a) (hli : l ≤ i) (hjr : j ≤ r)
    (hblocks : ∀ x, l ≤ x → x < i → ∀ y, j < y → y ≤ r → arr x ≤ arr y) :
    Separated l r a ↔ RightFits arr pivot l i j ∧ LeftFits arr pivot i j r := by
  constructor
  · rintro ⟨hafter, hbefore⟩
    exact ⟨h.rightFits hjr hafter, h.leftFits hli hbefore⟩
  · rintro ⟨hright, hleft⟩
    refine ⟨fun x hlx hx y hy hyr => ?_, fun x hlx hx y hy hyr => ?_⟩
    · exact h.apart hblocks hright hleft hlx hyr (.inl (by omega)) (.inl (by omega))
    · exact h.apart hblocks hright hleft hlx hyr (.inr hx) (.inr hy)

end Settled

structure Facing (l r m : Int) (arr : Arr) (i j : Int) : Prop where
  looping : Looping l r m arr i j
  between : i ≤ m ∧ m ≤ j
  low : ∀ x, l ≤ x → x < i → arr x ≤ arr m
  high : ∀ y, j < y → y ≤ r → arr m ≤ arr y

namespace Facing

theorem start (hlm : l ≤ m) (hmr : m ≤ r) (arr : Arr) : Facing l r m arr l r where
  looping := Looping.start hlm hmr arr
  between := ⟨hlm, hmr⟩
  low x hlx hxl := by omega
  high y hry hyr := by omega

theorem low_exchanged (h : Facing l r m arr i j) (hs : Scanned l r m arr i j i' j') (hlx : l ≤ x)
    (hx : x ≤ i') : (arr ∘ Equiv.swap i' j') x ≤ arr m := by
  obtain ⟨him, hmj⟩ := hs.exchange h.between
  rw [Function.comp_apply]
  by_cases hxi : x = i'
  · rw [hxi, Equiv.swap_apply_left]
    exact hs.right_stop
  · rw [Equiv.swap_apply_of_ne_of_ne hxi (by omega)]
    by_cases hnew : i ≤ x
    · exact Int.le_of_lt (hs.below x hnew (by omega))
    · exact h.low x hlx (by omega)

theorem high_exchanged (h : Facing l r m arr i j) (hs : Scanned l r m arr i j i' j') (hyr : y ≤ r)
    (hy : j' ≤ y) : arr m ≤ (arr ∘ Equiv.swap i' j') y := by
  obtain ⟨him, hmj⟩ := hs.exchange h.between
  rw [Function.comp_apply]
  by_cases hyj : y = j'
  · rw [hyj, Equiv.swap_apply_right]
    exact hs.left_stop
  · rw [Equiv.swap_apply_of_ne_of_ne (by omega) hyj]
    by_cases hnew : y ≤ j
    · exact Int.le_of_lt (hs.above y (by omega) hnew)
    · exact h.high y (by omega) hyr

theorem exchanged (h : Facing l r m arr i j) (hs : Scanned l r m arr i j i' j') (him : i' < m)
    (hmj : m < j') : Facing l r m (arr ∘ Equiv.swap i' j') (i' + 1) (j' - 1) := by
  have hpivot : (arr ∘ Equiv.swap i' j') m = arr m := swap_beside (by omega) (by omega)
  refine ⟨h.looping.exchanged hs (by omega), by omega, fun x hlx hx => ?_, fun y hy hyr => ?_⟩
  · rw [hpivot]
    exact h.low_exchanged hs hlx (by omega)
  · rw [hpivot]
    exact h.high_exchanged hs hyr (by omega)

/-- Where the pivot is exchanged by `i`, it falls, and what is on the left may be above it. -/
theorem rightFits_iff (h : Facing l r m arr i j) (hs : Scanned l r m arr i j i' j')
    (hmoves : i' = m ∨ j' = m) :
    RightFits (arr ∘ Equiv.swap i' j') ((arr ∘ Equiv.swap i' j') m) l (i' + 1) (j' - 1) ↔
      (i' = m → ∀ k, m < k → k < j' → 0 ≤ leaning arr (arr j') (m + 1) (j' - 1) k →
        ∀ x, l ≤ x → x < m → arr x ≤ arr k) := by
  obtain ⟨him, hmj⟩ := hs.exchange h.between
  have hdown := hs.down
  have hright := h.looping.le_right
  constructor
  · intro hfits heq k hk hk' hlean x hlx hx
    subst heq
    rw [← leaning_swap hk hk'] at hlean
    have hle := hfits k (by omega) (by omega)
      (by rwa [Function.comp_apply, Equiv.swap_apply_left]) x hlx (by omega)
    rwa [swap_beside (by omega) (by omega), swap_beside (by omega) (by omega)] at hle
  · intro hbelow k hk hk' hlean x hlx hx
    have hpivot := le_of_leaning_nonneg hlean
    by_cases hxm : x = m
    · rwa [hxm]
    · by_cases heq : i' = m
      · subst heq
        rw [leaning_swap (by omega) (by omega), Function.comp_apply,
          Equiv.swap_apply_left] at hlean
        rw [swap_beside hxm (by omega), swap_beside (by omega) (by omega)]
        exact hbelow rfl k (by omega) (by omega) hlean x hlx (by omega)
      · -- the pivot has risen
        have hlow := h.low_exchanged hs hlx (x := x) (by omega)
        have hhigh := h.high_exchanged hs (y := m) (by omega) (by omega)
        exact hlow.trans (hhigh.trans hpivot)

/-- Where it is exchanged by `j`, it rises, and what is on the right may be below it. -/
theorem leftFits_iff (h : Facing l r m arr i j) (hs : Scanned l r m arr i j i' j')
    (hmoves : i' = m ∨ j' = m) :
    LeftFits (arr ∘ Equiv.swap i' j') ((arr ∘ Equiv.swap i' j') m) (i' + 1) (j' - 1) r ↔
      (j' = m → ∀ k, i' < k → k < m → leaning arr (arr i') (i' + 1) (m - 1) k ≤ 0 →
        ∀ y, m < y → y ≤ r → arr k ≤ arr y) := by
  obtain ⟨him, hmj⟩ := hs.exchange h.between
  have hup := hs.up
  have hleft := h.looping.left_le
  constructor
  · intro hfits heq k hk hk' hlean y hy hyr
    subst heq
    rw [← leaning_swap hk hk'] at hlean
    have hle := hfits k (by omega) (by omega)
      (by rwa [Function.comp_apply, Equiv.swap_apply_right]) y (by omega) hyr
    rwa [swap_beside (by omega) (by omega), swap_beside (by omega) (by omega)] at hle
  · intro habove k hk hk' hlean y hy hyr
    have hpivot := le_of_leaning_nonpos hlean
    by_cases hym : y = m
    · rwa [hym]
    · by_cases heq : j' = m
      · subst heq
        rw [leaning_swap (by omega) (by omega), Function.comp_apply,
          Equiv.swap_apply_right] at hlean
        rw [swap_beside (by omega) hym, swap_beside (by omega) (by omega)]
        exact habove rfl k (by omega) (by omega) hlean y (by omega) hyr
      · -- the pivot has fallen
        have hlow := h.low_exchanged hs (x := m) (by omega) (by omega)
        have hhigh := h.high_exchanged hs hyr (y := y) (by omega)
        exact hpivot.trans (hlow.trans hhigh)

/-- An exchange that moves the pivot is harmless if and only if the parts are apart in the end. -/
theorem harmless_iff (h : Facing l r m arr i j) (hs : Scanned l r m arr i j i' j')
    (hmoves : i' = m ∨ j' = m)
    (ha : Settled (arr ∘ Equiv.swap i' j') ((arr ∘ Equiv.swap i' j') m) (i' + 1) (j' - 1) σ a) :
    (Event.exchange arr l r m i' j').Harmless ↔ Separated l r a := by
  have hup := hs.up
  have hdown := hs.down
  have hleft := h.looping.left_le
  have hright := h.looping.le_right
  have hblocks : ∀ x, l ≤ x → x < i' + 1 → ∀ y, j' - 1 < y → y ≤ r →
      (arr ∘ Equiv.swap i' j') x ≤ (arr ∘ Equiv.swap i' j') y := fun x hlx hx y hy hyr =>
    (h.low_exchanged hs hlx (by omega)).trans (h.high_exchanged hs hyr (by omega))
  rw [ha.separated_iff (by omega) (by omega) hblocks, h.rightFits_iff hs hmoves,
    h.leftFits_iff hs hmoves]
  rfl

end Facing

/-- The exchanges of the loop are harmless if and only if it leaves two parts that can be sorted one
after the other. -/
theorem returns_harmless_iff (h : Facing l r m arr i j) (hl : intMin < l) (hr : r ≤ intMax)
    (hmax : m < r ∨ r < intMax) {n : Nat} (hn : j + 3 - i ≤ n) :
    Returns (exchangeLoop l r m n arr i j) Event.Harmless (fun _ => True) ↔
      Returns (exchangeLoop l r m n arr i j) (fun _ => True) (Separated l r) := by
  induction n generalizing arr i j with
  | zero =>
    have := h.between
    omega
  | succ n ih =>
    have hmij := h.between
    have hl' := h.looping.left_le
    have hr' := h.looping.le_right
    obtain ⟨i', j', hscanned, hround⟩ :=
      returns_round h.looping (by omega) hl hr (by omega) hmax (n := n) (by omega)
    obtain ⟨him, hmj⟩ := hscanned.exchange hmij
    have hup := hscanned.up
    have hdown := hscanned.down
    rw [hround fun _ _ => trivial, hround fun _ _ => trivial, if_pos (by omega),
      if_pos (by omega)]
    by_cases hmoves : i' = m ∨ j' = m
    · obtain ⟨a, ⟨σ, ha⟩, hdetermined⟩ :=
        (returns_settled (p := Event.Harmless) (n := n)
          (h.looping.exchanged hscanned (by omega)) hl hr (by omega) hmax (by omega) (by omega)
          (by omega) (fun _ _ => trivial)
          fun _ _ _ hi hj => ⟨fun heq => absurd heq hi, fun heq => absurd heq hj⟩).determines
      rw [hdetermined fun _ => id, hdetermined fun _ _ => trivial, and_true, true_and]
      exact h.harmless_iff hscanned hmoves ha
    · have hbeside : (Event.exchange arr l r m i' j').Harmless :=
        ⟨fun heq => absurd (.inl heq) hmoves, fun heq => absurd (.inr heq) hmoves⟩
      have hnext := h.exchanged hscanned (by omega) (by omega)
      rw [and_iff_right hbeside, and_iff_right trivial]
      exact ih hnext (by omega)

end Loops

section Sorts

variable {arr : Arr} {l r : Int} {n : Nat}

theorem sortedOn_one (hlr : r ≤ l) : SortedOn l r arr :=
  fun x hlx hxr y hxy hyr => by omega

/-- Without overflow `sort` sorts if and only if its exchanges are harmless. -/
theorem returns_sortUnbounded_sorted (arr : Arr) (hl : 0 ≤ l) (hlr : l ≤ r) (hr : r ≤ intMax)
    (hmax : l < r ∨ r < intMax) (hn : r + 4 - l ≤ n) :
    Returns (sortUnbounded n arr l r) Event.Harmless (fun _ => True) ↔
      Returns (sortUnbounded n arr l r) (fun _ => True) (SortedOn l r) := by
  induction n generalizing arr l r with
  | zero => omega
  | succ n ih =>
    have hpart : ∀ arr {l' r'}, l ≤ l' → r' ≤ r → r' + 4 - l' ≤ n →
        (Returns (sortPart n arr l' r') Event.Harmless (fun _ => True) ↔
          Returns (sortPart n arr l' r') (fun _ => True) (SortedOn l' r')) := by
      intro arr l' r' hl' hr' hn'
      rw [sortPart]
      split
      · exact ih arr (by omega) (by omega) (by omega) (by omega) hn'
      · rw [returns_pure, returns_pure]
        exact iff_of_true trivial (sortedOn_one (by omega))
    obtain ⟨hlm, hmr, hmlt⟩ := middle_mem hl hlr
    have hmin : intMin < l := by
      have : intMin < 0 := by decide
      omega
    obtain ⟨⟨b, i, j⟩, hloop, ⟨hleft, hright, hapart⟩, hb⟩ :=
      (returns_exchangeLoop (n := n) (p := fun _ => True) (Looping.start hlm hmr arr) hmin hr
        ⟨hlm, hmr⟩ (by omega) (by omega) (by omega) (fun _ _ => trivial)
        fun _ _ _ => trivial).value_eq
    dsimp only at hleft hright hapart
    obtain ⟨c, hfirst, hc⟩ :=
      (returns_sortPart (r := j) (n := n) b hl (by omega) (by omega)).value_eq
    obtain ⟨d, hsecond, hd⟩ :=
      (returns_sortPart (l := i) (n := n) c (by omega) hr (by omega)).value_eq
    have hseparated := returns_harmless_iff (Facing.start hlm hmr arr) hmin hr
      (n := n) (by omega) (by omega)
    have hsorted := hpart b (Int.le_refl l) (by omega : j ≤ r) (by omega)
    have hsorted' := hpart c (by omega : l ≤ i) (Int.le_refl r) (by omega)
    rw [returns_of_value hloop] at hseparated
    rw [returns_of_value hfirst] at hsorted
    rw [returns_of_value hsecond] at hsorted'
    rw [returns_sortUnbounded_succ, returns_sortUnbounded_succ, returns_iff_of_value hloop,
      returns_iff_of_value hfirst, hseparated, hsorted, hsorted', returns_of_value hloop,
      returns_of_value hfirst, returns_of_value hsecond,
      sortedOn_join_iff (by omega) (by omega) hapart.1 hapart.2 hc hd]
    constructor
    · rintro ⟨-, ⟨hafter, hbefore⟩, hfirst, hsecond⟩
      exact ⟨trivial, hfirst, hsecond, hafter, hbefore⟩
    · rintro ⟨-, hfirst, hsecond, hafter, hbefore⟩
      exact ⟨trivial, ⟨hafter, hbefore⟩, hfirst, hsecond⟩

theorem returns_sortUnbounded_empty {p : Event → Prop} {q : Arr → Prop} (hrl : r < l) :
    Returns (sortUnbounded (n + 2) arr l r) p q ↔ p (.call l r) ∧ q arr := by
  rw [returns_sortUnbounded_succ, exchangeLoop, if_neg (not_le.mpr hrl), returns_pure, sortPart,
    if_neg (not_lt.mpr (Int.le_of_lt hrl)), returns_pure, sortPart,
    if_neg (not_lt.mpr (Int.le_of_lt hrl)), returns_pure]

end Sorts

def Sorts (arr : Arr) (left right : Int) : Prop :=
  ∃ n, Returns (sort n arr left right) (fun _ => True) (SortedOn left right)

/-- No exchange replaces the pivot where it does harm. -/
def ExchangesHarmless (arr : Arr) (left right : Int) : Prop :=
  ∃ n, Returns (sortUnbounded n arr left right) Event.Harmless fun _ => True

section Arrays

variable {arr : Arr} {l r : Int}

theorem sorts_iff (hl : 0 ≤ l) (hlr : l ≤ r) (hr : r ≤ intMax) (hmax : l < r ∨ r < intMax) :
    Sorts arr l r ↔ NoSumOverflows arr l r ∧ ExchangesHarmless arr l r := by
  have henough := fun n => returns_sortUnbounded_sorted
    (n := max n (r + 4 - l).toNat) arr hl hlr hr hmax (by omega)
  constructor
  · rintro ⟨n, h⟩
    rw [returns_sort_iff] at h
    refine ⟨⟨n, h.mono (fun _ he => he.2) fun _ _ => trivial⟩, max n (r + 4 - l).toNat, ?_⟩
    exact (henough n).mpr
      ((sortUnbounded_mono h (Nat.le_max_left _ _)).mono (fun _ _ => trivial) fun _ => id)
  · rintro ⟨⟨n, hsum⟩, k, hharmless⟩
    have hsorted := (henough k).mp (sortUnbounded_mono hharmless (Nat.le_max_left _ _))
    refine ⟨_, returns_sort_iff.mpr ((sortUnbounded_and hsum hsorted).mono ?_ fun _ hq => hq.2)⟩
    exact fun e he => ⟨trivial, he.1⟩

theorem sorts_empty_iff (arr : Arr) :
    Sorts arr 0 (-1) ↔ NoSumOverflows arr 0 (-1) ∧ ExchangesHarmless arr 0 (-1) := by
  have hempty : (-1 : Int) < 0 := by decide
  refine iff_of_true ⟨2, ?_⟩ ⟨⟨2, ?_⟩, 2, ?_⟩
  · rw [returns_sort_iff, returns_sortUnbounded_empty hempty]
    exact ⟨⟨trivial, Event.sumFits_call.mpr (by decide)⟩, sortedOn_one (by decide)⟩
  · rw [returns_sortUnbounded_empty hempty]
    exact ⟨Event.sumFits_call.mpr (by decide), trivial⟩
  · rw [returns_sortUnbounded_empty hempty]
    exact ⟨trivial, trivial⟩

end Arrays

/-- The first exchange puts 0 in the place of the pivot, 3.  From then on 2 is on the left, and 1,
which is above the new pivot, stays on the right. -/
theorem pivot_replaced_unsorted : ¬ Sorts (arrOf [2, 3, 1, 0]) 0 3 := by
  rintro ⟨n, h⟩
  have hvalue : (value (sort 12 (arrOf [2, 3, 1, 0]) 0 3)).map (fun b => (b 1, b 2)) =
      some (2, 1) := by decide +kernel
  obtain ⟨b, hb, hcells⟩ := Option.map_eq_some_iff.mp hvalue
  have hunsorted : Returns (sort 12 (arrOf [2, 3, 1, 0]) 0 3) (fun _ => True)
      (fun b => (b 1, b 2) = (2, 1)) := (returns_of_value hb).mpr hcells
  rw [returns_sort_iff] at h hunsorted
  obtain ⟨a, -, -, -, hsorted, ha⟩ := sortUnbounded_and h hunsorted
  have hle := hsorted 1 (by decide) (by decide) 2 (by decide) (by decide)
  rw [(Prod.mk.inj ha).1, (Prod.mk.inj ha).2] at hle
  exact absurd hle (by decide)

theorem sort_sorts_iff (arr : Arr) (n : Nat) (hn : (n : Int) - 1 ≤ intMax) :
    Sorts arr 0 (n - 1) ↔
      NoSumOverflows arr 0 (n - 1) ∧ ExchangesHarmless arr 0 (n - 1) := by
  by_cases hempty : n = 0
  · subst hempty
    exact sorts_empty_iff arr
  · have hmax : (0 : Int) < n - 1 ∨ (n : Int) - 1 < intMax := by
      simp only [intMax] at hn ⊢
      omega
    exact sorts_iff (Int.le_refl 0) (by omega) hn hmax

theorem sort_sorts_main :
    NoSumOverflows mainArr 0 (14 - 1) ∧ ExchangesHarmless mainArr 0 (14 - 1) := by
  have hvalue : ∃ b ∈ value (sort 20 mainArr 0 13), SortedOn 0 13 b := by decide +kernel
  obtain ⟨b, hb, hsorted⟩ := hvalue
  exact (sort_sorts_iff mainArr 14 (by decide)).mp ⟨20, (returns_of_value hb).mpr hsorted⟩

end LearnCLinux.QuickSort
