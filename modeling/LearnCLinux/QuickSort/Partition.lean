import LearnCLinux.Library.Rearrangement
import LearnCLinux.QuickSort.Code

/-! One round of `sort`: the scans stop at sentinels.  An exchange may move the pivot, but what it
leaves on either side still stops the next scans. -/

namespace LearnCLinux.QuickSort

open Access

section Cells

variable {arr : Arr} {a b i x : Int} {p : Int → Prop}

@[simp] theorem returns_int {ι : Type} {p : ι → Prop} {q : Int → Prop} :
    Returns (int x) p q ↔ (intMin ≤ x ∧ x ≤ intMax) ∧ q x := by
  rw [int]
  split
  · next h => simp [h]
  · next h => simp [h]

@[simp] theorem returns_read {q : Int → Prop} :
    Returns (read arr i) p q ↔ p i ∧ q (arr i) := by
  simp [read]

@[simp] theorem returns_write {q : Arr → Prop} :
    Returns (write arr i x) p q ↔ p i ∧ q (Function.update arr i x) := by
  simp [write]

@[simp] theorem returns_exchangeValue {q : Arr → Prop} :
    Returns (exchangeValue arr a b) p q ↔ (p a ∧ p b) ∧ q (arr ∘ Equiv.swap a b) := by
  have hswap : Function.update (Function.update arr a (arr b)) b (arr a) =
      arr ∘ Equiv.swap a b := by
    rw [Equiv.swap_comm]
    exact (Equiv.comp_swap_eq_update b a arr).symm
  simp only [exchangeValue, returns_bind, returns_read, returns_write, hswap]
  constructor
  · rintro ⟨ha, hb, -, -, hq⟩
    exact ⟨⟨ha, hb⟩, hq⟩
  · rintro ⟨⟨ha, hb⟩, hq⟩
    exact ⟨ha, hb, ha, hb, hq⟩

end Cells

section Scans

variable {arr : Arr} {m i d : Int} {n t : Nat} {p : Int → Prop} {passes : Int → Int → Bool}

theorem returns_scan (ht : t < n) (hstop : passes (arr (i + d * t)) (arr m) = false) (hm : p m)
    (hcells : ∀ u ≤ t, p (i + d * u) ∧ intMin ≤ i + d * u ∧ i + d * u ≤ intMax) :
    Returns (scan passes d arr m n i) p fun k => ∃ u ≤ t, k = i + d * u ∧
      (∀ v < u, passes (arr (i + d * v)) (arr m) = true) ∧ passes (arr k) (arr m) = false := by
  induction n generalizing i t with
  | zero => exact absurd ht (Nat.not_lt_zero t)
  | succ n ih =>
    have hshift : ∀ u : Nat, i + d + d * u = i + d * ((u + 1 : Nat) : Int) := by
      intro u
      rw [Int.natCast_succ, Int.mul_add, Int.mul_one]
      omega
    have hnow : p i := by simpa using (hcells 0 (Nat.zero_le t)).1
    simp only [scan, returns_bind, returns_read]
    refine ⟨hnow, hm, ?_⟩
    by_cases hpass : passes (arr i) (arr m) = true
    · rw [if_pos hpass, returns_bind, returns_int]
      cases t with
      | zero => simp [hpass] at hstop
      | succ t =>
        have hnext : intMin ≤ i + d ∧ i + d ≤ intMax := by
          simpa using (hcells 1 (Nat.le_add_left 1 t)).2
        refine ⟨hnext, ?_⟩
        refine (ih (i := i + d) (Nat.lt_of_succ_lt_succ ht) (by rw [hshift]; exact hstop)
          fun u hu => ?_).mono (fun _ => id) ?_
        · rw [hshift]
          exact hcells (u + 1) (Nat.succ_le_succ hu)
        · rintro k ⟨u, hu, rfl, hpassed, hstopped⟩
          refine ⟨u + 1, Nat.succ_le_succ hu, hshift u, fun v hv => ?_, hstopped⟩
          cases v with
          | zero => simpa using hpass
          | succ v =>
            rw [← hshift]
            exact hpassed v (Nat.lt_of_succ_lt_succ hv)
    · rw [if_neg hpass, returns_pure]
      refine ⟨0, Nat.zero_le t, by simp, fun v hv => absurd hv (Nat.not_lt_zero v), ?_⟩
      simpa using hpass

variable {l r s j : Int}

theorem returns_scanUp (his : i ≤ s) (hs : arr m ≤ arr s) (hn : s - i < n)
    (hcells : ∀ c, i ≤ c → c ≤ s → p c ∧ intMin ≤ c ∧ c ≤ intMax) (hm : p m) :
    Returns (scanUp arr m n i) p fun k => (i ≤ k ∧ k ≤ s) ∧
      (∀ c, i ≤ c → c < k → arr c < arr m) ∧ arr m ≤ arr k := by
  have hsteps : i + 1 * ((s - i).toNat : Int) = s := by omega
  refine (returns_scan (t := (s - i).toNat) (by omega) ?_ hm fun u hu => ?_).mono
    (fun _ => id) ?_
  · rw [hsteps]
    simpa using hs
  · exact hcells _ (by omega) (by omega)
  · rintro k ⟨u, hu, rfl, hpassed, hstopped⟩
    refine ⟨⟨by omega, by omega⟩, fun c hic hck => ?_, by simpa using hstopped⟩
    have hc : i + 1 * ((c - i).toNat : Int) = c := by omega
    have hpass := hpassed (c - i).toNat (by omega)
    rw [hc] at hpass
    simpa using hpass

theorem returns_scanDown (hsj : s ≤ j) (hs : arr s ≤ arr m) (hn : j - s < n)
    (hcells : ∀ c, s ≤ c → c ≤ j → p c ∧ intMin ≤ c ∧ c ≤ intMax) (hm : p m) :
    Returns (scanDown arr m n j) p fun k => (s ≤ k ∧ k ≤ j) ∧
      (∀ c, k < c → c ≤ j → arr m < arr c) ∧ arr k ≤ arr m := by
  have hsteps : j + -1 * ((j - s).toNat : Int) = s := by omega
  refine (returns_scan (t := (j - s).toNat) (by omega) ?_ hm fun u hu => ?_).mono
    (fun _ => id) ?_
  · rw [hsteps]
    simpa using hs
  · exact hcells _ (by omega) (by omega)
  · rintro k ⟨u, hu, rfl, hpassed, hstopped⟩
    refine ⟨⟨by omega, by omega⟩, fun c hkc hcj => ?_, by simpa using hstopped⟩
    have hc : j + -1 * ((j - c).toNat : Int) = c := by omega
    have hpass := hpassed (j - c).toNat (by omega)
    rw [hc] at hpass
    simpa using hpass

end Scans

section Loops

variable {l r m i j i' j' : Int} {arr : Arr}

/-- At the head of the loop.  The scans have their sentinels: before the first exchange the cell in
the middle, afterwards the cells last exchanged. -/
structure Looping (l r m : Int) (arr : Arr) (i j : Int) : Prop where
  left_le : l ≤ i
  le_right : j ≤ r
  inside : i ≤ r + 1 ∧ l - 1 ≤ j
  close : i ≤ j + 2
  started : (i ≤ m ∧ m ≤ j) ∨ (l < i ∧ j < r)
  up : i ≤ j → ∃ s, i ≤ s ∧ s ≤ j + 1 ∧ s ≤ r ∧ arr m ≤ arr s
  down : i ≤ j → ∃ s, i - 1 ≤ s ∧ s ≤ j ∧ l ≤ s ∧ arr s ≤ arr m

/-- Both parts are shorter than the whole, and at most one cell is in neither. -/
structure Parted (l r i j : Int) : Prop where
  left : l < i ∧ i ≤ r + 1
  right : l - 1 ≤ j ∧ j < r
  apart : j < i ∧ i ≤ j + 2

theorem Looping.start (hlm : l ≤ m) (hmr : m ≤ r) (arr : Arr) : Looping l r m arr l r where
  left_le := Int.le_refl l
  le_right := Int.le_refl r
  inside := by omega
  close := by omega
  started := .inl ⟨hlm, hmr⟩
  up _ := ⟨m, hlm, by omega, hmr, Int.le_refl _⟩
  down _ := ⟨m, by omega, hmr, hlm, Int.le_refl _⟩

theorem Looping.parted (h : Looping l r m arr i j) (hij : ¬ i ≤ j) : Parted l r i j := by
  obtain ⟨hl, hr, hinside, hclose, hstarted, -, -⟩ := h
  have hlast : l < i ∧ j < r := hstarted.resolve_left fun h => by omega
  exact ⟨⟨hlast.1, hinside.1⟩, ⟨hinside.2, hlast.2⟩, by omega, hclose⟩

/-- The cells exchanged are on their sides of the pivot, also where it is one of them. -/
theorem exchanged_sides (hj : arr j ≤ arr m) (hi : arr m ≤ arr i) :
    (arr ∘ Equiv.swap i j) i ≤ (arr ∘ Equiv.swap i j) m ∧
      (arr ∘ Equiv.swap i j) m ≤ (arr ∘ Equiv.swap i j) j := by
  simp only [Function.comp_apply, Equiv.swap_apply_left, Equiv.swap_apply_right]
  by_cases hmi : m = i
  · subst hmi
    rw [Equiv.swap_apply_left]
    exact ⟨Int.le_refl _, hj⟩
  · by_cases hmj : m = j
    · subst hmj
      rw [Equiv.swap_apply_right]
      exact ⟨hi, Int.le_refl _⟩
    · rw [Equiv.swap_apply_of_ne_of_ne hmi hmj]
      exact ⟨hj, hi⟩

structure Scanned (l r m : Int) (arr : Arr) (i j i' j' : Int) : Prop where
  up : i ≤ i' ∧ i' ≤ j + 1 ∧ i' ≤ r
  down : i - 1 ≤ j' ∧ j' ≤ j ∧ l ≤ j'
  below : ∀ c, i ≤ c → c < i' → arr c < arr m
  above : ∀ c, j' < c → c ≤ j → arr m < arr c
  left_stop : arr m ≤ arr i'
  right_stop : arr j' ≤ arr m

/-- The first round exchanges something: neither scan passes the middle. -/
theorem Scanned.exchange (h : Scanned l r m arr i j i' j') (hm : i ≤ m ∧ m ≤ j) :
    i' ≤ m ∧ m ≤ j' := by
  constructor
  · by_contra hlt
    have := h.below m hm.1 (by omega)
    omega
  · by_contra hlt
    have := h.above m (by omega) hm.2
    omega

theorem Scanned.crossed (h : Scanned l r m arr i j i' j') (hcrossed : ¬ i' ≤ j') :
    i' = j' + 1 := by
  by_contra hne
  obtain ⟨hi, hij, -⟩ := h.up
  obtain ⟨hj, hji, -⟩ := h.down
  have hbelow := h.below (i' - 1) (by omega) (by omega)
  have habove := h.above (i' - 1) (by omega) (by omega)
  omega

theorem Looping.exchanged (h : Looping l r m arr i j) (hs : Scanned l r m arr i j i' j')
    (hij : i' ≤ j') : Looping l r m (arr ∘ Equiv.swap i' j') (i' + 1) (j' - 1) := by
  obtain ⟨hl, hr, -, -, -, -, -⟩ := h
  obtain ⟨hi, -, hir⟩ := hs.up
  obtain ⟨-, hj, hlj⟩ := hs.down
  obtain ⟨hleft, hright⟩ := exchanged_sides hs.right_stop hs.left_stop
  exact {
    left_le := by omega
    le_right := by omega
    inside := by omega
    close := by omega
    started := .inr (by omega)
    up := fun _ => ⟨j', by omega, by omega, by omega, hright⟩
    down := fun _ => ⟨i', by omega, by omega, by omega, hleft⟩ }

theorem Looping.crossed (h : Looping l r m arr i j) (hs : Scanned l r m arr i j i' j')
    (hcrossed : ¬ i' ≤ j') : Looping l r m arr i' j' := by
  have hnext := hs.crossed hcrossed
  obtain ⟨hl, hr, -, -, hstarted, -, -⟩ := h
  obtain ⟨hi, -, hir⟩ := hs.up
  obtain ⟨-, hj, hlj⟩ := hs.down
  exact {
    left_le := by omega
    le_right := by omega
    inside := by omega
    close := by omega
    started := by
      right
      rcases hstarted with hm | hstarted
      · have := hs.exchange hm
        omega
      · omega
    up := fun hij => absurd hij hcrossed
    down := fun hij => absurd hij hcrossed }

/-- The index past the last cell is an `int` wherever it is computed. -/
theorem Scanned.next_le (hs : Scanned l r m arr i j i' j') (h : Looping l r m arr i j)
    (hij : i' ≤ j') (hmax : m < r ∨ r < intMax) (hr : r ≤ intMax) : i' + 1 ≤ intMax := by
  have hlast := h.le_right
  have hdown := hs.down.2.1
  rcases h.started with hstarted | hstarted
  · have := hs.exchange hstarted
    omega
  · omega

/-- A round: both scans stop, and what they have met is exchanged or the loop is over. -/
theorem returns_round (h : Looping l r m arr i j) (hij : i ≤ j) (hl : intMin < l)
    (hr : r ≤ intMax) (hm : l ≤ m ∧ m ≤ r) (hmax : m < r ∨ r < intMax) {n : Nat}
    (hn : j + 2 - i ≤ n) : ∃ i' j', Scanned l r m arr i j i' j' ∧
      ∀ {p : Event → Prop} {q : Arr × Int × Int → Prop}, (∀ c, l ≤ c ∧ c ≤ r → p (.cell c)) →
        (Returns (exchangeLoop l r m (n + 1) arr i j) p q ↔
          if i' ≤ j' then p (.exchange arr l r m i' j') ∧
            Returns (exchangeLoop l r m n (arr ∘ Equiv.swap i' j') (i' + 1) (j' - 1)) p q
          else Returns (exchangeLoop l r m n arr i' j') p q) := by
  obtain ⟨s, his, hsj, hsr, hs⟩ := h.up hij
  obtain ⟨t, hit, htj, hlt, ht⟩ := h.down hij
  have hl' := h.left_le
  have hr' := h.le_right
  obtain ⟨i', ⟨⟨hi, hi'⟩, hbelow, hleft⟩, hup⟩ :=
    (returns_scanUp (n := n) (p := fun c => l ≤ c ∧ c ≤ r) his hs (by omega)
      (fun c _ _ => by omega) hm).determines
  obtain ⟨j', ⟨⟨hj, hj'⟩, habove, hright⟩, hdown⟩ :=
    (returns_scanDown (n := n) (p := fun c => l ≤ c ∧ c ≤ r) htj ht (by omega)
      (fun c _ _ => by omega) hm).determines
  have hscanned : Scanned l r m arr i j i' j' :=
    ⟨by omega, by omega, hbelow, habove, hleft, hright⟩
  refine ⟨i', j', hscanned, fun {p} {q} hp => ?_⟩
  rw [exchangeLoop, if_pos hij, returns_bind, returns_note, hup hp, returns_bind, returns_note,
    hdown hp]
  by_cases hij' : i' ≤ j'
  · have hnext := hscanned.next_le h hij' hmax hr
    have hcells : p (.cell i') ∧ p (.cell j') := ⟨hp i' (by omega), hp j' (by omega)⟩
    have hi_int : intMin ≤ i' + 1 ∧ i' + 1 ≤ intMax := ⟨by omega, hnext⟩
    have hj_int : intMin ≤ j' - 1 ∧ j' - 1 ≤ intMax := by omega
    simp only [if_pos hij', returns_bind, returns_touch, returns_note, returns_exchangeValue,
      returns_int, hcells, hi_int, hj_int, List.mem_singleton, forall_eq, true_and, and_self]
  · rw [if_neg hij', if_neg hij']

/-- The loop ends, stays between `l` and `r`, and leaves two shorter parts. -/
theorem returns_exchangeLoop (h : Looping l r m arr i j) (hl : intMin < l) (hr : r ≤ intMax)
    (hm : l ≤ m ∧ m ≤ r) (hmax : m < r ∨ r < intMax) {n : Nat} (hn : j + 3 - i ≤ n)
    (hpos : 0 < n) {p : Event → Prop} (hcell : ∀ c, l ≤ c ∧ c ≤ r → p (.cell c))
    (hexchange : ∀ arr i j, p (.exchange arr l r m i j)) :
    Returns (exchangeLoop l r m n arr i j) p
      fun a => Parted l r a.2.1 a.2.2 ∧ Rearranges l r arr a.1 := by
  induction n generalizing arr i j with
  | zero => exact absurd hpos (Nat.lt_irrefl 0)
  | succ n ih =>
    by_cases hij : i ≤ j
    · obtain ⟨i', j', hscanned, hround⟩ := returns_round h hij hl hr hm hmax (n := n) (by omega)
      have hl' := h.left_le
      have hr' := h.le_right
      obtain ⟨hi, -, hir⟩ := hscanned.up
      obtain ⟨-, hj, hlj⟩ := hscanned.down
      rw [hround hcell]
      by_cases hij' : i' ≤ j'
      · rw [if_pos hij']
        refine ⟨hexchange arr i' j', (ih (h.exchanged hscanned hij') (by omega) (by omega)).mono
          (fun _ => id) ?_⟩
        rintro a ⟨hparted, hrearranged⟩
        have hswap : Rearranges l r arr (arr ∘ Equiv.swap i' j') :=
          Rearranges.swap arr (by omega) (by omega)
        exact ⟨hparted, hswap.trans hrearranged⟩
      · rw [if_neg hij']
        have hnext := hscanned.crossed hij'
        exact ih (h.crossed hscanned hij') (by omega) (by omega)
    · rw [exchangeLoop, if_neg hij, returns_pure]
      exact ⟨h.parted hij, Rearranges.refl l r arr⟩

end Loops

end LearnCLinux.QuickSort
