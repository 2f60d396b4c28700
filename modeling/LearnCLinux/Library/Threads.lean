import Mathlib.Algebra.GroupWithZero.Nat

/-! Threads over a shared memory: a table of local states in which one thread moves at a
time, mutual exclusion, and assertions of the threads about the memory. -/

universe u v

namespace LearnCLinux.Threads

variable {Id : Type u} {Local : Type v}

/-- Thread `t` goes from `b` to `b'`.  Every other thread stays where it is, or has just been
created in a state that is `New`. -/
structure Moves (New : Local → Prop) (th th' : Id → Option Local) (t : Id) (b b' : Local) :
    Prop where
  before : th t = some b
  after : th' t = some b'
  others : ∀ u, u ≠ t → th' u = th u ∨ th u = none ∧ ∃ l, th' u = some l ∧ New l

variable {New : Local → Prop} {th th' : Id → Option Local} {t : Id} {b b' : Local}

/-- The rule of interference: the assertions of all threads hold after a step if the one that
moves establishes its own, keeps the others', and new threads start with theirs. -/
theorem Moves.assertions (m : Moves New th th' t b b') {A A' : Id → Local → Prop}
    (h : ∀ u l, th u = some l → A u l) (own : A' t b')
    (stable : ∀ u l, u ≠ t → th u = some l → A u l → A' u l)
    (new : ∀ u l, New l → A' u l) : ∀ u l, th' u = some l → A' u l := by
  intro u l hu
  by_cases hut : u = t
  · subst hut
    rw [m.after] at hu
    cases hu
    exact own
  · rcases m.others u hut with hsame | ⟨-, l', hl', hnew⟩
    · rw [hsame] at hu
      exact stable u l hut hu (h u l hu)
    · rw [hl'] at hu
      cases hu
      exact new u _ hnew

/-- Every thread inside a section guarded by the mutex is its owner. -/
def Exclusive (holds : Local → Bool) (lock : Option Id) (th : Id → Option Local) : Prop :=
  ∀ t b, th t = some b → holds b = true → lock = some t

/-- What a step of `t` may do to a mutex: acquire it when it is free, release it when `t` is
its owner, or leave it alone. -/
def MutexOp (t : Id) (before after : Bool) (lock lock' : Option Id) : Prop :=
  (lock = none ∧ lock' = some t) ∨ (before = true ∧ after = false ∧ lock' = none) ∨
    (before = after ∧ lock' = lock)

theorem Exclusive.unique {holds : Local → Bool} {lock : Option Id}
    (h : Exclusive holds lock th) {u : Id} {l : Local} (ht : th t = some b)
    (hb : holds b = true) (hu : th u = some l) (hl : holds l = true) : u = t := by
  have htu : some t = some u := (h t b ht hb).symm.trans (h u l hu hl)
  exact (Option.some.inj htu).symm

theorem Exclusive.step {holds : Local → Bool} {lock lock' : Option Id}
    (h : Exclusive holds lock th) (m : Moves New th th' t b b')
    (hop : MutexOp t (holds b) (holds b') lock lock') (hnew : ∀ l, New l → holds l = false) :
    Exclusive holds lock' th' := by
  have hother : ∀ u l, u ≠ t → th u = some l → holds l = true → lock' = some u := by
    intro u l hut hu hl
    have hlock : lock = some u := h u l hu hl
    rcases hop with ⟨hfree, -⟩ | ⟨hb, -, -⟩ | ⟨-, hsame⟩
    · rw [hfree] at hlock
      cases hlock
    · exact absurd (h.unique m.before hb hu hl) hut
    · rw [hsame, hlock]
  refine m.assertions (A := fun _ _ => True) (fun _ _ _ => trivial) ?_ ?_ ?_
  · intro hb'
    rcases hop with ⟨-, htaken⟩ | ⟨-, hleft, -⟩ | ⟨hsame, hlock⟩
    · exact htaken
    · rw [hleft] at hb'
      cases hb'
    · rw [hlock]
      exact h t b m.before (hsame.trans hb')
  · exact fun u l hut hu _ => hother u l hut hu
  · intro u l hl hholds
    rw [hnew l hl] at hholds
    cases hholds

def Owned (holds : Local → Bool) (lock : Option Id) (th : Id → Option Local) : Prop :=
  ∀ t, lock = some t → ∃ b, th t = some b ∧ holds b = true

theorem Owned.step {holds : Local → Bool} {lock lock' : Option Id} (h : Owned holds lock th)
    (m : Moves New th th' t b b')
    (hop : MutexOp t (holds b) (holds b') lock lock') (henter : lock = none → lock' = some t →
      holds b' = true) : Owned holds lock' th' := by
  intro u hu
  rcases hop with ⟨hfree, htaken⟩ | ⟨-, -, hleft⟩ | ⟨hsame, hlock⟩
  · rw [htaken] at hu
    cases hu
    exact ⟨b', m.after, henter hfree htaken⟩
  · rw [hleft] at hu
    cases hu
  · rw [hlock] at hu
    obtain ⟨c, hc, hholds⟩ := h u hu
    by_cases hut : u = t
    · subst hut
      rw [m.before] at hc
      cases hc
      exact ⟨b', m.after, hsame.symm.trans hholds⟩
    · rcases m.others u hut with hother | ⟨hnone, -⟩
      · exact ⟨c, hother.trans hc, hholds⟩
      · rw [hnone] at hc
        cases hc

section Tables

variable {α : Type u}

theorem getElem?_set_of_some {l : List α} {i : Nat} {a : α} (ha : l[i]? = some a) (a' : α) :
    (l.set i a')[i]? = some a' := by
  obtain ⟨hlt, -⟩ := List.getElem?_eq_some_iff.mp ha
  exact List.getElem?_set_self hlt

theorem exists_set {l : List α} {i : Nat} {a a' : α} {P : Nat → α → Prop} (ha : l[i]? = some a)
    (hP : P i a → P i a') (h : ∃ j x, l[j]? = some x ∧ P j x) :
    ∃ j x, (l.set i a')[j]? = some x ∧ P j x := by
  obtain ⟨j, x, hx, hPx⟩ := h
  by_cases hij : i = j
  · subst hij
    have hxa : x = a := Option.some.inj (hx.symm.trans ha)
    exact ⟨i, a', getElem?_set_of_some ha a', hP (hxa ▸ hPx)⟩
  · exact ⟨j, x, by rwa [List.getElem?_set_ne hij], hPx⟩

theorem exists_set_self {l : List α} {i : Nat} {a a' : α} {P : Nat → α → Prop}
    (ha : l[i]? = some a) (hP : P i a') : ∃ j x, (l.set i a')[j]? = some x ∧ P j x :=
  ⟨i, a', getElem?_set_of_some ha a', hP⟩

theorem exists_append {l : List α} {P : Nat → α → Prop} (l' : List α)
    (h : ∃ j x, l[j]? = some x ∧ P j x) : ∃ j x, (l ++ l')[j]? = some x ∧ P j x := by
  obtain ⟨j, x, hx, hPx⟩ := h
  obtain ⟨hlt, -⟩ := List.getElem?_eq_some_iff.mp hx
  exact ⟨j, x, by rwa [List.getElem?_append_left hlt], hPx⟩

theorem forall_set {l : List α} {i : Nat} {a' : α} {P : Nat → α → Prop}
    (h : ∀ j x, l[j]? = some x → P j x) (ha' : P i a') :
    ∀ j x, (l.set i a')[j]? = some x → P j x := by
  intro j x hx
  by_cases hij : i = j
  · subst hij
    obtain ⟨hlt, hval⟩ := List.getElem?_eq_some_iff.mp hx
    rw [List.getElem_set_self] at hval
    exact hval ▸ ha'
  · rw [List.getElem?_set_ne hij] at hx
    exact h j x hx

theorem forall_concat {l : List α} {a : α} {P : Nat → α → Prop}
    (h : ∀ j x, l[j]? = some x → P j x) (ha : P l.length a) :
    ∀ j x, (l ++ [a])[j]? = some x → P j x := by
  intro j x hx
  rcases Nat.lt_trichotomy j l.length with hlt | rfl | hgt
  · rw [List.getElem?_append_left hlt] at hx
    exact h j x hx
  · rw [List.getElem?_concat_length] at hx
    exact Option.some.inj hx ▸ ha
  · rw [List.getElem?_eq_none (by simpa using Nat.succ_le_of_lt hgt)] at hx
    cases hx

theorem getElem?_concat_iff {l : List α} {a x : α} {j : Nat} :
    (l ++ [a])[j]? = some x ↔ l[j]? = some x ∨ j = l.length ∧ a = x := by
  constructor
  · exact forall_concat (P := fun j x => l[j]? = some x ∨ j = l.length ∧ a = x)
      (fun _ _ hold => .inl hold) (.inr ⟨rfl, rfl⟩) j x
  · rintro (hold | ⟨rfl, rfl⟩)
    · rwa [List.getElem?_append_left (List.getElem?_eq_some_iff.mp hold).1]
    · exact List.getElem?_concat_length

instance decidableForall (l : List α) (P : Nat → α → Prop) [∀ j x, Decidable (P j x)] :
    Decidable (∀ (j : Nat) (x : α), l[j]? = some x → P j x) :=
  decidable_of_iff (∀ j (h : j < l.length), P j l[j]) <| by
    constructor
    · rintro h j x hx
      obtain ⟨hlt, rfl⟩ := List.getElem?_eq_some_iff.mp hx
      exact h j hlt
    · exact fun h j hlt => h j l[j] (List.getElem?_eq_getElem hlt)

instance decidableExists (l : List α) (P : Nat → α → Prop) [∀ j x, Decidable (P j x)] :
    Decidable (∃ (j : Nat) (x : α), l[j]? = some x ∧ P j x) :=
  decidable_of_iff (∃ j, ∃ h : j < l.length, P j l[j]) <| by
    constructor
    · rintro ⟨j, hlt, hP⟩
      exact ⟨j, l[j], List.getElem?_eq_getElem hlt, hP⟩
    · rintro ⟨j, x, hx, hP⟩
      obtain ⟨hlt, rfl⟩ := List.getElem?_eq_some_iff.mp hx
      exact ⟨j, hlt, hP⟩

end Tables

section Counting

variable {α : Type u}

/-- How the number of threads with a property changes when one of them moves. -/
theorem countP_set_add {l : List α} {i : Nat} {a : α} (p : α → Bool) (h : l[i]? = some a)
    (a' : α) : (l.set i a').countP p + (if p a then 1 else 0) =
      l.countP p + (if p a' then 1 else 0) := by
  obtain ⟨hlt, rfl⟩ := List.getElem?_eq_some_iff.mp h
  have hle : (if p l[i] then 1 else 0) ≤ l.countP p := List.boole_getElem_le_countP hlt
  have hset := List.countP_set (p := p) (a := a') hlt
  omega

theorem countP_set_eq {l : List α} {i : Nat} {a : α} (p : α → Bool) (h : l[i]? = some a)
    (a' : α) : ((l.set i a').countP p : Int) =
      l.countP p - (if p a then 1 else 0) + (if p a' then 1 else 0) := by
  have hadd := countP_set_add p h a'
  cases hp : p a <;> cases hq : p a' <;>
    simp only [hp, hq, if_true, if_false, Bool.false_eq_true] at hadd ⊢ <;> omega

theorem sum_set_add {l : List α} {i : Nat} {a : α} (f : α → Nat) (h : l[i]? = some a) (a' : α) :
    ((l.set i a').map f).sum + f a = (l.map f).sum + f a' := by
  induction l generalizing i with
  | nil => cases h
  | cons b l ih =>
    cases i with
    | zero =>
      cases h
      simp only [List.set_cons_zero, List.map_cons, List.sum_cons]
      omega
    | succ i =>
      have hrest := ih h
      simp only [List.set_cons_succ, List.map_cons, List.sum_cons]
      omega

theorem sum_le_mul {l : List α} {f : α → Nat} {k : Nat} (h : ∀ a ∈ l, f a ≤ k) :
    (l.map f).sum ≤ k * l.length := by
  induction l with
  | nil => exact Nat.zero_le _
  | cons a l ih =>
    have hhead := h a List.mem_cons_self
    have hrest := ih fun b hb => h b (List.mem_cons_of_mem a hb)
    rw [List.map_cons, List.sum_cons, List.length_cons, Nat.mul_add]
    omega

/-- Two ways to split the same threads up, compared thread by thread. -/
theorem countP_add_countP {l : List α} {p q r u : α → Bool}
    (h : ∀ a ∈ l, (p a).toNat + (q a).toNat = (r a).toNat + (u a).toNat) :
    l.countP p + l.countP q = l.countP r + l.countP u := by
  induction l with
  | nil => rfl
  | cons a l ih =>
    have hhead := h a List.mem_cons_self
    have htail := ih fun b hb => h b (List.mem_cons_of_mem a hb)
    have hcons : ∀ f : α → Bool, (a :: l).countP f = l.countP f + (f a).toNat := by
      intro f
      rw [List.countP_cons]
      cases f a <;> rfl
    simp only [hcons]
    omega

theorem countP_eq_range (l : List α) (p : α → Bool) :
    l.countP p = (List.range l.length).countP fun i => l[i]?.any p := by
  induction l with
  | nil => rfl
  | cons a l ih =>
    rw [List.length_cons, List.range_succ_eq_map, List.countP_cons, List.countP_cons,
      List.countP_map, ih]
    rfl

theorem two_le_countP {l : List α} {p : α → Bool} {i j : Nat} {x y : α} (hij : i < j)
    (hx : l[i]? = some x) (hpx : p x = true) (hy : l[j]? = some y) (hpy : p y = true) :
    2 ≤ l.countP p := by
  have hfirst : x ∈ l.take j := by
    apply List.mem_of_getElem?
    rw [List.getElem?_take_of_lt hij, hx]
  have hsecond : y ∈ l.drop j := by
    apply List.mem_of_getElem? (i := 0)
    rw [List.getElem?_drop, Nat.add_zero, hy]
  have htake : 0 < (l.take j).countP p := List.countP_pos_iff.mpr ⟨x, hfirst, hpx⟩
  have hdrop : 0 < (l.drop j).countP p := List.countP_pos_iff.mpr ⟨y, hsecond, hpy⟩
  have hsplit : (l.take j).countP p + (l.drop j).countP p = l.countP p := by
    rw [← List.countP_append, List.take_append_drop]
  omega

theorem index_unique {l : List α} {p : α → Bool} (hone : l.countP p ≤ 1) {i j : Nat} {x y : α}
    (hx : l[i]? = some x) (hpx : p x = true) (hy : l[j]? = some y) (hpy : p y = true) : i = j := by
  rcases Nat.lt_trichotomy i j with hlt | heq | hgt
  · have := two_le_countP hlt hx hpx hy hpy
    omega
  · exact heq
  · have := two_le_countP hgt hy hpy hx hpx
    omega

variable {β : Type v}

/-- A function that is undefined off a property yields on the list what it yields on the only
entry with the property. -/
theorem filterMap_eq_of_unique {l : List α} {p : α → Bool} {f : α → Option β}
    (hf : ∀ x, p x = false → f x = none) (hone : l.countP p ≤ 1) {i : Nat} {x : α}
    (hx : l[i]? = some x) (hpx : p x = true) : l.filterMap f = (f x).toList := by
  induction l generalizing i with
  | nil => cases hx
  | cons y l ih =>
    cases i with
    | zero =>
      cases hx
      rw [List.countP_cons_of_pos hpx] at hone
      have hzero : l.countP p = 0 := by omega
      have hrest : ∀ z ∈ l, f z = none := fun z hz =>
        hf z (by simpa using List.countP_eq_zero.mp hzero z hz)
      rw [List.filterMap_cons, List.filterMap_eq_nil_iff.mpr hrest]
      cases f x <;> rfl
    | succ i =>
      cases hpy : p y with
      | true =>
        have hsame := index_unique hone (i := 0) (j := i + 1) rfl hpy hx hpx
        omega
      | false =>
        rw [List.countP_cons_of_neg (by simp [hpy])] at hone
        rw [List.filterMap_cons_none (hf y hpy)]
        exact ih hone hx

theorem filterMap_set_of_eq {l : List α} {i : Nat} {x x' : α} {f : α → Option β}
    (hx : l[i]? = some x) (hsame : f x' = f x) : (l.set i x').filterMap f = l.filterMap f := by
  induction l generalizing i with
  | nil => rfl
  | cons y l ih =>
    cases i with
    | zero =>
      cases hx
      rw [List.set_cons_zero, List.filterMap_cons, List.filterMap_cons, hsame]
    | succ i =>
      rw [List.set_cons_succ, List.filterMap_cons, List.filterMap_cons, ih hx]

end Counting

end LearnCLinux.Threads
