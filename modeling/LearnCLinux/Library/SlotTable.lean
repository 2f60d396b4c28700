import Mathlib.Data.List.Basic

/-! A table of names with reusable slots.  A slot holds the name of a member, the mark `free`, or
whatever a failed registration left in it. -/

universe u

namespace LearnCLinux

variable {α : Type u}

/-- Every member alive keeps a slot, and none is called `free`. -/
structure Seats (free : α) (slots : List α) (alive : α → Prop) : Prop where
  ne_free : ∀ a, alive a → a ≠ free
  mem : ∀ a, alive a → a ∈ slots

namespace Seats

variable {free : α} {slots : List α} {alive alive' : α → Prop}

theorem mono (h : Seats free slots alive) (hmono : ∀ a, alive' a → alive a) :
    Seats free slots alive' :=
  ⟨fun a ha => h.ne_free a (hmono a ha), fun a ha => h.mem a (hmono a ha)⟩

theorem overwrite (h : Seats free slots alive) {i : Nat}
    (hdead : ∀ b, alive b → slots[i]? ≠ some b) (x : α) : Seats free (slots.set i x) alive where
  ne_free := h.ne_free
  mem b hb := by
    obtain ⟨j, hj⟩ := List.getElem?_of_mem (h.mem b hb)
    have hij : i ≠ j := fun hij => hdead b hb (hij ▸ hj)
    exact List.mem_of_getElem? (by rwa [List.getElem?_set_ne hij])

theorem store (h : Seats free slots alive) {i : Nat} {a : α} (hi : i < slots.length)
    (hdead : ∀ b, alive b → slots[i]? ≠ some b) (hne : a ≠ free)
    (halive : ∀ b, alive' b → alive b ∨ b = a) : Seats free (slots.set i a) alive' where
  ne_free b hb := by
    rcases halive b hb with hold | rfl
    · exact h.ne_free b hold
    · exact hne
  mem b hb := by
    rcases halive b hb with hold | rfl
    · exact (h.overwrite hdead a).mem b hold
    · exact List.mem_set hi b

end Seats

/-- Every slot in use holds one of `names`, and no two slots hold the same. -/
structure SlotTable (free : α) (slots names : List α) : Prop where
  mem_names : ∀ (i : Nat) a, slots[i]? = some a → a ≠ free → a ∈ names
  unique : ∀ (i j : Nat) a, slots[i]? = some a → slots[j]? = some a → a ≠ free → i = j

namespace SlotTable

variable {free : α} {slots names : List α} {alive : α → Prop}

theorem init (hnodup : names.Nodup) (n : Nat) :
    SlotTable free (names ++ List.replicate n free) names where
  mem_names i a hi hne := by
    rcases List.mem_append.mp (List.mem_of_getElem? hi) with hmem | hmem
    · exact hmem
    · exact absurd (List.eq_of_mem_replicate hmem) hne
  unique i j a hi hj hne := by
    have hlt : ∀ k : Nat, (names ++ List.replicate n free)[k]? = some a →
        k < names.length ∧ names[k]? = some a := by
      intro k hk
      by_cases hlt : k < names.length
      · exact ⟨hlt, by rwa [List.getElem?_append_left hlt] at hk⟩
      · rw [List.getElem?_append_right (Nat.le_of_not_lt hlt)] at hk
        exact absurd (List.eq_of_mem_replicate (List.mem_of_getElem? hk)) hne
    obtain ⟨hilt, hi⟩ := hlt i hi
    obtain ⟨-, hj⟩ := hlt j hj
    exact (List.getElem?_inj hilt hnodup).mp (hi.trans hj.symm)

theorem store (h : SlotTable free slots names) {i : Nat} {a : α} (hi : i < slots.length)
    (hne : a ≠ free) (hfresh : a ∉ names) : SlotTable free (slots.set i a) (names ++ [a]) where
  mem_names j b hb hbne := by
    rw [List.mem_append, List.mem_singleton]
    by_cases hij : i = j
    · subst hij
      rw [List.getElem?_set_self hi] at hb
      exact .inr (Option.some.inj hb).symm
    · rw [List.getElem?_set_ne hij] at hb
      exact .inl (h.mem_names j b hb hbne)
  unique j k b hj hk hbne := by
    have hother : ∀ m, i ≠ m → (slots.set i a)[m]? ≠ some a := by
      intro m him hm
      rw [List.getElem?_set_ne him] at hm
      exact hfresh (h.mem_names m a hm hne)
    by_cases hij : i = j <;> by_cases hik : i = k
    · exact hij.symm.trans hik
    · subst hij
      rw [List.getElem?_set_self hi] at hj
      cases hj
      exact absurd hk (hother k hik)
    · subst hik
      rw [List.getElem?_set_self hi] at hk
      cases hk
      exact absurd hj (hother j hij)
    · rw [List.getElem?_set_ne hij] at hj
      rw [List.getElem?_set_ne hik] at hk
      exact h.unique j k b hj hk hbne

theorem release (h : SlotTable free slots names) {i : Nat} {a : α} (hi : slots[i]? = some a)
    (hne : a ≠ free) {names' : List α} (hnames : ∀ b ∈ names, b ≠ a → b ∈ names') :
    SlotTable free (slots.set i free) names' := by
  have hother : ∀ (j : Nat) b, (slots.set i free)[j]? = some b → b ≠ free →
      i ≠ j ∧ slots[j]? = some b := by
    intro j b hj hb
    have hij : i ≠ j := by
      rintro rfl
      obtain ⟨hlt, -⟩ := List.getElem?_eq_some_iff.mp hi
      rw [List.getElem?_set_self hlt] at hj
      exact hb (Option.some.inj hj).symm
    rw [List.getElem?_set_ne hij] at hj
    exact ⟨hij, hj⟩
  constructor
  · intro j b hj hb
    obtain ⟨hij, hslot⟩ := hother j b hj hb
    apply hnames b (h.mem_names j b hslot hb)
    rintro rfl
    exact hij (h.unique i j b hi hslot hne)
  · intro j k b hj hk hb
    exact h.unique j k b (hother j b hj hb).2 (hother k b hk hb).2 hb

theorem exists_unique (h : SlotTable free slots names) (hseats : Seats free slots alive) {a : α}
    (ha : alive a) : ∃! i, i < slots.length ∧ slots[i]? = some a := by
  obtain ⟨i, hi⟩ := List.getElem?_of_mem (hseats.mem a ha)
  obtain ⟨hlt, -⟩ := List.getElem?_eq_some_iff.mp hi
  exact ⟨i, ⟨hlt, hi⟩, fun j hj => h.unique j i a hj.2 hi (hseats.ne_free a ha)⟩

theorem count_eq_one [DecidableEq α] (h : SlotTable free slots names)
    (hseats : Seats free slots alive) {a : α} (ha : alive a) : slots.count a = 1 := by
  have hne := hseats.ne_free a ha
  obtain ⟨l₁, l₂, rfl⟩ := List.append_of_mem (hseats.mem a ha)
  have hslot : (l₁ ++ a :: l₂)[l₁.length]? = some a := by simp
  have hbefore : a ∉ l₁ := by
    intro hmem
    obtain ⟨i, hi⟩ := List.getElem?_of_mem hmem
    obtain ⟨hlt, -⟩ := List.getElem?_eq_some_iff.mp hi
    have hsame := h.unique i l₁.length a (by rwa [List.getElem?_append_left hlt]) hslot hne
    omega
  have hbehind : a ∉ l₂ := by
    intro hmem
    obtain ⟨i, hi⟩ := List.getElem?_of_mem hmem
    have hlater : (l₁ ++ a :: l₂)[l₁.length + 1 + i]? = some a := by
      rw [List.getElem?_append_right (by omega), show l₁.length + 1 + i - l₁.length = i + 1 by omega,
        List.getElem?_cons_succ, hi]
    have hsame := h.unique _ l₁.length a hlater hslot hne
    omega
  rw [List.count_append, List.count_cons_self, List.count_eq_zero.mpr hbefore,
    List.count_eq_zero.mpr hbehind]

end SlotTable

end LearnCLinux
