import Mathlib.Data.List.Basic
import Mathlib.Data.Nat.ModEq
import LearnCLinux.Library.Run

/-! The unbounded first-in first-out queue, and the ring buffer that implements it. -/

universe u

namespace LearnCLinux

variable {α : Type u}

namespace Fifo

inductive Event (α : Type u) : Type u
  | put : α → Event α
  | take : α → Event α
  deriving DecidableEq

/-- A `take` must name the oldest element. -/
def step [DecidableEq α] (q : List α) : Event α → Option (List α)
  | .put x => some (q ++ [x])
  | .take x => match q with
    | [] => none
    | y :: q => if y = x then some q else none

def puts : List (Event α) → List α
  | [] => []
  | .put x :: es => x :: puts es
  | .take _ :: es => puts es

def takes : List (Event α) → List α
  | [] => []
  | .put _ :: es => takes es
  | .take x :: es => x :: takes es

theorem step_take [DecidableEq α] {q q' : List α} {x : α} :
    step q (.take x) = some q' ↔ q = x :: q' := by
  cases q with
  | nil => simp [step]
  | cons y q =>
    simp only [step, List.cons.injEq]
    split
    · next h => simp [h]
    · next h => simp [h]

/-- What was put is what was taken, followed by what is still queued. -/
theorem exec_conserves [DecidableEq α] {q q' : List α} {es : List (Event α)}
    (h : Run.exec step q es = some q') : q ++ puts es = takes es ++ q' := by
  induction es generalizing q with
  | nil => cases h; simp [puts, takes]
  | cons e es ih =>
    obtain ⟨m, hm, hrest⟩ := Run.exec_cons.mp h
    cases e with
    | put x =>
      cases hm
      simpa [puts, takes] using ih hrest
    | take x =>
      rw [step_take.mp hm]
      simpa [puts, takes] using ih hrest

theorem mem_of_exec [DecidableEq α] {q q' : List α} {es : List (Event α)} {x : α}
    (h : Run.exec step q es = some q') (hx : x ∈ takes es ∨ x ∈ q') : x ∈ q ∨ x ∈ puts es := by
  have hmem : x ∈ takes es ++ q' := List.mem_append.mpr hx
  rw [← exec_conserves h] at hmem
  exact List.mem_append.mp hmem

theorem takes_prefix_puts [DecidableEq α] {q : List α} {es : List (Event α)}
    (h : Run.exec step [] es = some q) : takes es <+: puts es :=
  ⟨q, by simpa using (exec_conserves h).symm⟩

end Fifo

structure Ring (α : Type u) where
  slots : List α
  front : Nat
  rear : Nat
  size : Int
  capacity : Nat
  deriving DecidableEq

namespace Ring

def setRear (r : Ring α) (x : α) : Ring α :=
  { r with slots := r.slots.set r.rear x }

def push (r : Ring α) (x : α) : Ring α :=
  { r with
    slots := r.slots.set r.rear x
    rear := (r.rear + 1) % r.capacity
    size := r.size + 1 }

def pop (r : Ring α) : Ring α :=
  { r with
    front := (r.front + 1) % r.capacity
    size := r.size - 1 }

/-- What the slots in use hold, oldest first. -/
def contents (r : Ring α) : List α :=
  (List.range r.size.toNat).filterMap fun k => r.slots[(r.front + k) % r.capacity]?

/-- The slots from `front` onward, wrapping at `capacity`, are the queue `q`.  A ring of
capacity 0 has no slot and represents the empty queue only. -/
structure Represents (r : Ring α) (q : List α) : Prop where
  length_slots : r.slots.length = r.capacity
  size_eq : r.size = q.length
  length_le : q.length ≤ r.capacity
  front_lt : 0 < r.capacity → r.front < r.capacity
  rear_eq : 0 < r.capacity → r.rear = (r.front + q.length) % r.capacity
  slot : ∀ k < q.length, r.slots[(r.front + k) % r.capacity]? = q[k]?

theorem represents_nil {slots : List α} {n : Nat} (h : slots.length = n) :
    (Ring.mk slots 0 0 0 n).Represents [] where
  length_slots := h
  size_eq := rfl
  length_le := Nat.zero_le _
  front_lt := id
  rear_eq := by simp
  slot := by simp

theorem filterMap_getElem?_range (q : List α) :
    (List.range q.length).filterMap (fun k => q[k]?) = q := by
  induction q with
  | nil => rfl
  | cons x q ih =>
    rw [List.length_cons, List.range_succ_eq_map, List.filterMap_cons, List.filterMap_map]
    exact congrArg (x :: ·) ih

theorem offset_injective {c f j k : Nat} (hj : j < c) (hk : k < c)
    (h : (f + j) % c = (f + k) % c) : j = k := by
  have hmod : j % c = k % c := Nat.ModEq.add_left_cancel' f h
  rwa [Nat.mod_eq_of_lt hj, Nat.mod_eq_of_lt hk] at hmod

namespace Represents

variable {r : Ring α} {q : List α} {x : α}

theorem length_lt (h : r.Represents q) (hfull : r.size ≠ r.capacity) : q.length < r.capacity := by
  have hlen := h.length_le
  have hsize := h.size_eq
  omega

theorem rear_lt (h : r.Represents q) (hfull : r.size ≠ r.capacity) :
    r.rear < r.slots.length := by
  have hcap : 0 < r.capacity := Nat.lt_of_le_of_lt (Nat.zero_le _) (h.length_lt hfull)
  rw [h.length_slots, h.rear_eq hcap]
  exact Nat.mod_lt _ hcap

theorem rear_ne (h : r.Represents q) (hfull : r.size ≠ r.capacity) {k : Nat}
    (hk : k < q.length) : r.rear ≠ (r.front + k) % r.capacity := by
  intro heq
  have hlen := h.length_lt hfull
  rw [h.rear_eq (by omega)] at heq
  have := offset_injective hlen (by omega) heq
  omega

theorem setRear (h : r.Represents q) (hfull : r.size ≠ r.capacity) :
    (r.setRear x).Represents q where
  length_slots := by simpa [Ring.setRear] using h.length_slots
  size_eq := h.size_eq
  length_le := h.length_le
  front_lt := h.front_lt
  rear_eq := h.rear_eq
  slot k hk := by
    simp only [Ring.setRear, List.getElem?_set_ne (h.rear_ne hfull hk)]
    exact h.slot k hk

theorem push (h : r.Represents q) (hfull : r.size ≠ r.capacity) :
    (r.push x).Represents (q ++ [x]) where
  length_slots := by simpa [Ring.push] using h.length_slots
  size_eq := by simp [Ring.push, h.size_eq]
  length_le := by
    rw [List.length_append]
    exact h.length_lt hfull
  front_lt := h.front_lt
  rear_eq hcap := by
    have hrear : r.rear = (r.front + q.length) % r.capacity := h.rear_eq hcap
    simp [Ring.push, hrear, Nat.add_assoc]
  slot k hk := by
    by_cases hlast : k < q.length
    · rw [List.getElem?_append_left hlast]
      exact (h.setRear hfull).slot k hlast
    · have hk' : k = q.length := by simp at hk; omega
      have hcap : 0 < r.capacity := Nat.lt_of_le_of_lt (Nat.zero_le _) (h.length_lt hfull)
      subst hk'
      simp only [Ring.push, ← h.rear_eq hcap, List.getElem?_concat_length]
      exact List.getElem?_set_self (h.rear_lt hfull)

theorem front_slot (h : r.Represents (x :: q)) : r.slots[r.front]? = some x := by
  have hcap : 0 < r.capacity := Nat.lt_of_lt_of_le (by simp) h.length_le
  have hslot := h.slot 0 (by simp)
  simpa [Nat.mod_eq_of_lt (h.front_lt hcap)] using hslot

theorem pop (h : r.Represents (x :: q)) : r.pop.Represents q where
  length_slots := h.length_slots
  size_eq := by simp [Ring.pop, h.size_eq]
  length_le := Nat.le_of_succ_le h.length_le
  front_lt hcap := Nat.mod_lt _ hcap
  rear_eq hcap := by
    have hrear := h.rear_eq hcap
    simp only [List.length_cons] at hrear
    simp only [Ring.pop, hrear, Nat.mod_add_mod]
    congr 1
    omega
  slot k hk := by
    have hslot := h.slot (k + 1) (by simpa using hk)
    simp only [Ring.pop, Nat.mod_add_mod]
    rw [show r.front + 1 + k = r.front + (k + 1) by omega, hslot]
    simp

theorem contents_eq (h : r.Represents q) : r.contents = q := by
  have hsize : r.size.toNat = q.length := by rw [h.size_eq, Int.toNat_natCast]
  rw [contents, hsize, List.filterMap_congr fun k hk => h.slot k (List.mem_range.mp hk)]
  exact filterMap_getElem?_range q

theorem mem_contents (h : r.Represents q) : x ∈ r.contents ↔ x ∈ q := by
  rw [h.contents_eq]

theorem size_nonneg (h : r.Represents q) : 0 ≤ r.size := by
  rw [h.size_eq]
  exact Int.natCast_nonneg _

theorem size_le (h : r.Represents q) : r.size ≤ r.capacity := by
  rw [h.size_eq]
  exact Int.ofNat_le.mpr h.length_le

end Represents

/-- What a program may do to the ring, and what it puts in by it. -/
inductive Step (Blank : α → Prop) (r : Ring α) : List α → Ring α → Prop
  | same : Step Blank r [] r
  | pop : Step Blank r [] r.pop
  | setRear {x} : Blank x → Step Blank r [] (r.setRear x)
  | push {x} : 0 < r.capacity → Step Blank r [x] (r.push x)

/-- Popping leaves the slots alone: each still holds the last element put into it, unless it
was made `Blank`.  `puts` are all elements put so far. -/
structure Recalls (Blank : α → Prop) (r : Ring α) (puts : List α) : Prop where
  rear_eq : 0 < r.capacity → r.rear = puts.length % r.capacity
  slot : ∀ j x, j < puts.length → puts.length ≤ j + r.capacity →
    r.slots[j % r.capacity]? = some x → Blank x ∨ puts[j]? = some x

theorem recalls_nil (Blank : α → Prop) (slots : List α) (n : Nat) :
    (Ring.mk slots 0 0 0 n).Recalls Blank [] where
  rear_eq := by simp
  slot _ _ h := absurd h (Nat.not_lt_zero _)

namespace Recalls

variable {Blank : α → Prop} {r : Ring α} {puts : List α} {x : α}

theorem pop (h : r.Recalls Blank puts) : r.pop.Recalls Blank puts := ⟨h.rear_eq, h.slot⟩

theorem setRear (h : r.Recalls Blank puts) (hx : Blank x) :
    (r.setRear x).Recalls Blank puts where
  rear_eq := h.rear_eq
  slot j y hj hlap hy := by
    simp only [Ring.setRear] at hy
    by_cases hrear : r.rear = j % r.capacity
    · rw [hrear] at hy
      obtain ⟨hlt, hval⟩ := List.getElem?_eq_some_iff.mp hy
      rw [List.getElem_set_self] at hval
      exact .inl (hval ▸ hx)
    · rw [List.getElem?_set_ne hrear] at hy
      exact h.slot j y hj hlap hy

theorem push (h : r.Recalls Blank puts) (hcap : 0 < r.capacity) :
    (r.push x).Recalls Blank (puts ++ [x]) where
  rear_eq _ := by simp [Ring.push, h.rear_eq hcap]
  slot j y hj hlap hy := by
    simp only [Ring.push] at hlap hy
    rw [List.length_append, List.length_singleton] at hj hlap
    have hrear : r.rear = puts.length % r.capacity := h.rear_eq hcap
    by_cases hlast : j = puts.length
    · subst hlast
      rw [← hrear] at hy
      obtain ⟨hlt, hval⟩ := List.getElem?_eq_some_iff.mp hy
      rw [List.getElem_set_self] at hval
      exact .inr (by rw [List.getElem?_concat_length, hval])
    · have hne : r.rear ≠ j % r.capacity := by
        intro heq
        have hmod : (j + 0) % r.capacity = (j + (puts.length - j)) % r.capacity := by
          rw [Nat.add_zero, ← heq, hrear]
          congr 1
          omega
        have := offset_injective hcap (by omega) hmod
        omega
      rw [List.getElem?_set_ne hne] at hy
      rw [List.getElem?_append_left (by omega)]
      exact h.slot j y (by omega) (by omega) hy

/-- What is about to be overwritten was put `capacity` elements ago, if that many were put. -/
theorem rear_slot (h : r.Recalls Blank puts) (hcap : 0 < r.capacity)
    (hlap : r.capacity ≤ puts.length) (hx : r.slots[r.rear]? = some x) (hblank : ¬ Blank x) :
    puts[puts.length - r.capacity]? = some x := by
  rw [h.rear_eq hcap, Nat.mod_eq_sub_mod hlap] at hx
  exact (h.slot _ x (by omega) (by omega) hx).resolve_left hblank

theorem step {new : List α} {r' : Ring α} (h : r.Recalls Blank puts)
    (hs : Step Blank r new r') : r'.Recalls Blank (puts ++ new) := by
  cases hs with
  | same => simpa using h
  | pop => simpa using h.pop
  | setRear hx => simpa using h.setRear hx
  | push hcap => exact h.push hcap

end Recalls

/-- The slots the first lap has not come to are as they were; the rear one may have been
`cleared`. -/
def Untouched (slots : List α) (cleared : Prop) (r : Ring α) (puts : List α) : Prop :=
  ∀ k, puts.length ≤ k → k < r.capacity → r.slots[k]? = slots[k]? ∨ k = puts.length ∧ cleared

namespace Untouched

variable {Blank : α → Prop} {slots : List α} {cleared cleared' : Prop} {r : Ring α}
  {puts : List α} {x : α}

theorem mono (h : r.Untouched slots cleared puts) (hc : cleared → cleared') :
    r.Untouched slots cleared' puts :=
  fun k hk hcap => (h k hk hcap).imp id (And.imp id hc)

theorem setRear (h : r.Untouched slots cleared puts) (hr : r.Recalls Blank puts)
    (hc : cleared') : (r.setRear x).Untouched slots cleared' puts := by
  intro k hk hcap
  have hlt : k < r.capacity := hcap
  have hrear : r.rear = puts.length := by
    rw [hr.rear_eq (by omega), Nat.mod_eq_of_lt (by omega)]
  by_cases hkn : k = puts.length
  · exact .inr ⟨hkn, hc⟩
  · simp only [Ring.setRear, hrear, List.getElem?_set_ne (Ne.symm hkn)]
    exact (h k hk hlt).imp id fun hcleared => absurd hcleared.1 hkn

theorem push (h : r.Untouched slots cleared puts) (hr : r.Recalls Blank puts) :
    (r.push x).Untouched slots cleared' (puts ++ [x]) := by
  intro k hk hcap
  have hlt : k < r.capacity := hcap
  rw [List.length_append, List.length_singleton] at hk
  have hrear : r.rear = puts.length := by
    rw [hr.rear_eq (by omega), Nat.mod_eq_of_lt (by omega)]
  simp only [Ring.push, hrear, List.getElem?_set_ne (show puts.length ≠ k by omega)]
  left
  exact (h k (by omega) hlt).resolve_right (by omega)

theorem rear_slot (h : r.Untouched slots cleared puts) (hr : r.Recalls Blank puts)
    (hlap : puts.length < r.capacity) (hc : ¬ cleared) :
    r.slots[r.rear]? = slots[puts.length]? := by
  rw [hr.rear_eq (by omega), Nat.mod_eq_of_lt hlap]
  exact (h _ (Nat.le_refl _) hlap).resolve_right fun hcleared => hc hcleared.2

end Untouched

/-- The `j`-th element that was put is out of the ring: another is in its slot, or its slot is
the rear one and has been made `Blank`. -/
structure Retired (Blank : α → Prop) (r : Ring α) (puts : List α) (j : Nat) : Prop where
  lap : j + r.capacity ≤ puts.length
  blank : j + r.capacity = puts.length → ∀ x, r.slots[r.rear]? = some x → Blank x

theorem retired_setRear {Blank : α → Prop} {r : Ring α} {puts : List α} {x : α} {j : Nat}
    (hlap : j + r.capacity ≤ puts.length) (hx : Blank x) :
    (r.setRear x).Retired Blank puts j where
  lap := hlap
  blank _ y hy := by
    obtain ⟨hlt, hval⟩ := List.getElem?_eq_some_iff.mp hy
    simp only [Ring.setRear, List.getElem_set_self] at hval
    exact hval ▸ hx

theorem Retired.step {Blank : α → Prop} {r r' : Ring α} {puts new : List α} {j : Nat}
    (h : r.Retired Blank puts j) (hs : Step Blank r new r') :
    r'.Retired Blank (puts ++ new) j := by
  cases hs with
  | same => simpa using h
  | pop =>
    rw [List.append_nil]
    exact ⟨h.lap, h.blank⟩
  | setRear hx =>
    rw [List.append_nil]
    exact retired_setRear h.lap hx
  | push _ =>
    have hlap := h.lap
    refine ⟨?_, fun heq => ?_⟩
    · simp only [Ring.push, List.length_append]
      omega
    · simp only [Ring.push, List.length_append, List.length_singleton] at heq
      omega

end Ring

end LearnCLinux
