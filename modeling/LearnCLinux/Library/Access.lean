/-! Computations that note which cells they touch.  `Returns` is the weakest precondition of a
computation: what it keeps to and what it establishes are read off its text. -/

universe u v w

namespace LearnCLinux

/-- What is returned, if anything is, and the cells touched on the way. -/
def Access (ι : Type u) (α : Type v) : Type (max u v) := Option (α × List ι)

namespace Access

variable {ι : Type u} {κ : Type w} {α β : Type v}

def touch (is : List ι) (a : α) : Access ι α := some (a, is)

/-- A computation that faults, or goes on for longer than it is followed. -/
def fail : Access ι α := none

instance : Monad (Access ι) where
  pure a := touch [] a
  bind x f := Option.bind x fun (a, is) => Option.map (fun (b, js) => (b, is ++ js)) (f a)

def value (x : Access ι α) : Option α := Option.map Prod.fst x

def note (f : ι → κ) (x : Access ι α) : Access κ α := Option.map (fun (a, is) => (a, is.map f)) x

/-- It returns, the cells it touches have `p`, and what it returns has `q`. -/
def Returns (x : Access ι α) (p : ι → Prop) (q : α → Prop) : Prop :=
  ∃ a is, x = some (a, is) ∧ (∀ i ∈ is, p i) ∧ q a

section Values

variable {a : α} {is : List ι} {x : Access ι α} {f : α → Access ι β}

@[simp] theorem value_touch : value (touch is a) = some a := rfl

@[simp] theorem value_pure : value (pure a : Access ι α) = some a := rfl

@[simp] theorem value_bind : value (x >>= f) = (value x).bind fun a => value (f a) := by
  cases x with
  | none => rfl
  | some found => cases hf : f found.1 <;> simp [bind, value, hf]

end Values

section Preconditions

variable {a : α} {is : List ι} {x : Access ι α} {f : α → Access ι β} {p : ι → Prop}

@[simp] theorem returns_touch {q : α → Prop} :
    Returns (touch is a) p q ↔ (∀ i ∈ is, p i) ∧ q a := by
  constructor
  · rintro ⟨b, js, heq, h⟩
    cases heq
    exact h
  · exact fun h => ⟨a, is, rfl, h⟩

@[simp] theorem returns_pure {q : α → Prop} : Returns (pure a : Access ι α) p q ↔ q a := by
  simp [pure]

@[simp] theorem returns_fail {q : α → Prop} : ¬Returns (fail : Access ι α) p q := by
  rintro ⟨a, is, heq, -⟩
  cases heq

@[simp] theorem returns_bind {q : β → Prop} :
    Returns (x >>= f) p q ↔ Returns x p fun a => Returns (f a) p q := by
  constructor
  · rintro ⟨b, ks, heq, hks, hb⟩
    obtain ⟨⟨a, is⟩, rfl, heq⟩ := Option.bind_eq_some_iff.mp heq
    obtain ⟨⟨c, js⟩, hc, heq⟩ := Option.map_eq_some_iff.mp heq
    cases heq
    refine ⟨a, is, rfl, fun i hi => hks i (List.mem_append_left _ hi), b, js, hc, ?_, hb⟩
    exact fun i hi => hks i (List.mem_append_right _ hi)
  · rintro ⟨a, is, rfl, his, b, js, hb, hjs, hq⟩
    refine ⟨b, is ++ js, ?_, ?_, hq⟩
    · simp only [bind, Option.bind_some, hb, Option.map_some]
      rfl
    · intro i hi
      exact (List.mem_append.mp hi).elim (his i) (hjs i)

theorem returns_iff_of_value {q : α → Prop} (hx : value x = some a) :
    Returns x p q ↔ Returns x p (fun _ => True) ∧ q a := by
  obtain ⟨⟨b, is⟩, rfl, rfl⟩ := Option.map_eq_some_iff.mp hx
  constructor
  · rintro ⟨c, js, heq, hjs, hc⟩
    cases heq
    exact ⟨⟨b, is, rfl, hjs, trivial⟩, hc⟩
  · rintro ⟨⟨c, js, heq, hjs, -⟩, hb⟩
    cases heq
    exact ⟨b, is, rfl, hjs, hb⟩

theorem returns_of_value {q : α → Prop} (hx : value x = some a) :
    Returns x (fun _ => True) q ↔ q a := by
  obtain ⟨⟨b, is⟩, rfl, rfl⟩ := Option.map_eq_some_iff.mp hx
  constructor
  · rintro ⟨c, js, heq, -, hc⟩
    cases heq
    exact hc
  · exact fun hb => ⟨b, is, rfl, fun _ _ => trivial, hb⟩

theorem returns_ite {c : Prop} [Decidable c] {y : Access ι α} {q : α → Prop} :
    Returns (if c then x else y) p q ↔ (c → Returns x p q) ∧ (¬c → Returns y p q) := by
  by_cases hc : c <;> simp [hc]

@[simp] theorem returns_note {f : ι → κ} {p : κ → Prop} {q : α → Prop} :
    Returns (x.note f) p q ↔ Returns x (fun i => p (f i)) q := by
  constructor
  · rintro ⟨a, js, heq, hjs, ha⟩
    obtain ⟨⟨b, is⟩, rfl, heq⟩ := Option.map_eq_some_iff.mp heq
    cases heq
    exact ⟨a, is, rfl, fun i hi => hjs (f i) (List.mem_map_of_mem hi), ha⟩
  · rintro ⟨a, is, rfl, his, ha⟩
    exact ⟨a, is.map f, rfl, by simpa using his, ha⟩

theorem Returns.mono {p' : ι → Prop} {q q' : α → Prop} (h : Returns x p q)
    (hp : ∀ i, p i → p' i) (hq : ∀ a, q a → q' a) : Returns x p' q' := by
  obtain ⟨a, is, hx, his, ha⟩ := h
  exact ⟨a, is, hx, fun i hi => hp i (his i hi), hq a ha⟩

theorem Returns.value_eq {q : α → Prop} (h : Returns x p q) : ∃ a, value x = some a ∧ q a := by
  obtain ⟨a, is, rfl, -, ha⟩ := h
  exact ⟨a, rfl, ha⟩

theorem Returns.determines {q : α → Prop} (h : Returns x p q) : ∃ a, q a ∧
    ∀ {p' : ι → Prop} {q' : α → Prop}, (∀ i, p i → p' i) → (Returns x p' q' ↔ q' a) := by
  obtain ⟨a, is, rfl, his, ha⟩ := h
  refine ⟨a, ha, fun hp => ⟨?_, fun hq => ⟨a, is, rfl, fun i hi => hp i (his i hi), hq⟩⟩⟩
  rintro ⟨b, js, heq, -, hb⟩
  cases heq
  exact hb

theorem Returns.and {p' : ι → Prop} {q q' : α → Prop} (h : Returns x p q)
    (h' : Returns x p' q') : Returns x (fun i => p i ∧ p' i) fun a => q a ∧ q' a := by
  obtain ⟨a, is, hx, his, ha⟩ := h
  obtain ⟨b, js, hx', hjs, hb⟩ := h'
  cases hx.symm.trans hx'
  exact ⟨a, is, hx, fun i hi => ⟨his i hi, hjs i hi⟩, ha, hb⟩

end Preconditions

end Access

end LearnCLinux
