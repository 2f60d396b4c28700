/-! Runs of a partial labelled step function: a label that is not enabled has no
successor.  What one step keeps, a whole run keeps. -/

universe u v w x

namespace LearnCLinux.Run

variable {S : Type u} {L : Type v} {E : Type w} {A : Type x}

def exec (step : S → L → Option S) : S → List L → Option S
  | s, [] => some s
  | s, l :: ls => (step s l).bind fun s' => exec step s' ls

/-- What an observer sees of a run, step by step. -/
def trace (step : S → L → Option S) (obs : S → L → S → List E) : S → List L → List E
  | _, [] => []
  | s, l :: ls => match step s l with
    | none => []
    | some s' => obs s l s' ++ trace step obs s' ls

theorem trace_filterMap {F : Type x} (f : E → Option F) (step : S → L → Option S)
    (obs : S → L → S → List E) (s : S) (ls : List L) :
    trace step (fun s l s' => (obs s l s').filterMap f) s ls =
      (trace step obs s ls).filterMap f := by
  induction ls generalizing s with
  | nil => rfl
  | cons l ls ih =>
    simp only [trace]
    cases step s l with
    | none => rfl
    | some s' => simp [ih]

/-- Every step the run takes meets `P`. -/
def Always (step : S → L → Option S) (P : S → L → S → Prop) : S → List L → Prop
  | _, [] => True
  | s, l :: ls => ∀ s', step s l = some s' → P s l s' ∧ Always step P s' ls

def Sometime (step : S → L → Option S) (P : S → L → S → Prop) : S → List L → Prop
  | _, [] => False
  | s, l :: ls => ∃ s', step s l = some s' ∧ (P s l s' ∨ Sometime step P s' ls)

variable {step : S → L → Option S}

@[simp] theorem exec_nil (s : S) : exec step s [] = some s := rfl

theorem exec_cons {s s'' : S} {l : L} {ls : List L} :
    exec step s (l :: ls) = some s'' ↔ ∃ s', step s l = some s' ∧ exec step s' ls = some s'' := by
  simp [exec, Option.bind_eq_some_iff]

theorem exec_append {s s'' : S} {ls ks : List L} :
    exec step s (ls ++ ks) = some s'' ↔
      ∃ s', exec step s ls = some s' ∧ exec step s' ks = some s'' := by
  induction ls generalizing s with
  | nil => simp
  | cons l ls ih =>
    simp only [List.cons_append, exec_cons, ih]
    constructor
    · rintro ⟨m, hm, s', hs', h⟩
      exact ⟨s', ⟨m, hm, hs'⟩, h⟩
    · rintro ⟨s', ⟨m, hm, hs'⟩, h⟩
      exact ⟨m, hm, s', hs', h⟩

theorem trace_append {obs : S → L → S → List E} {s m : S} {ls ks : List L}
    (h : exec step s ls = some m) :
    trace step obs s (ls ++ ks) = trace step obs s ls ++ trace step obs m ks := by
  induction ls generalizing s with
  | nil =>
    cases h
    rfl
  | cons l ls ih =>
    obtain ⟨n, hn, hrest⟩ := exec_cons.mp h
    simp only [List.cons_append, trace, hn, ih hrest, List.append_assoc]

theorem trace_of_labels {f : L → List E} {ls : List L} {s s' : S} (h : exec step s ls = some s') :
    trace step (fun _ l _ => f l) s ls = ls.flatMap f := by
  induction ls generalizing s with
  | nil => rfl
  | cons l ls ih =>
    obtain ⟨m, hm, hrest⟩ := exec_cons.mp h
    simp only [trace, hm, ih hrest, List.flatMap_cons]

/-- The run rule with a history: `I` relates what was observed so far to the state. -/
theorem trace_invariant {I : List E → S → Prop} {P : S → L → S → Prop}
    (obs : S → L → S → List E)
    (hstep : ∀ tr s l s', I tr s → step s l = some s' → P s l s' → I (tr ++ obs s l s') s')
    {ls : List L} (tr : List E) {s s' : S} (hI : I tr s) (hP : Always step P s ls)
    (h : exec step s ls = some s') : I (tr ++ trace step obs s ls) s' := by
  induction ls generalizing tr s with
  | nil => cases h; simpa [trace] using hI
  | cons l ls ih =>
    obtain ⟨m, hm, hrest⟩ := exec_cons.mp h
    have hnext := ih _ (hstep tr s l m hI hm (hP m hm).1) (hP m hm).2 hrest
    simpa [trace, hm] using hnext

/-- The run rule with the labels taken so far: `I` relates them to the state. -/
theorem history_invariant {I : List L → S → Prop} {s : S} (hI : I [] s)
    (hstep : ∀ ks l m m', exec step s ks = some m → I ks m → step m l = some m' →
      I (ks ++ [l]) m')
    {ls : List L} {s' : S} (h : exec step s ls = some s') : I ls s' := by
  suffices hsuffices : ∀ ks ls m, exec step s ks = some m → I ks m → exec step m ls = some s' →
      I (ks ++ ls) s' by
    simpa using hsuffices [] ls s rfl hI h
  intro ks ls
  induction ls generalizing ks with
  | nil =>
    intro m _ hm hend
    cases hend
    rwa [List.append_nil]
  | cons l ls ih =>
    intro m hks hm hend
    obtain ⟨m', hm', hrest⟩ := exec_cons.mp hend
    have hks' : exec step s (ks ++ [l]) = some m' :=
      exec_append.mpr ⟨m, hks, exec_cons.mpr ⟨m', hm', rfl⟩⟩
    simpa using ih (ks ++ [l]) m' hks' (hstep ks l m m' hks hm hm') hrest

/-- The run rule: what each step meeting `P` keeps, a run of such steps keeps. -/
theorem invariant_of_always {I : S → Prop} {P : S → L → S → Prop}
    (hstep : ∀ s l s', I s → step s l = some s' → P s l s' → I s')
    {ls : List L} {s s' : S} (hI : I s) (hP : Always step P s ls)
    (h : exec step s ls = some s') : I s' :=
  trace_invariant (I := fun _ => I) (fun _ _ _ => ([] : List Unit)) (fun _ => hstep) [] hI hP h

/-- Steps that meet `P` from states with the invariant meet `Q`. -/
theorem Always.of_invariant {I : S → Prop} {P Q : S → L → S → Prop}
    (hstep : ∀ s l s', I s → step s l = some s' → P s l s' → I s')
    (hQ : ∀ s l s', I s → step s l = some s' → P s l s' → Q s l s')
    {ls : List L} {s : S} (hI : I s) (hP : Always step P s ls) : Always step Q s ls := by
  induction ls generalizing s with
  | nil => trivial
  | cons l ls ih =>
    intro s' hs
    obtain ⟨hnow, hlater⟩ := hP s' hs
    exact ⟨hQ s l s' hI hs hnow, ih (hstep s l s' hI hs hnow) hlater⟩

theorem always_congr {I : S → Prop} {P Q : S → L → S → Prop}
    (hiff : ∀ s l s', I s → step s l = some s' → (P s l s' ↔ Q s l s'))
    (hstep : ∀ s l s', I s → step s l = some s' → Q s l s' → I s')
    {ls : List L} {s : S} (hI : I s) : Always step P s ls ↔ Always step Q s ls := by
  constructor
  · apply Always.of_invariant _ (fun s l s' hs hl => (hiff s l s' hs hl).mp) hI
    exact fun s l s' hs hl hP => hstep s l s' hs hl ((hiff s l s' hs hl).mp hP)
  · exact Always.of_invariant hstep (fun s l s' hs hl => (hiff s l s' hs hl).mpr) hI

theorem Always.and {P Q : S → L → S → Prop} {ls : List L} {s : S} (hP : Always step P s ls)
    (hQ : Always step Q s ls) : Always step (fun s l s' => P s l s' ∧ Q s l s') s ls := by
  induction ls generalizing s with
  | nil => trivial
  | cons l ls ih =>
    intro s' hs
    exact ⟨⟨(hP s' hs).1, (hQ s' hs).1⟩, ih (hP s' hs).2 (hQ s' hs).2⟩

theorem Always.imp {P Q : S → L → S → Prop} (h : ∀ s l s', step s l = some s' → P s l s' → Q s l s')
    {ls : List L} {s : S} (hP : Always step P s ls) : Always step Q s ls :=
  hP.of_invariant (I := fun _ => True) (fun _ _ _ _ _ _ => trivial) (fun s l s' _ => h s l s')
    trivial

theorem always_iff {P : S → L → S → Prop} {ls : List L} {s : S} :
    Always step P s ls ↔ ∀ ks l ms m m', ls = ks ++ l :: ms → exec step s ks = some m →
      step m l = some m' → P m l m' := by
  induction ls generalizing s with
  | nil =>
    refine ⟨fun _ ks l ms m m' h => ?_, fun _ => trivial⟩
    simp at h
  | cons l ls ih =>
    constructor
    · intro hP ks k ms m m' heq hm hstep
      cases ks with
      | nil =>
        cases heq
        cases hm
        exact (hP m' hstep).1
      | cons k' ks =>
        cases heq
        obtain ⟨n, hn, hrest⟩ := exec_cons.mp hm
        exact ih.mp (hP n hn).2 ks k ms m m' rfl hrest hstep
    · intro h n hn
      refine ⟨h [] l ls s n rfl rfl hn, ih.mpr fun ks k ms m m' heq hm => ?_⟩
      apply h (l :: ks) k ms m m' (by rw [heq, List.cons_append])
      exact exec_cons.mpr ⟨n, hn, hm⟩

/-- If no step leads back to `F`, and none that breaks `P` leads there, a run that ends in `F` has
no step that breaks `P`. -/
theorem Always.of_final {F : S → Prop} {P : S → L → S → Prop}
    (hback : ∀ s l s', step s l = some s' → F s' → F s ∧ P s l s')
    {ls : List L} {s s' : S} (h : exec step s ls = some s') (hF : F s') :
    F s ∧ Always step P s ls := by
  induction ls generalizing s with
  | nil =>
    cases h
    exact ⟨hF, trivial⟩
  | cons l ls ih =>
    obtain ⟨m, hm, hrest⟩ := exec_cons.mp h
    obtain ⟨hmid, hlater⟩ := ih hrest
    obtain ⟨hfirst, hnow⟩ := hback s l m hm hmid
    refine ⟨hfirst, fun n hn => ?_⟩
    cases hm.symm.trans hn
    exact ⟨hnow, hlater⟩

theorem always_true (s : S) (ls : List L) : Always step (fun _ _ _ => True) s ls := by
  induction ls generalizing s with
  | nil => trivial
  | cons l ls ih => exact fun s' _ => ⟨trivial, ih s'⟩

theorem always_of_mem {P : S → L → S → Prop} {ls : List L} (h : ∀ l ∈ ls, ∀ s s', P s l s')
    (s : S) : Always step P s ls := by
  induction ls generalizing s with
  | nil => trivial
  | cons l ls ih =>
    intro s' _
    refine ⟨h l List.mem_cons_self s s', ih ?_ s'⟩
    exact fun k hk => h k (List.mem_cons_of_mem l hk)

instance decidableAlways (P : S → L → S → Prop) [∀ s l s', Decidable (P s l s')] (s : S) :
    (ls : List L) → Decidable (Always step P s ls)
  | [] => isTrue trivial
  | l :: ls => match h : step s l with
    | none => isTrue fun s' hs => by rw [h] at hs; cases hs
    | some s' =>
      have := decidableAlways P s' ls
      decidable_of_iff (P s l s' ∧ Always step P s' ls) (by simp [Always, h])

instance decidableSometime (P : S → L → S → Prop) [∀ s l s', Decidable (P s l s')] (s : S) :
    (ls : List L) → Decidable (Sometime step P s ls)
  | [] => isFalse id
  | l :: ls => match h : step s l with
    | none => isFalse fun ⟨s', hs, _⟩ => by rw [h] at hs; cases hs
    | some s' =>
      have := decidableSometime P s' ls
      decidable_of_iff (P s l s' ∨ Sometime step P s' ls) (by simp [Sometime, h])

theorem invariant {I : S → Prop} (hstep : ∀ s l s', I s → step s l = some s' → I s')
    {ls : List L} {s s' : S} (hI : I s) (h : exec step s ls = some s') : I s' :=
  invariant_of_always (fun s l s' hI hs _ => hstep s l s' hI hs) hI (always_true s ls) h

/-- Where every step lowers `μ`, a run is no longer than `μ` allows. -/
theorem length_add_le {I : S → Prop} {μ : S → Nat}
    (hstep : ∀ s l s', I s → step s l = some s' → I s' ∧ μ s' < μ s)
    {ls : List L} {s s' : S} (hI : I s) (h : exec step s ls = some s') :
    ls.length + μ s' ≤ μ s := by
  induction ls generalizing s with
  | nil =>
    cases h
    exact Nat.le_of_eq (Nat.zero_add _)
  | cons l ls ih =>
    obtain ⟨m, hm, hrest⟩ := exec_cons.mp h
    obtain ⟨hIm, hless⟩ := hstep s l m hI hm
    have hlater := ih hIm hrest
    rw [List.length_cons]
    omega

/-- Where the steps that `p` counts lower `μ`, and no step raises it but those that `q` counts by at
most `k`, a run has no more steps of the first kind than `μ` and the second allow. -/
theorem countP_add_le {I : S → Prop} {P : S → L → S → Prop} {μ : S → Nat} {p q : L → Bool} {k : Nat}
    (hstep : ∀ s l s', I s → step s l = some s' → P s l s' →
      I s' ∧ μ s' + (if p l then 1 else 0) ≤ μ s + if q l then k else 0)
    {ls : List L} {s s' : S} (hI : I s) (hP : Always step P s ls)
    (h : exec step s ls = some s') : ls.countP p + μ s' ≤ μ s + k * ls.countP q := by
  induction ls generalizing s with
  | nil =>
    cases h
    simp
  | cons l ls ih =>
    obtain ⟨m, hm, hrest⟩ := exec_cons.mp h
    obtain ⟨hIm, hless⟩ := hstep s l m hI hm (hP m hm).1
    have hlater := ih hIm (hP m hm).2 hrest
    have hmul : k * (if q l then 1 else 0) = if q l then k else 0 := by
      cases q l <;> simp
    rw [List.countP_cons, List.countP_cons, Nat.mul_add, hmul]
    omega

/-- What a step meeting `P` establishes and every step keeps holds after a run with such a
step, where `J` is known of all states of the run. -/
theorem Sometime.invariant {I J : S → Prop} {P : S → L → S → Prop}
    (hestablish : ∀ s l s', J s → step s l = some s' → P s l s' → I s')
    (hstep : ∀ s l s', I s → step s l = some s' → I s')
    (hJ : ∀ s l s', J s → step s l = some s' → J s')
    {ls : List L} {s s' : S} (hs : J s) (hP : Sometime step P s ls)
    (h : exec step s ls = some s') : I s' := by
  induction ls generalizing s with
  | nil => exact hP.elim
  | cons l ls ih =>
    obtain ⟨m, hm, hrest⟩ := exec_cons.mp h
    obtain ⟨n, hn, hnow | hlater⟩ := hP
    · have hmn : n = m := Option.some.inj (hn.symm.trans hm)
      subst hmn
      exact Run.invariant hstep (hestablish s l n hs hn hnow) hrest
    · have hmn : n = m := Option.some.inj (hn.symm.trans hm)
      subst hmn
      exact ih (hJ s l n hs hn) hlater hrest

/-- Forward simulation: if each step, seen through `obs`, is a run of the abstract machine
`astep`, then so is every run. -/
theorem simulation {astep : A → E → Option A} {R : S → A → Prop} {obs : S → L → S → List E}
    (hstep : ∀ s l s' a, R s a → step s l = some s' →
      ∃ a', exec astep a (obs s l s') = some a' ∧ R s' a')
    {ls : List L} {s s' : S} {a : A} (hR : R s a) (h : exec step s ls = some s') :
    ∃ a', exec astep a (trace step obs s ls) = some a' ∧ R s' a' := by
  induction ls generalizing s a with
  | nil => cases h; exact ⟨a, rfl, hR⟩
  | cons l ls ih =>
    obtain ⟨m, hm, hrest⟩ := exec_cons.mp h
    obtain ⟨b, hb, hmb⟩ := hstep s l m a hR hm
    obtain ⟨a', ha', hs'⟩ := ih hmb hrest
    refine ⟨a', ?_, hs'⟩
    simp only [trace, hm]
    exact exec_append.mpr ⟨b, hb, ha'⟩

end LearnCLinux.Run
