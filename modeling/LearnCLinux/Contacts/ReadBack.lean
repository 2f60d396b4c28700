import LearnCLinux.Contacts.Operations

/-! What is left of a name and a number that `addPerson` enters. -/

namespace LearnCLinux.Contacts

open LinkedList

section ReadBack

variable (m m' : Memory) (contacts : Position) (name number : CString)

def ReadsBack : Prop :=
  ∃ p b, findPerson m contacts name = some p ∧ m.load p = some b ∧ b.Reads nameAt name ∧
    b.Reads numberAt number

/-- The records there were keep their texts, and their links but for the one at the end. -/
def KeepsRecords : Prop :=
  ∀ q e, m.load q = some e → ∃ e', m'.load q = some e' ∧ e'.text = e.text ∧ (e.next ≠ 0 → e' = e)

def StoresInFields : Prop :=
  ∀ s ∈ m'.stores.drop m.stores.length, nameAt ≤ s.2 ∧ s.2 < numberAt + numberSize

/-- The number fits, and so does the name, or just the number follows its first ten bytes. -/
def Fits : Prop :=
  number.length < numberSize ∧
    (name.length < nameSize ∨ name.bytes.drop nameSize = number.bytes)

end ReadBack

section Added

variable {m : Memory} {contacts p a : Position} {name number : CString} {b d : Person}
  {ps : List Position} {h : nameAt + name.length < 32 ∧ numberAt + number.length < 32}

theorem storesInFields_iff : StoresInFields m (added m a d p b name number h) ↔
    name.length < nameSize + numberSize ∧ number.length < numberSize := by
  have hnew : (added m a d p b name number h).stores.drop m.stores.length =
      entered p name number := List.drop_left
  rw [StoresInFields, hnew]
  constructor
  · intro hstores
    have hname : (p, nameAt + name.length) ∈ entered p name number := by
      simp [entered, stored, CString.length]
    have hnumber : (p, numberAt + number.length) ∈ entered p name number := by
      simp [entered, stored, CString.length]
    have hname' := (hstores _ hname).2
    have hnumber' := (hstores _ hnumber).2
    simp only [nameAt, numberAt, nameSize, numberSize] at hname' hnumber' ⊢
    omega
  · rintro ⟨hname, hnumber⟩ s hs
    simp only [nameAt, numberAt, nameSize, numberSize] at hname hnumber ⊢
    simp only [entered, stored, CString.length, nameAt, numberAt, nameSize, List.mem_append,
      List.mem_map, List.mem_range'_1] at hs hname hnumber
    obtain ⟨i, hi, rfl⟩ | ⟨i, hi, rfl⟩ := hs
    · dsimp only
      omega
    · dsimp only
      omega

theorem keepsRecords_added (hseg : Segment Person.next m.heap contacts (ps ++ [a]) 0)
    (ha : m.load a = some d) (hp : m.heap.Fresh p) :
    KeepsRecords m (added m a d p b name number h) := by
  intro q e hq
  obtain ⟨e', he', htext, heq⟩ := load_added ha hp hq
  refine ⟨e', he', htext, fun hnext => heq ?_⟩
  rintro rfl
  exact hnext (hseg.next_last hq)

theorem findPerson_added (hseg : Segment Person.next m.heap contacts (ps ++ [a]) 0)
    (hother : ∀ q ∈ ps ++ [a], ∀ e, m.load q = some e → ¬ e.Reads nameAt name)
    (ha : m.load a = some d) (hp : m.heap.Fresh p) (hname : nameAt + name.length < nextAt) :
    findPerson (added m a d p b name number h) contacts name =
      some (if (b.enter name number h).Reads nameAt name then p else 0) := by
  have hnew := segment_added (b := b) (h := h) hseg ha hp
  have hold : ∀ q ∈ ps ++ [a], ∀ e, (added m a d p b name number h).load q = some e →
      ¬ e.Reads nameAt name := by
    intro q hq e he
    obtain ⟨e₀, he₀⟩ := hseg.load hq
    obtain ⟨e', he', htext, -⟩ := load_added (b := b) (h := h) ha hp he₀
    cases he'.symm.trans he
    rw [Person.reads_congr htext hname]
    exact hother q hq e₀ he₀
  have hread : ∀ e, (added m a d p b name number h).load p = some e →
      (e.Reads nameAt name ↔ (b.enter name number h).Reads nameAt name) := by
    intro e he
    cases (load_added_new ha hp).symm.trans he
    exact Person.reads_congr (Person.text_setNext ..) hname
  split
  · next hreads =>
    exact findPerson_found h.1 hnew hold fun e he => (hread e he).mpr hreads
  · next hreads =>
    apply findPerson_absent h.1 hnew
    intro q hq e he
    rcases List.mem_append.mp hq with hq | hq
    · exact hold q hq e he
    · cases List.mem_singleton.mp hq
      exact fun hr => hreads ((hread e he).mp hr)

theorem readsBack_added (hseg : Segment Person.next m.heap contacts (ps ++ [a]) 0)
    (hother : ∀ q ∈ ps ++ [a], ∀ e, m.load q = some e → ¬ e.Reads nameAt name)
    (ha : m.load a = some d) (hp : m.heap.Fresh p) (hname : nameAt + name.length < nextAt)
    (hnumber : numberAt + number.length < nextAt) :
    ReadsBack (added m a d p b name number h) contacts name number ↔
      name.length < nameSize ∨ name.bytes.drop nameSize = number.bytes := by
  rw [ReadsBack, findPerson_added hseg hother ha hp hname, ← Person.reads_name_enter_iff (h := h)]
  constructor
  · rintro ⟨q, e, hq, he, -⟩
    by_contra hreads
    rw [if_neg hreads] at hq
    cases hq
    exact Heap.ne_zero_of_load he rfl
  · intro hreads
    refine ⟨p, _, by rw [if_pos hreads], load_added_new ha hp, ?_, ?_⟩
    · rwa [Person.reads_congr (Person.text_setNext ..) hname]
    · rw [Person.reads_congr (Person.text_setNext ..) hnumber]
      exact Person.reads_number_enter

theorem Fits.lengths (hfits : Fits name number) :
    name.length < nameSize + numberSize ∧ number.length < numberSize := by
  refine ⟨?_, hfits.1⟩
  rcases hfits.2 with hname | hrest
  · exact Nat.lt_add_right _ hname
  · have hlength := congrArg List.length hrest
    have hnumber := hfits.1
    simp only [List.length_drop, CString.length, nameSize, numberSize] at hlength hnumber ⊢
    omega

theorem added_fits_iff (hseg : Segment Person.next m.heap contacts (ps ++ [a]) 0)
    (hother : ∀ q ∈ ps ++ [a], ∀ e, m.load q = some e → ¬ e.Reads nameAt name)
    (ha : m.load a = some d) (hp : m.heap.Fresh p) :
    ReadsBack (added m a d p b name number h) contacts name number ∧
      KeepsRecords m (added m a d p b name number h) ∧
        StoresInFields m (added m a d p b name number h) ↔ Fits name number := by
  rw [storesInFields_iff]
  constructor
  · rintro ⟨hreads, -, hname, hnumber⟩
    refine ⟨hnumber, ?_⟩
    exact (readsBack_added hseg hother ha hp (name_before_next hname)
      (number_before_next hnumber)).mp hreads
  · intro hfits
    obtain ⟨hname, hnumber⟩ := hfits.lengths
    refine ⟨?_, keepsRecords_added hseg ha hp, hname, hnumber⟩
    exact (readsBack_added hseg hother ha hp (name_before_next hname)
      (number_before_next hnumber)).mpr hfits.2

end Added

/-- In any memory, and so in any that a run reaches: a name that is not found is found once it has
been entered, with the number, nothing else being written, exactly when `malloc` returns a block
and what is entered fits. -/
theorem reads_back_iff {m : Memory} {contacts : Position} {name number : CString}
    {block : Option (Position × Person)} {s : State}
    (habsent : findPerson m contacts name = some 0)
    (hadd : step contacts (.running m) (.addPerson name number block) = some s) :
    (∃ m', s = .running m' ∧ ReadsBack m' contacts name number ∧ KeepsRecords m m' ∧
      StoresInFields m m') ↔ block ≠ none ∧ Fits name number := by
  obtain ⟨ps, a, hseg, hother⟩ := findPerson_none habsent
  obtain ⟨d, ha⟩ := hseg.load (List.mem_append_right _ List.mem_cons_self)
  have hlast := findPervious_eq hseg hseg.zero_not_mem
  obtain ⟨hp, rfl⟩ := step_running hadd
  cases block with
  | none =>
    rw [run, addPerson_null habsent]
    constructor
    · rintro ⟨m', hm', -⟩
      cases hm'
    · exact fun h => absurd rfl h.1
  | some block =>
    obtain ⟨p, b⟩ := block
    rw [run, addPerson_absent habsent hlast ha hp]
    by_cases h : nameAt + name.length < 32 ∧ numberAt + number.length < 32
    · rw [dif_pos h, ← added_fits_iff hseg hother ha hp (b := b) (h := h)]
      constructor
      · rintro ⟨m', hm', hresult⟩
        cases hm'
        exact ⟨by simp, hresult⟩
      · rintro ⟨-, hresult⟩
        exact ⟨_, rfl, hresult⟩
    · rw [dif_neg h]
      constructor
      · rintro ⟨m', hm', -⟩
        cases hm'
      · rintro ⟨-, hfits⟩
        obtain ⟨hname, hnumber⟩ := hfits.lengths
        exact absurd ⟨before_end (name_before_next hname),
          before_end (number_before_next hnumber)⟩ h

theorem reads_back_full_fields : ∃ m m' : Memory, start emptyBook = .running m ∧
    ReadsBack m' emptyBook.contacts nineLetters tenDigits ∧ KeepsRecords m m' ∧
      StoresInFields m m' := by
  have habsent : findPerson ⟨AList.singleton (address 1) emptyBook.header, []⟩ (address 1)
      nineLetters = some 0 := by decide +kernel
  have hadd : step (address 1) (.running ⟨AList.singleton (address 1) emptyBook.header, []⟩)
      (.addPerson nineLetters tenDigits (some (address 2, dirty))) = some _ := rfl
  obtain ⟨m', -, hresult⟩ := (reads_back_iff habsent hadd).mpr
    ⟨by simp, by decide, .inl (by decide)⟩
  exact ⟨_, m', rfl, hresult⟩

/-- The tenth byte of the name takes the place of its terminator, and the number runs on from it:
what is read is `abcdefghij1234567890`. -/
theorem long_name_not_found : ∃ m m' : Memory, start emptyBook = .running m ∧
    findPerson m emptyBook.contacts tenLetters = some 0 ∧
      step emptyBook.contacts (.running m)
        (.addPerson tenLetters tenDigits (some (address 2, dirty))) = some (.running m') ∧
      findPerson m' emptyBook.contacts tenLetters = some 0 ∧
      ¬ ReadsBack m' emptyBook.contacts tenLetters tenDigits := by
  obtain ⟨m', hm', hcond⟩ : ∃ m', addPerson ⟨AList.singleton (address 1) emptyBook.header, []⟩
      (address 1) tenLetters tenDigits (some (address 2, dirty)) = some m' ∧
        decide (findPerson m' (address 1) tenLetters = some 0) = true :=
    (Option.any_eq_true _ _).mp (by decide +kernel)
  have hfind := of_decide_eq_true hcond
  refine ⟨_, m', rfl, by decide +kernel, ?_, hfind, ?_⟩
  · rw [step, if_pos (by decide), run]
    exact congrArg (fun m => some ((Option.map State.running m).getD .crashed)) hm'
  · rintro ⟨p, b, hp, hb, -⟩
    cases hfind.symm.trans hp
    exact Heap.ne_zero_of_load hb rfl

end LearnCLinux.Contacts
