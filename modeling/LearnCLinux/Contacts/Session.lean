import LearnCLinux.Contacts.Menu

/-! Sessions at the menu of `contacts.c`: what is displayed, and what is left on the heap. -/

namespace LearnCLinux.Contacts

open LinkedList Terminated OrderedMap

def calls (ys : List Choice) : List Command :=
  ys.filterMap fun
    | .call x => some x
    | .display => none

/-- The lines of the header are printed, and then those of `book`. -/
def Displays (c : Start) (m : Memory) (book : List Entry) : Prop :=
  ∃ lines printed, printPerson c.header = some lines ∧
    displayPerson m c.contacts = some ((c.contacts, lines) :: printed) ∧
      printed.map Prod.snd = book.map fun e => (e.1.bytes, e.2.bytes)

section Size

variable {m m' : Memory} {contacts p q : Position} {name number : CString} {b : Person} {i : Nat}

theorem size_store {x : UInt8} (h : m.store p i x = some m') : m'.heap.size = m.heap.size := by
  obtain ⟨b, hb, h⟩ := Option.bind_eq_some_iff.mp h
  split at h
  · cases h
    exact Heap.size_insert_of_mem (Heap.mem_of_load hb)
  · cases h

theorem size_strcpy {s : List UInt8} (h : m.strcpy p i s = some m') :
    m'.heap.size = m.heap.size := by
  induction s generalizing m i with
  | nil => exact size_store h
  | cons x s ih =>
    obtain ⟨m₁, h₁, h⟩ := Option.bind_eq_some_iff.mp h
    exact (ih h).trans (size_store h₁)

theorem size_setNext (h : m.setNext p q = some m') : m'.heap.size = m.heap.size := by
  obtain ⟨b, hb, rfl⟩ := Option.map_eq_some_iff.mp h
  exact Heap.size_insert_of_mem (Heap.mem_of_load hb)

theorem size_addPerson (hfind : findPerson m contacts name = some 0) (hp : m.heap.Fresh p)
    (h : addPerson m contacts name number (some (p, b)) = some m') :
    m'.heap.size = m.heap.size + 1 := by
  rw [addPerson, hfind, Option.bind_some, if_neg (by simp)] at h
  obtain ⟨a, -, h⟩ := Option.bind_eq_some_iff.mp h
  obtain ⟨m₁, h₁, h⟩ := Option.bind_eq_some_iff.mp h
  obtain ⟨m₂, h₂, h⟩ := Option.bind_eq_some_iff.mp h
  obtain ⟨m₃, h₃, h⟩ := Option.bind_eq_some_iff.mp h
  rw [size_setNext h, size_setNext h₃, size_strcpy h₂, size_strcpy h₁]
  exact Heap.size_insert_of_not_mem hp.2

theorem size_delPerson (hfind : findPerson m contacts name = some p)
    (h : delPerson m contacts name = some m') : m'.heap.size + 1 = m.heap.size := by
  rw [delPerson, hfind, Option.bind_some] at h
  obtain ⟨a, -, h⟩ := Option.bind_eq_some_iff.mp h
  obtain ⟨b, hb, h⟩ := Option.bind_eq_some_iff.mp h
  obtain ⟨m₁, h₁, h⟩ := Option.bind_eq_some_iff.mp h
  obtain ⟨heap, hfree, rfl⟩ := Option.map_eq_some_iff.mp h
  rw [Heap.free, if_neg (Heap.ne_zero_of_load hb)] at hfree
  split at hfree
  · next hmem =>
    cases hfree
    rw [← size_setNext h₁]
    exact Heap.size_erase hmem
  · cases hfree

theorem size_changePerson (h : changePerson m contacts name number = some m') :
    m'.heap.size = m.heap.size := by
  obtain ⟨p, -, h⟩ := Option.bind_eq_some_iff.mp h
  split at h
  · cases h
    rfl
  · obtain ⟨m₁, h₁, h⟩ := Option.bind_eq_some_iff.mp h
    rw [size_strcpy h, size_strcpy h₁]

end Size

section Listed

variable {c : Start} {m m' : Memory} {nodes : List (Position × Entry)} {x : Command}

/-- A call takes a block for each contact it enters, and gives one back for each it deletes. -/
theorem Represents.size_run (hr : Represents c m nodes) (hshort : x.Short)
    (hheader : ¬ c.header.Reads nameAt x.name) (hpossible : Possible m x)
    (hrun : run m c.contacts x = some m') :
    m'.heap.size + nodes.length =
      m.heap.size + (x.apply (nodes.map Prod.snd)).length := by
  cases x with
  | addPerson name number block =>
    by_cases hname : name ∈ keys (nodes.map Prod.snd)
    · obtain ⟨ns₁, p, old, ns₂, rfl⟩ := exists_node hname
      obtain ⟨b, hb, -⟩ := hr.holds (p, name, old) (by simp)
      cases (addPerson_found (hr.findPerson_some hheader) (Heap.ne_zero_of_load hb)
        block).symm.trans hrun
      rw [Command.apply, add_of_mem hname, List.length_map]
    · have hfind := hr.findPerson_none hshort.1 hheader hname
      cases block with
      | none => cases (addPerson_null hfind).symm.trans hrun
      | some block =>
        rw [size_addPerson hfind hpossible hrun, Command.apply, add_of_not_mem hname,
          List.length_append, List.length_map, List.length_singleton]
        omega
  | delPerson name =>
    by_cases hname : name ∈ keys (nodes.map Prod.snd)
    · obtain ⟨ns₁, p, old, ns₂, rfl⟩ := exists_node hname
      have hsize := size_delPerson (hr.findPerson_some hheader) hrun
      have hdistinct := hr.distinct
      rw [List.map_append, List.map_cons] at hdistinct
      rw [Command.apply, List.map_append, List.map_cons, remove_append hdistinct, ← hsize]
      simp only [List.length_append, List.length_cons, List.length_map]
      omega
    · cases (delPerson_absent (hr.findPerson_none hshort hheader hname)).symm.trans hrun
  | findPerson name =>
    obtain ⟨p, -, rfl⟩ := Option.map_eq_some_iff.mp hrun
    rw [Command.apply, List.length_map]
  | changePerson name number =>
    rw [size_changePerson hrun, Command.apply, OrderedMap.change, List.length_map, List.length_map]

/-- The nodes are the contacts that the calls make, and there is a block for each and for the
header. -/
structure Listed (c : Start) (m : Memory) (ys : List Choice) (nodes : List (Position × Entry)) :
    Prop where
  represents : Represents c m nodes
  book : nodes.map Prod.snd = bookAfter (calls ys)
  size : m.heap.size = nodes.length + 1

variable {s : Session} {ys : List Choice} {t : Menu}

theorem calls_concat (y : Choice) : calls (ys ++ [y]) = calls ys ++ calls [y] :=
  List.filterMap_append

theorem choose_display (h : choose c.contacts (.waiting s) .display = some t) :
    t = .waiting s ∨ t = .crashed ∧ displayPerson s.memory c.contacts = none := by
  rw [choose] at h
  cases hprinted : displayPerson s.memory c.contacts with
  | none =>
    rw [hprinted] at h
    exact .inr ⟨(Option.some.inj h).symm, rfl⟩
  | some printed =>
    rw [hprinted] at h
    exact .inl (Option.some.inj h).symm

theorem main_listed (hnext : c.header.next = 0) :
    Listed c ⟨AList.singleton c.contacts c.header, []⟩ [] [] where
  represents := start_represents hnext
  book := rfl
  size := rfl

theorem Listed.call (hl : Listed c s.memory ys nodes) (hshort : x.Short)
    (hheader : ¬ c.header.Reads nameAt x.name)
    (h : choose c.contacts (.waiting s) (.call x) = some t) :
    (x.Safe (bookAfter (calls ys)) → ∃ s' nodes', t = .waiting s' ∧
      Listed c s'.memory (ys ++ [.call x]) nodes') ∧
    (¬ x.Safe (bookAfter (calls ys)) → t = .crashed) := by
  obtain ⟨hpossible, rfl⟩ := choose_short h hshort
  have hr := hl.represents
  rw [← hl.book]
  constructor
  · intro hsafe
    obtain ⟨m', nodes', hrun, hr', hbook, -⟩ := hr.step hshort hheader hpossible hsafe
    refine ⟨_, nodes', by rw [hrun]; rfl, hr', ?_, ?_⟩
    · rw [hbook, hl.book, calls_concat, bookAfter, bookAfter, List.foldl_append]
      rfl
    · have hsize := hr.size_run hshort hheader hpossible hrun
      rw [← hbook, List.length_map, hl.size] at hsize
      change m'.heap.size = _
      omega
  · intro hbroken
    rw [hr.crash hshort hheader hbroken]
    rfl

end Listed

section Display

variable {c : Start} {m : Memory} {b : Person} {e : Entry} {p : Position}
  {nodes : List (Position × Entry)} {ys : List Choice}

theorem readString_drop {l s : List UInt8} {i : Nat} :
    readString (l.drop i) = some s ↔ 0 ∉ s ∧ ReadsAt l i s := readString_eq_some

theorem printPerson_of_reads (hname : b.Reads nameAt e.1) (hnumber : b.Reads numberAt e.2) :
    printPerson b = some (e.1.bytes, e.2.bytes) := by
  rw [printPerson, readString_drop.mpr ⟨e.1.no_nul, hname⟩, Option.bind_some,
    readString_drop.mpr ⟨e.2.no_nul, hnumber⟩, Option.map_some]

theorem readString_text {i : Nat} (hi : i ≤ nextAt) (h : 0 ∈ b.text.drop i) :
    readString (b.bytes.drop i) = some ((b.text.drop i).takeWhile (· ≠ 0)) := by
  have hsplit : b.bytes.drop i = b.text.drop i ++ b.bytes.drop nextAt := by
    rw [← List.drop_append_of_le_length (by rwa [b.length_text]), Person.text,
      List.take_append_drop]
  rw [hsplit]
  exact readString_append (readString_of_mem h) _

theorem printPerson_text (h : 0 ∈ b.text.drop numberAt) : printPerson b =
    some ((b.text.drop nameAt).takeWhile (· ≠ 0), (b.text.drop numberAt).takeWhile (· ≠ 0)) := by
  have hname : 0 ∈ b.text.drop nameAt := by
    rw [nameAt, List.drop_zero]
    exact List.mem_of_mem_drop h
  rw [printPerson, readString_text (by decide) hname, Option.bind_some,
    readString_text (by decide) h, Option.map_some]

theorem displayLoop_eq (hseg : Segment Person.next m.heap p (nodes.map Prod.fst) 0)
    (hholds : ∀ n ∈ nodes, Holds m n.1 n.2) {n : Nat} (hn : nodes.length < n) :
    displayLoop m n p = some (nodes.map fun n => (n.1, n.2.1.bytes, n.2.2.bytes)) := by
  induction nodes generalizing p n with
  | nil =>
    cases hseg
    cases n with
    | zero => cases hn
    | succ n => rfl
  | cons node nodes ih =>
    cases hseg with
    | cons hb hrest =>
      cases n with
      | zero => cases hn
      | succ n =>
        obtain ⟨b, hb', hname, hnumber⟩ := hholds node List.mem_cons_self
        cases hb.symm.trans hb'
        have hprinted := ih hrest (fun n hn => hholds n (List.mem_cons_of_mem _ hn))
          (Nat.lt_of_succ_lt_succ hn)
        rw [displayLoop, if_neg (Heap.ne_zero_of_load hb), Memory.load, hb, Option.bind_some,
          printPerson_of_reads hname hnumber, Option.bind_some, hprinted]
        rfl

theorem Listed.displayPerson (hl : Listed c m ys nodes) : ∃ b, b.text = c.header.text ∧
    displayPerson m c.contacts = (printPerson b).map fun lines =>
      (c.contacts, lines) :: nodes.map fun n => (n.1, n.2.1.bytes, n.2.2.bytes) := by
  obtain ⟨b, hb, htext⟩ := hl.represents.header
  refine ⟨b, htext, ?_⟩
  have hlinked := hl.represents.linked
  cases hlinked with
  | cons hb' hrest =>
    cases hb.symm.trans hb'
    rw [Contacts.displayPerson, hl.size, displayLoop, if_neg c.contacts_ne_null, hb,
      Option.bind_some, displayLoop_eq hrest hl.represents.holds (Nat.lt_succ_self _)]
    cases printPerson b with
    | none => rfl
    | some lines => rfl

/-- A header with a string that ends before its link is printed after any calls alike. -/
theorem Listed.displays (hl : Listed c m ys nodes) (hprints : 0 ∈ c.header.text.drop numberAt) :
    Displays c m (bookAfter (calls ys)) := by
  obtain ⟨b, htext, hprinted⟩ := hl.displayPerson
  rw [printPerson_text (htext ▸ hprints), htext] at hprinted
  refine ⟨_, _, printPerson_text hprints, hprinted, ?_⟩
  rw [← hl.book, List.map_map, List.map_map]
  rfl

end Display

section Sessions

variable {c : Start} {s : Session} {x : Command} {ys : List Choice} {t : Menu}
  {printed : List (Position × List UInt8 × List UInt8)}

/-- A session has made safe calls only, and has their book; or it has crashed, and if the header can
be printed, then on a call that was not safe. -/
def Outcome (c : Start) (ys : List Choice) : Menu → Prop
  | .waiting s => AllSafe (calls ys) ∧ ∃ nodes, Listed c s.memory ys nodes
  | .crashed => 0 ∈ c.header.text.drop numberAt → ¬ AllSafe (calls ys)

theorem Outcome.call (ho : Outcome c ys (.waiting s)) (hshort : x.Short)
    (hheader : ¬ c.header.Reads nameAt x.name)
    (h : choose c.contacts (.waiting s) (.call x) = some t) : Outcome c (ys ++ [.call x]) t := by
  obtain ⟨hsafe, nodes, hl⟩ := ho
  obtain ⟨hgood, hbad⟩ := hl.call hshort hheader h
  by_cases hnow : x.Safe (bookAfter (calls ys))
  · obtain ⟨s', nodes', rfl, hl'⟩ := hgood hnow
    refine ⟨?_, nodes', hl'⟩
    rw [calls_concat]
    exact allSafe_concat.mpr ⟨hsafe, hnow⟩
  · cases hbad hnow
    intro _ hall
    rw [calls_concat] at hall
    exact hnow (allSafe_concat.mp hall).2

theorem Outcome.display (ho : Outcome c ys (.waiting s))
    (h : choose c.contacts (.waiting s) .display = some t) : Outcome c (ys ++ [.display]) t := by
  obtain ⟨hsafe, nodes, hl⟩ := ho
  have hsame : calls (ys ++ [.display]) = calls ys := by
    rw [calls_concat]
    exact List.append_nil _
  rcases choose_display h with rfl | ⟨rfl, hnone⟩
  · exact ⟨hsame ▸ hsafe, nodes, hl.represents, hsame ▸ hl.book, hl.size⟩
  · intro hprints
    obtain ⟨lines, printed, -, hsome, -⟩ := hl.displays hprints
    cases hnone.symm.trans hsome

theorem Outcome.crashed (ho : Outcome c ys .crashed) (y : Choice) :
    Outcome c (ys ++ [y]) .crashed := by
  intro hprints hall
  exact ho hprints fun xs x zs heq => hall xs x (zs ++ calls [y]) (by simp [calls_concat, heq])

theorem exec_outcome (hnext : c.header.next = 0)
    (hcalls : ∀ x ∈ calls ys, x.Short ∧ ¬ c.header.Reads nameAt x.name)
    (hrun : Run.exec (choose c.contacts) (main c) ys = some t) : Outcome c ys t := by
  refine Run.history_invariant (I := fun ys t =>
    (∀ x ∈ calls ys, x.Short ∧ ¬ c.header.Reads nameAt x.name) → Outcome c ys t) ?_ ?_ hrun hcalls
  · exact fun _ => ⟨allSafe_nil, [], main_listed hnext⟩
  · intro ys y m m' _ ho h hcalls
    rw [calls_concat] at hcalls
    have hbefore := ho fun x hx => hcalls x (List.mem_append_left _ hx)
    cases m with
    | crashed =>
      cases h
      exact hbefore.crashed y
    | waiting s =>
      cases y with
      | call x =>
        obtain ⟨hshort, hheader⟩ := hcalls x (List.mem_append_right _ List.mem_cons_self)
        exact hbefore.call hshort hheader h
      | display => exact hbefore.display h

/-- After any sequence of choices the contacts are displayed in the order in which they were
entered, behind the header, if and only if each contact to be deleted was there, and no `malloc` for
a new one returned NULL; otherwise the program has crashed. -/
theorem displays_book_iff (hnext : c.header.next = 0) (hprints : 0 ∈ c.header.text.drop numberAt)
    (hcalls : ∀ x ∈ calls ys, x.Short ∧ ¬ c.header.Reads nameAt x.name)
    (hrun : Run.exec (choose c.contacts) (main c) ys = some t) :
    ((∃ s, t = .waiting s ∧ Displays c s.memory (bookAfter (calls ys))) ↔ AllSafe (calls ys)) ∧
      (¬ AllSafe (calls ys) → t = .crashed) := by
  have houtcome := exec_outcome hnext hcalls hrun
  cases t with
  | crashed =>
    refine ⟨iff_of_false ?_ (houtcome hprints), fun _ => rfl⟩
    rintro ⟨s, heq, -⟩
    cases heq
  | waiting s =>
    obtain ⟨hsafe, nodes, hl⟩ := houtcome
    exact ⟨iff_of_true ⟨s, rfl, hl.displays hprints⟩ hsafe, fun hbroken => absurd hsafe hbroken⟩

def changedNumber : List Choice :=
  [.call (.addPerson nineLetters tenDigits (some (address 2, dirty))), .display,
    .call (.changePerson nineLetters nineLetters), .display]

theorem changedNumber_safe : AllSafe (calls changedNumber) := by
  have hfirst : AllSafe ([] ++ [.addPerson nineLetters tenDigits (some (address 2, dirty))]) :=
    allSafe_concat.mpr ⟨allSafe_nil, fun h => by cases h⟩
  have hsecond : Command.Safe (bookAfter ([] ++ [.addPerson nineLetters tenDigits
    (some (address 2, dirty))])) (.changePerson nineLetters nineLetters) := trivial
  exact allSafe_concat.mpr ⟨hfirst, hsecond⟩

theorem changedNumber_runs : ∃ t, Run.exec (choose emptyBook.contacts) (main emptyBook)
    changedNumber = some t := by
  apply Option.isSome_iff_exists.mp
  decide +kernel

theorem displays_book_changed : ∃ s, Run.exec (choose emptyBook.contacts) (main emptyBook)
    changedNumber = some (.waiting s) ∧
      Displays emptyBook s.memory [(nineLetters, nineLetters)] := by
  obtain ⟨t, ht⟩ := changedNumber_runs
  obtain ⟨hiff, -⟩ := displays_book_iff rfl (by decide) (by decide +kernel) ht
  obtain ⟨s, rfl, hs⟩ := hiff.mpr changedNumber_safe
  exact ⟨s, ht, hs⟩

/-- Each block that is still allocated is displayed, and once. -/
theorem displays_heap (hnext : c.header.next = 0)
    (hcalls : ∀ x ∈ calls ys, x.Short ∧ ¬ c.header.Reads nameAt x.name)
    (hrun : Run.exec (choose c.contacts) (main c) ys = some (.waiting s))
    (hprinted : displayPerson s.memory c.contacts = some printed) :
    (printed.map Prod.fst).Nodup ∧ ∀ p, p ∈ s.memory.heap ↔ p ∈ printed.map Prod.fst := by
  obtain ⟨-, nodes, hl⟩ := exec_outcome hnext hcalls hrun
  obtain ⟨b, -, hdisplay⟩ := hl.displayPerson
  rw [hdisplay] at hprinted
  obtain ⟨lines, -, rfl⟩ := Option.map_eq_some_iff.mp hprinted
  have hnodes : (nodes.map fun n => (n.1, n.2.1.bytes, n.2.2.bytes)).map Prod.fst =
      nodes.map Prod.fst := by
    rw [List.map_map]
    rfl
  rw [List.map_cons, hnodes]
  have hlinked := hl.represents.linked
  refine ⟨hlinked.nodup, fun p => Heap.mem_iff_of_size (fun q hq => ?_) hlinked.nodup ?_⟩
  · obtain ⟨d, hd⟩ := hlinked.load hq
    exact Heap.mem_of_load hd
  · rw [hl.size, List.length_cons, List.length_map]

theorem displays_heap_deleted : ∃ s printed, Run.exec (choose emptyBook.contacts) (main emptyBook)
    [.call (.addPerson nineLetters tenDigits (some (address 2, dirty))),
      .call (.delPerson nineLetters)] = some (.waiting s) ∧
    displayPerson s.memory emptyBook.contacts = some printed ∧
      ∀ p, p ∈ s.memory.heap ↔ p ∈ printed.map Prod.fst := by
  obtain ⟨s, hs⟩ : ∃ s, Run.exec (choose emptyBook.contacts) (main emptyBook)
      [.call (.addPerson nineLetters tenDigits (some (address 2, dirty))),
        .call (.delPerson nineLetters)] = some (.waiting s) := ⟨_, rfl⟩
  obtain ⟨printed, hprinted⟩ : ∃ printed, displayPerson s.memory emptyBook.contacts =
      some printed := by
    cases hs
    exact ⟨_, rfl⟩
  exact ⟨s, printed, hs, hprinted, (displays_heap rfl (by decide +kernel) hs hprinted).2⟩

end Sessions

end LearnCLinux.Contacts
