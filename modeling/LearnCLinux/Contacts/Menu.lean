import LearnCLinux.Contacts.Book

/-! The loop of `main` in `contacts.c`, with what its calls look at: the header is the first node
that every one of them visits. -/

namespace LearnCLinux.Contacts

open LinkedList Terminated OrderedMap

/-- 1 to 4 are calls with what is typed behind them. -/
inductive Choice : Type
  | call (x : Command)
  | display

/-- `created` is a history variable: the nodes that `addPerson` has allocated. -/
structure Session where
  memory : Memory
  created : List Position

/-- The program waits at the menu, or it has stored or read where it must not. -/
inductive Menu : Type
  | waiting (s : Session)
  | crashed

section Code

def printPerson (b : Person) : Option (List UInt8 × List UInt8) :=
  (readString (b.bytes.drop nameAt)).bind fun name =>
  (readString (b.bytes.drop numberAt)).map fun number => (name, number)

/-- The loop of `displayPerson`, with the node that each pair of lines is printed from. -/
def displayLoop (m : Memory) : Nat → Position → Option (List (Position × List UInt8 × List UInt8))
  | 0, _ => none
  | n + 1, TmpL =>
    if TmpL = 0 then some []
    else (m.load TmpL).bind fun b => (printPerson b).bind fun lines =>
      (displayLoop m n b.next).map fun printed => (TmpL, lines) :: printed

def displayPerson (m : Memory) (contacts : Position) :
    Option (List (Position × List UInt8 × List UInt8)) :=
  displayLoop m (m.heap.size + 1) contacts

/-- `scanf` stores behind the end of `name` or `number` if what is typed does not fit. -/
def choose (contacts : Position) : Menu → Choice → Option Menu
  | .waiting s, .call x =>
    if Possible s.memory x then
      if x.Short then
        some (((run s.memory contacts x).map fun m =>
          .waiting ⟨m, s.created ++ createdBy s.memory contacts x⟩).getD .crashed)
      else some .crashed
    else none
  | .waiting s, .display =>
    some (((displayPerson s.memory contacts).map fun _ => .waiting s).getD .crashed)
  | .crashed, _ => some .crashed

def main (c : Start) : Menu := .waiting ⟨⟨AList.singleton c.contacts c.header, []⟩, []⟩

end Code

section Properties

variable (s : Session) (contacts : Position)

/-- A loop from the header on returns `p`, and visits the header and nodes of `addPerson` only. -/
def Within (visit : Position → Person → Option (Option Position)) (p : Position) : Prop :=
  ∃ ps, Walk Person.next s.memory.heap visit contacts ps p ∧
    ∀ q ∈ ps, q = contacts ∨ q ∈ s.created

def Finds (name : CString) (p : Position) : Prop :=
  Within s contacts (compareName name) p ∧ (p = 0 ∨ p ∈ s.created ∧ p ≠ contacts)

def Searches : Command → Prop
  | .addPerson name _ _ => ∃ p, Finds s contacts name p ∧
      (p = 0 → ∃ a, Within s contacts (before Person.next 0) a)
  | .delPerson name => ∃ p, Finds s contacts name p ∧
      ∃ a, Within s contacts (before Person.next p) a
  | .findPerson name => ∃ p, Finds s contacts name p
  | .changePerson name _ => ∃ p, Finds s contacts name p

/-- No traversal leaves the list, the header is neither found nor printed, and a call keeps it with
the name and the number in it. -/
def HeaderApart : Menu → Choice → Menu → Prop
  | .waiting s, .call x, t => x.Short → Searches s contacts x ∧
      ∀ s', t = .waiting s' → KeepsText s.memory s'.memory contacts
  | .waiting s, .display, _ => ∃ printed, displayPerson s.memory contacts = some printed ∧
      ∀ line ∈ printed, line.1 ∈ s.created ∧ line.1 ≠ contacts
  | .crashed, _, _ => True

/-- Until the program crashes nothing is displayed, and no call finds a header that links on or has
the name it is given. -/
def HeaderUnseen (c : Start) : Menu → Choice → Menu → Prop
  | .waiting _, .call x, _ => x.Short → c.header.next = 0 ∧ ¬ c.header.Reads nameAt x.name
  | .waiting _, .display, _ => False
  | .crashed, _, _ => True

end Properties

section Header

variable {c : Start} {s : Session} {contacts p : Position} {name : CString} {b : Person}
  {x : Command} {t : Menu}

theorem Searches.finds (hs : Searches s contacts x) : ∃ p, Finds s contacts x.name p := by
  cases x with
  | addPerson => exact hs.imp fun p hp => hp.1
  | delPerson => exact hs.imp fun p hp => hp.1
  | findPerson => exact hs
  | changePerson => exact hs

theorem Finds.not_reads (hf : Finds s contacts name p) (hb : s.memory.load contacts = some b) :
    ¬ b.Reads nameAt name := by
  intro hreads
  obtain ⟨⟨ps, hw, -⟩, hp⟩ := hf
  obtain ⟨-, rfl⟩ := hw.unique (.leave hb (compareName_of_reads hreads))
  rcases hp with hzero | ⟨-, hne⟩
  · exact Heap.ne_zero_of_load hb hzero
  · exact hne rfl

theorem Finds.next_eq_zero (hf : Finds s contacts name p) (hname : nameAt + name.length < 32)
    (hb : s.memory.load contacts = some b) (hcreated : s.created = []) : b.next = 0 := by
  have hreads := hf.not_reads hb
  obtain ⟨⟨ps, hw, hwithin⟩, -⟩ := hf
  by_contra hnext
  have hvisit : compareName name contacts b = some none := by
    rw [compareName_eq hname, if_neg hreads, if_neg hnext]
  have hnodup := hw.nodup
  cases hw with
  | leave hc hleave =>
    cases hc.symm.trans hb
    cases hleave.symm.trans hvisit
  | go hc hgo hrest =>
    cases hc.symm.trans hb
    -- the only cell that it may visit is the header, and that has been visited
    rcases hwithin b.next (List.mem_cons_of_mem _ hrest.start_mem) with hself | hmem
    · exact (List.nodup_cons.mp hnodup).1 (hself ▸ hrest.start_mem)
    · rw [hcreated] at hmem
      cases hmem

theorem not_displayed (hne : contacts ≠ 0) : ¬ HeaderApart contacts (.waiting s) .display t := by
  rintro ⟨printed, hprinted, happart⟩
  rw [displayPerson, displayLoop, if_neg hne] at hprinted
  obtain ⟨b, -, hprinted⟩ := Option.bind_eq_some_iff.mp hprinted
  obtain ⟨lines, -, hprinted⟩ := Option.bind_eq_some_iff.mp hprinted
  obtain ⟨rest, -, rfl⟩ := Option.map_eq_some_iff.mp hprinted
  exact (happart _ List.mem_cons_self).2 rfl

end Header

section Traversals

variable {c : Start} {s : Session} {nodes ns₁ ns₂ : List (Position × Entry)} {p : Position}
  {name number : CString} {x : Command}

theorem Represents.within (hr : Represents c s.memory nodes)
    (hcreated : nodes.map Prod.fst ⊆ s.created) {visit : Position → Person → Option (Option Position)}
    (hwalk : walk Person.next visit s.memory.heap s.memory.heap.size c.contacts = some p) :
    Within s c.contacts visit p := by
  obtain ⟨ps, hw⟩ := walk_size_iff.mp hwalk
  refine ⟨ps, hw, fun q hq => ?_⟩
  exact (List.mem_cons.mp (hw.subset hr.linked hq)).imp_right fun hnode => hcreated hnode

theorem Represents.findPervious_last (hr : Represents c s.memory nodes) :
    ∃ a, findPervious s.memory c.contacts 0 = some a := by
  obtain ⟨ps, a, heq⟩ := exists_last c.contacts (nodes.map Prod.fst)
  have hlinked := hr.linked
  rw [heq] at hlinked
  exact ⟨a, findPervious_eq hlinked hlinked.zero_not_mem⟩

theorem Represents.finds (hr : Represents c s.memory nodes)
    (hcreated : nodes.map Prod.fst ⊆ s.created) (happart : c.contacts ∉ s.created)
    (hname : name.length < nameSize) (hheader : ¬ c.header.Reads nameAt name) :
    ∃ p, Finds s c.contacts name p ∧ ∃ a, Within s c.contacts (before Person.next p) a := by
  by_cases hmem : name ∈ keys (nodes.map Prod.snd)
  · obtain ⟨ns₁, p, number, ns₂, rfl⟩ := exists_node hmem
    have hp : p ∈ s.created := hcreated (by simp)
    obtain ⟨ps, a, -, hprev⟩ := hr.findPervious_some
    refine ⟨p, ⟨hr.within hcreated (hr.findPerson_some hheader), .inr ⟨hp, ?_⟩⟩, a,
      hr.within hcreated hprev⟩
    rintro rfl
    exact happart hp
  · obtain ⟨a, hlast⟩ := hr.findPervious_last
    exact ⟨0, ⟨hr.within hcreated (hr.findPerson_none hname hheader hmem), .inl rfl⟩, a,
      hr.within hcreated hlast⟩

theorem short_name (h : x.Short) : x.name.length < nameSize := by
  cases x with
  | addPerson => exact h.1
  | delPerson => exact h
  | findPerson => exact h
  | changePerson => exact h.1

theorem Represents.searches (hr : Represents c s.memory nodes)
    (hcreated : nodes.map Prod.fst ⊆ s.created) (happart : c.contacts ∉ s.created)
    (hshort : x.Short) (hheader : ¬ c.header.Reads nameAt x.name) :
    Searches s c.contacts x := by
  obtain ⟨p, hp, hbefore⟩ := hr.finds hcreated happart (short_name hshort) hheader
  cases x with
  | addPerson name number block =>
    obtain ⟨a, hlast⟩ := hr.findPervious_last
    exact ⟨p, hp, fun _ => ⟨a, hr.within hcreated hlast⟩⟩
  | delPerson name => exact ⟨p, hp, hbefore⟩
  | findPerson name => exact ⟨p, hp⟩
  | changePerson name number => exact ⟨p, hp⟩

end Traversals

section Runs

variable {c : Start} {s : Session} {σ t : Menu} {x : Command} {y : Choice}

/-- The header links to nothing and the nodes behind it are those of `addPerson`; or it links on and
nothing has been called. -/
inductive Sound (c : Start) : Menu → Prop
  | listed {s nodes} : c.header.next = 0 → Represents c s.memory nodes →
      nodes.map Prod.fst ⊆ s.created → c.contacts ∉ s.created → Sound c (.waiting s)
  | untouched : c.header.next ≠ 0 → Sound c (main c)
  | crashed : Sound c .crashed

theorem choose_long (h : choose c.contacts (.waiting s) (.call x) = some t) (hlong : ¬ x.Short) :
    t = .crashed := by
  rw [choose, if_neg hlong] at h
  split at h
  · exact (Option.some.inj h).symm
  · cases h

theorem choose_short (h : choose c.contacts (.waiting s) (.call x) = some t) (hshort : x.Short) :
    Possible s.memory x ∧ t = ((run s.memory c.contacts x).map fun m =>
      Menu.waiting ⟨m, s.created ++ createdBy s.memory c.contacts x⟩).getD .crashed := by
  rw [choose, if_pos hshort] at h
  split at h
  · next hpossible => exact ⟨hpossible, (Option.some.inj h).symm⟩
  · cases h

theorem not_mem_createdBy (hpossible : Possible s.memory x) {b : Person}
    (hb : s.memory.load c.contacts = some b) : c.contacts ∉ createdBy s.memory c.contacts x := by
  intro hmem
  unfold createdBy at hmem
  split at hmem
  · split at hmem
    · exact Heap.Fresh.ne hpossible hb (List.mem_singleton.mp hmem)
    · cases hmem
  · cases hmem

theorem Represents.choose {nodes : List (Position × Entry)} (hr : Represents c s.memory nodes)
    (hcreated : nodes.map Prod.fst ⊆ s.created) (happart : c.contacts ∉ s.created)
    (hshort : x.Short) (hheader : ¬ c.header.Reads nameAt x.name)
    (h : choose c.contacts (.waiting s) (.call x) = some t) :
    t = .crashed ∨ ∃ s' nodes', t = .waiting s' ∧ Represents c s'.memory nodes' ∧
      nodes'.map Prod.fst ⊆ s'.created ∧ c.contacts ∉ s'.created := by
  obtain ⟨hpossible, rfl⟩ := choose_short h hshort
  by_cases hsafe : x.Safe (nodes.map Prod.snd)
  · obtain ⟨m', nodes', hm', hr', -, hsubset⟩ := hr.step hshort hheader hpossible hsafe
    obtain ⟨b, hb, -⟩ := hr.header
    refine .inr ⟨⟨m', s.created ++ createdBy s.memory c.contacts x⟩, nodes', ?_, hr', ?_, ?_⟩
    · rw [hm']
      rfl
    · intro q hq
      rw [List.mem_append]
      exact (List.mem_append.mp (hsubset hq)).imp_left fun hold => hcreated hold
    · rw [List.mem_append, not_or]
      exact ⟨happart, not_mem_createdBy hpossible hb⟩
  · left
    rw [hr.crash hshort hheader hsafe]
    rfl

theorem Represents.keepsText {m m' : Memory} {nodes nodes' : List (Position × Entry)}
    (hr : Represents c m nodes) (hr' : Represents c m' nodes') : KeepsText m m' c.contacts := by
  intro e he
  obtain ⟨b, hb, htext⟩ := hr.header
  cases hb.symm.trans he
  obtain ⟨b', hb', htext'⟩ := hr'.header
  exact ⟨b', hb', htext'.trans htext.symm⟩

theorem Sound.step (hs : Sound c σ) (h : choose c.contacts σ y = some t)
    (hunseen : HeaderUnseen c σ y t) : Sound c t := by
  cases hs with
  | crashed =>
    cases h
    exact .crashed
  | untouched hnext =>
    cases y with
    | display => exact hunseen.elim
    | call x =>
      by_cases hshort : x.Short
      · exact absurd (hunseen hshort).1 hnext
      · rw [choose_long h hshort]
        exact .crashed
  | listed hnext hr hcreated happart =>
    cases y with
    | display => exact hunseen.elim
    | call x =>
      by_cases hshort : x.Short
      · rcases hr.choose hcreated happart hshort (hunseen hshort).2 h with
          rfl | ⟨s', nodes', rfl, hr', hcreated', happart'⟩
        · exact .crashed
        · exact .listed hnext hr' hcreated' happart'
      · rw [choose_long h hshort]
        exact .crashed

/-- One choice keeps the header apart if and only if it does not see it. -/
theorem Sound.apart_iff (hs : Sound c σ) (h : choose c.contacts σ y = some t) :
    HeaderApart c.contacts σ y t ↔ HeaderUnseen c σ y t := by
  cases hs with
  | crashed => exact Iff.rfl
  | untouched hnext =>
    cases y with
    | display => exact iff_of_false (not_displayed c.contacts_ne_null) id
    | call x =>
      refine forall_congr' fun hshort => iff_of_false ?_ fun hunseen => hnext hunseen.1
      rintro ⟨hsearches, -⟩
      obtain ⟨p, hp⟩ := hsearches.finds
      have hload : Heap.load (AList.singleton c.contacts c.header) c.contacts = some c.header :=
        Heap.load_insert (h := ∅) c.contacts_ne_null
      exact hnext (hp.next_eq_zero (before_end (short_before_next (short_name hshort))) hload rfl)
  | @listed s nodes hnext hr hcreated happart =>
    cases y with
    | display => exact iff_of_false (not_displayed c.contacts_ne_null) id
    | call x =>
      refine forall_congr' fun hshort => ?_
      constructor
      · rintro ⟨hsearches, -⟩
        obtain ⟨p, hp⟩ := hsearches.finds
        obtain ⟨b, hb, htext⟩ := hr.header
        refine ⟨hnext, fun hreads => hp.not_reads hb ?_⟩
        rwa [Person.reads_congr htext (short_before_next (short_name hshort))]
      · rintro ⟨-, hheader⟩
        refine ⟨hr.searches hcreated happart hshort hheader, ?_⟩
        rintro s' rfl
        rcases hr.choose hcreated happart hshort hheader h with
          hcrash | ⟨s'', nodes', heq, hr', -⟩
        · cases hcrash
        · cases heq
          exact hr.keepsText hr'

theorem main_sound (c : Start) : Sound c (main c) := by
  by_cases hnext : c.header.next = 0
  · exact .listed hnext (start_represents hnext) (List.Subset.refl []) (by simp)
  · exact .untouched hnext

/-- For every content of the header and every sequence of choices. -/
theorem header_apart_iff (c : Start) (ys : List Choice) :
    Run.Always (choose c.contacts) (HeaderApart c.contacts) (main c) ys ↔
      Run.Always (choose c.contacts) (HeaderUnseen c) (main c) ys :=
  Run.always_congr (fun _ _ _ hs => hs.apart_iff) (fun _ _ _ hs => hs.step) (main_sound c)

def namedHeader : Start where
  contacts := address 1
  header := ⟨nineLetters.bytes ++ List.replicate 23 0, rfl⟩
  contacts_ne_null := emptyBook.contacts_ne_null

/-- The header of an empty book is displayed, and a header with a name in it is found. -/
theorem header_is_contact :
    ¬ Run.Always (choose emptyBook.contacts) (HeaderApart emptyBook.contacts) (main emptyBook)
      [.display] ∧
    findPerson ⟨AList.singleton namedHeader.contacts namedHeader.header, []⟩ namedHeader.contacts
      nineLetters = some namedHeader.contacts ∧
    ¬ Run.Always (choose namedHeader.contacts) (HeaderApart namedHeader.contacts)
      (main namedHeader) [.call (.findPerson nineLetters)] := by
  have hfound : findPerson ⟨AList.singleton namedHeader.contacts namedHeader.header, []⟩
      namedHeader.contacts nineLetters = some namedHeader.contacts := by decide +kernel
  refine ⟨fun h => ?_, hfound, fun h => ?_⟩
  · obtain ⟨t, ht⟩ : ∃ t, choose emptyBook.contacts (main emptyBook) .display = some t := ⟨_, rfl⟩
    exact not_displayed emptyBook.contacts_ne_null (h t ht).1
  · obtain ⟨t, ht⟩ : ∃ t, choose namedHeader.contacts (main namedHeader)
        (.call (.findPerson nineLetters)) = some t := ⟨_, rfl⟩
    obtain ⟨⟨p, hp⟩, -⟩ := (h t ht).1 (show nineLetters.length < nameSize by decide)
    exact hp.not_reads (b := namedHeader.header) rfl (by decide +kernel)

end Runs

end LearnCLinux.Contacts
