import Mathlib.Data.List.AList
import Mathlib.Data.List.Nodup

/-! Lists of cells linked by pointers.  A walk that is still under way after as many cells as the
heap has goes round in a circle, so the size of the heap bounds the loops of a program. -/

universe u v w

namespace LearnCLinux

/-- Cells by their addresses.  0 is the null pointer. -/
abbrev Heap (A : Type u) (C : Type v) := AList fun _ : A => C

namespace Heap

section Cells

variable {A : Type u} {C : Type v} [DecidableEq A] [Zero A] {h : Heap A C} {p q : A} {c : C}

/-- What a pointer points to, if it may be dereferenced. -/
def load (h : Heap A C) (p : A) : Option C := if p = 0 then none else h.lookup p

/-- An address an allocator may return. -/
def Fresh (h : Heap A C) (p : A) : Prop := p ≠ 0 ∧ p ∉ h

instance (h : Heap A C) (p : A) : Decidable (h.Fresh p) := inferInstanceAs (Decidable (_ ∧ _))

def size (h : Heap A C) : Nat := h.keys.length

def free (h : Heap A C) (p : A) : Option (Heap A C) :=
  if p = 0 then some h else if p ∈ h then some (h.erase p) else none

@[simp] theorem load_zero : h.load 0 = none := if_pos rfl

theorem load_of_ne (hp : p ≠ 0) : h.load p = h.lookup p := if_neg hp

theorem ne_zero_of_load (hc : h.load p = some c) : p ≠ 0 := by
  rintro rfl
  rw [load_zero] at hc
  cases hc

theorem mem_of_load (hc : h.load p = some c) : p ∈ h := by
  rw [load_of_ne (ne_zero_of_load hc)] at hc
  apply AList.lookup_isSome.mp
  rw [hc]
  rfl

theorem Fresh.ne (hp : h.Fresh p) (hc : h.load q = some c) : q ≠ p := by
  rintro rfl
  exact hp.2 (mem_of_load hc)

theorem load_insert (hp : p ≠ 0) : Heap.load (h.insert p c) p = some c := by
  rw [load_of_ne hp, AList.lookup_insert]

theorem load_insert_of_ne (hne : q ≠ p) : Heap.load (h.insert p c) q = h.load q := by
  simp only [load, AList.lookup_insert_ne hne]

theorem load_erase_of_ne (hne : q ≠ p) : Heap.load (h.erase p) q = h.load q := by
  simp only [load, AList.lookup_erase_ne hne]

theorem free_of_load (hc : h.load p = some c) : h.free p = some (h.erase p) := by
  rw [free, if_neg (ne_zero_of_load hc), if_pos (mem_of_load hc)]

theorem load_erase (p : A) : Heap.load (h.erase p) p = none := by
  by_cases hp : p = 0
  · rw [hp, load_zero]
  · rw [load_of_ne hp, AList.lookup_erase]

end Cells

section Size

variable {A : Type u} {C : Type v} {h : Heap A C} {p q : A} {c : C}

theorem mem_iff_of_size {ps : List A} (hps : ∀ q ∈ ps, q ∈ h.keys) (hnodup : ps.Nodup)
    (hsize : h.size = ps.length) : q ∈ h ↔ q ∈ ps := by
  have hperm : ps.Perm h.keys :=
    (List.subperm_of_subset hnodup hps).perm_of_length_le (Nat.le_of_eq hsize)
  exact hperm.symm.mem_iff

variable [DecidableEq A]

theorem size_insert_of_mem (hp : p ∈ h) : Heap.size (h.insert p c) = h.size := by
  rw [size, AList.keys_insert, List.length_cons, List.length_erase_of_mem hp]
  exact Nat.sub_add_cancel (List.length_pos_of_mem hp)

theorem size_insert_of_not_mem (hp : p ∉ h) : Heap.size (h.insert p c) = h.size + 1 := by
  rw [size, AList.keys_insert, List.length_cons, List.erase_of_not_mem hp, size]

theorem size_erase (hp : p ∈ h) : Heap.size (h.erase p) + 1 = h.size := by
  rw [size, AList.keys_erase, List.length_erase_of_mem hp]
  exact Nat.sub_add_cancel (List.length_pos_of_mem hp)

end Size

end Heap

namespace LinkedList

theorem exists_last {A : Type u} (a : A) (ps : List A) : ∃ qs b, a :: ps = qs ++ [b] :=
  (List.eq_nil_or_concat' (a :: ps)).resolve_left (List.cons_ne_nil a ps)

variable {A : Type u} {C : Type v} {R : Type w} [DecidableEq A] [Zero A]

/-- A loop along the links.  `visit` may fault, leave with a result or go on. -/
def walk (next : C → A) (visit : A → C → Option (Option R)) (h : Heap A C) : Nat → A → Option R
  | 0, _ => none
  | n + 1, p => (h.load p).bind fun c => (visit p c).bind fun
    | some r => some r
    | none => walk next visit h n (next c)

/-- Leaves the loop at the cell before `q`. -/
def before (next : C → A) (q : A) (p : A) (c : C) : Option (Option A) :=
  some (if next c = q then some p else none)

variable (next : C → A) (h : Heap A C)

/-- The cells a loop visits, and its result. -/
inductive Walk (visit : A → C → Option (Option R)) : A → List A → R → Prop
  | leave {p c r} : h.load p = some c → visit p c = some (some r) → Walk visit p [p] r
  | go {p c ps r} : h.load p = some c → visit p c = some none → Walk visit (next c) ps r →
      Walk visit p (p :: ps) r

/-- The cells from `p` on to the link `q`. -/
inductive Segment : A → List A → A → Prop
  | nil (p) : Segment p [] p
  | cons {p c ps q} : h.load p = some c → Segment (next c) ps q → Segment p (p :: ps) q

section Walks

variable {next h} {visit : A → C → Option (Option R)} {p q : A} {ps qs : List A} {r r' : R}

theorem Walk.unique (hw : Walk next h visit p ps r) (hw' : Walk next h visit p qs r') :
    ps = qs ∧ r = r' := by
  induction hw generalizing qs with
  | leave hc hr =>
    cases hw' with
    | leave hc' hr' =>
      cases hc.symm.trans hc'
      cases hr.symm.trans hr'
      exact ⟨rfl, rfl⟩
    | go hc' hgo _ =>
      cases hc.symm.trans hc'
      cases hr.symm.trans hgo
  | go hc hgo _ ih =>
    cases hw' with
    | leave hc' hr =>
      cases hc.symm.trans hc'
      cases hgo.symm.trans hr
    | go hc' _ hrest =>
      cases hc.symm.trans hc'
      obtain ⟨hps, hr⟩ := ih hrest
      exact ⟨congrArg _ hps, hr⟩

theorem Walk.of_mem (hw : Walk next h visit p ps r) (hq : q ∈ ps) :
    ∃ qs, Walk next h visit q qs r ∧ qs <:+ ps := by
  induction hw with
  | leave hc hr =>
    cases List.mem_singleton.mp hq
    exact ⟨_, .leave hc hr, List.suffix_rfl⟩
  | go hc hgo hrest ih =>
    cases hq with
    | head => exact ⟨_, .go hc hgo hrest, List.suffix_rfl⟩
    | tail _ hq =>
      obtain ⟨qs, hqs, hsuffix⟩ := ih hq
      exact ⟨qs, hqs, hsuffix.trans (List.suffix_cons ..)⟩

theorem Walk.start_mem (hw : Walk next h visit p ps r) : p ∈ ps := by
  cases hw with
  | leave => exact List.mem_cons_self
  | go => exact List.mem_cons_self

theorem Walk.nodup (hw : Walk next h visit p ps r) : ps.Nodup := by
  induction hw with
  | leave => exact List.nodup_singleton _
  | @go p c ps r hc hgo hrest ih =>
    refine List.nodup_cons.mpr ⟨fun hmem => ?_, ih⟩
    -- the rest of the walk from `p` would be as long as the walk itself
    obtain ⟨qs, hqs, hsuffix⟩ := hrest.of_mem hmem
    have hlength := hsuffix.length_le
    rw [(hqs.unique (.go hc hgo hrest)).1, List.length_cons] at hlength
    exact Nat.not_succ_le_self _ hlength

theorem Walk.length_le (hw : Walk next h visit p ps r) : ps.length ≤ h.size := by
  have hkeys : ∀ q ∈ ps, q ∈ h.keys := by
    intro q hq
    obtain ⟨qs, hqs, -⟩ := hw.of_mem hq
    cases hqs with
    | leave hc => exact AList.mem_keys.mp (Heap.mem_of_load hc)
    | go hc => exact AList.mem_keys.mp (Heap.mem_of_load hc)
  exact List.Nodup.length_le_of_subset hw.nodup hkeys

theorem Walk.walk_eq (hw : Walk next h visit p ps r) {n : Nat} (hn : ps.length ≤ n) :
    walk next visit h n p = some r := by
  induction hw generalizing n with
  | leave hc hr =>
    cases n with
    | zero => cases hn
    | succ n => simp [walk, hc, hr]
  | go hc hgo _ ih =>
    cases n with
    | zero => cases hn
    | succ n => simp [walk, hc, hgo, ih (Nat.le_of_succ_le_succ hn)]

theorem exists_walk {n : Nat} (hr : walk next visit h n p = some r) :
    ∃ ps, Walk next h visit p ps r := by
  induction n generalizing p with
  | zero => cases hr
  | succ n ih =>
    obtain ⟨c, hc, hr⟩ := Option.bind_eq_some_iff.mp hr
    obtain ⟨_ | r', hvisit, hr⟩ := Option.bind_eq_some_iff.mp hr
    · obtain ⟨ps, hps⟩ := ih hr
      exact ⟨p :: ps, .go hc hvisit hps⟩
    · cases hr
      exact ⟨[p], .leave hc hvisit⟩

/-- A loop that ends in any number of rounds ends in as many as the heap has cells. -/
theorem walk_size_iff :
    walk next visit h h.size p = some r ↔ ∃ ps, Walk next h visit p ps r := by
  constructor
  · exact exists_walk
  · rintro ⟨ps, hps⟩
    exact hps.walk_eq hps.length_le

end Walks

section Segments

variable {next h} {h' : Heap A C} {p q r a : A} {ps qs : List A} {c : C}

theorem Segment.append (hps : Segment next h p ps q) (hqs : Segment next h q qs r) :
    Segment next h p (ps ++ qs) r := by
  induction hps with
  | nil => exact hqs
  | cons hc _ ih => exact .cons hc (ih hqs)

theorem Segment.split (hseg : Segment next h p (ps ++ qs) r) :
    ∃ q, Segment next h p ps q ∧ Segment next h q qs r := by
  induction ps generalizing p with
  | nil => exact ⟨p, .nil p, hseg⟩
  | cons a ps ih =>
    cases hseg with
    | cons hc hrest =>
      obtain ⟨q, hps, hqs⟩ := ih hrest
      exact ⟨q, .cons hc hps, hqs⟩

theorem Segment.load (hseg : Segment next h p ps q) (ha : a ∈ ps) : ∃ c, h.load a = some c := by
  induction hseg with
  | nil => cases ha
  | cons hc _ ih =>
    cases ha with
    | head => exact ⟨_, hc⟩
    | tail _ ha => exact ih ha

theorem Segment.next_mem (hseg : Segment next h p (ps ++ [a]) q) {b : A} (hb : b ∈ ps)
    (hc : h.load b = some c) : next c ∈ ps ++ [a] := by
  induction ps generalizing p with
  | nil => cases hb
  | cons d ps ih =>
    cases hseg with
    | cons hd hrest =>
      cases hb with
      | head =>
        cases hd.symm.trans hc
        apply List.mem_cons_of_mem
        cases ps with
        | nil =>
          cases hrest
          exact List.mem_singleton_self _
        | cons =>
          cases hrest
          exact List.mem_cons_self
      | tail _ hb => exact List.mem_cons_of_mem _ (ih hrest hb)

theorem Segment.next_last (hseg : Segment next h p (ps ++ [a]) q) (hc : h.load a = some c) :
    next c = q := by
  obtain ⟨b, _, hlast⟩ := hseg.split
  cases hlast with
  | cons ha hrest =>
    cases ha.symm.trans hc
    cases hrest with
    | nil => rfl

theorem Segment.walk {R : Type w} {visit : A → C → Option (Option R)} {x : R}
    (hseg : Segment next h p (ps ++ [a]) q)
    (hgo : ∀ b ∈ ps, ∀ c, h.load b = some c → visit b c = some none)
    (hleave : ∀ c, h.load a = some c → visit a c = some (some x)) :
    Walk next h visit p (ps ++ [a]) x := by
  induction ps generalizing p with
  | nil =>
    cases hseg with
    | cons hc _ => exact .leave hc (hleave _ hc)
  | cons d ps ih =>
    cases hseg with
    | cons hc hrest =>
      refine .go hc (hgo _ List.mem_cons_self _ hc) (ih hrest ?_)
      exact fun b hb => hgo b (List.mem_cons_of_mem _ hb)

theorem Segment.walk_before (hseg : Segment next h p (ps ++ [a]) q) (hq : q ∉ ps ++ [a]) :
    Walk next h (before next q) p (ps ++ [a]) a := by
  apply hseg.walk
  · intro b hb c hc
    have hne : next c ≠ q := by
      rintro rfl
      exact hq (hseg.next_mem hb hc)
    exact congrArg some (if_neg hne)
  · intro c hc
    exact congrArg some (if_pos (hseg.next_last hc))

theorem Walk.segment {R : Type w} {visit : A → C → Option (Option R)} {x : R}
    (hw : Walk next h visit p ps x) : ∃ qs a c, ps = qs ++ [a] ∧ Segment next h p ps (next c) ∧
      h.load a = some c ∧ visit a c = some (some x) ∧
      ∀ b ∈ qs, ∃ d, h.load b = some d ∧ visit b d = some none := by
  induction hw with
  | @leave p c x hc hleave =>
    exact ⟨[], p, c, rfl, .cons hc (.nil _), hc, hleave, fun b hb => by cases hb⟩
  | @go p c ps x hc hgo _ ih =>
    obtain ⟨qs, a, d, rfl, hseg, ha, hleave, hpassed⟩ := ih
    refine ⟨p :: qs, a, d, rfl, .cons hc hseg, ha, hleave, fun b hb => ?_⟩
    cases hb with
    | head => exact ⟨c, hc, hgo⟩
    | tail _ hb => exact hpassed b hb

theorem Walk.subset {R : Type w} {visit : A → C → Option (Option R)} {x : R}
    (hw : Walk next h visit p qs x) (hseg : Segment next h p ps 0) : qs ⊆ ps := by
  induction hw generalizing ps with
  | leave hc _ =>
    cases hseg with
    | nil => exact absurd rfl (Heap.ne_zero_of_load hc)
    | cons =>
      intro q hq
      exact List.mem_singleton.mp hq ▸ List.mem_cons_self
  | go hc _ _ ih =>
    cases hseg with
    | nil => exact absurd rfl (Heap.ne_zero_of_load hc)
    | cons hc' hrest =>
      cases hc.symm.trans hc'
      exact List.cons_subset_cons _ (ih hrest)

theorem Segment.zero_not_mem (hseg : Segment next h p ps q) : 0 ∉ ps := by
  intro hzero
  obtain ⟨c, hc⟩ := hseg.load hzero
  exact Heap.ne_zero_of_load hc rfl

theorem Segment.nodup (hseg : Segment next h p ps 0) : ps.Nodup := by
  rcases List.eq_nil_or_concat' ps with rfl | ⟨ps, a, rfl⟩
  · exact List.nodup_nil
  · exact (hseg.walk_before hseg.zero_not_mem).nodup

theorem Segment.ne_middle (hseg : Segment next h p (ps ++ [a] ++ qs) 0)
    (hq : q ∈ ps ∨ q ∈ qs) : q ≠ a := by
  have hnodup := hseg.nodup
  rw [List.append_assoc] at hnodup
  rintro rfl
  exact (List.nodup_cons.mp (List.nodup_middle.mp hnodup)).1 (List.mem_append.mpr hq)

theorem Segment.ne_next {b : A} (hseg : Segment next h p (ps ++ [a] ++ b :: qs) 0)
    (hq : q ∈ ps ++ [a] ∨ q ∈ qs) : q ≠ b := by
  have hmiddle : Segment next h p (ps ++ [a] ++ [b] ++ qs) 0 := by
    rwa [List.append_assoc, List.singleton_append]
  exact hmiddle.ne_middle hq

theorem Segment.congr (hseg : Segment next h p ps q)
    (hlinks : ∀ a ∈ ps, (h'.load a).map next = (h.load a).map next) :
    Segment next h' p ps q := by
  induction hseg with
  | nil => exact .nil _
  | @cons p c ps q hc _ ih =>
    have hlink := hlinks p List.mem_cons_self
    rw [hc] at hlink
    obtain ⟨c', hc', heq⟩ := Option.map_eq_some_iff.mp hlink
    refine .cons hc' ?_
    rw [heq]
    exact ih fun a ha => hlinks a (List.mem_cons_of_mem _ ha)

theorem Segment.relink (hseg : Segment next h p (ps ++ [a]) q)
    (hlinks : ∀ b ∈ ps, (h'.load b).map next = (h.load b).map next) (ha : h'.load a = some c) :
    Segment next h' p (ps ++ [a]) (next c) := by
  obtain ⟨b, hps, hlast⟩ := hseg.split
  cases hlast with
  | cons => exact (hps.congr hlinks).append (.cons ha (.nil _))

theorem Segment.unlink {d : C} (hseg : Segment next h p (ps ++ [a] ++ q :: qs) r)
    (hq : h.load q = some c)
    (hlinks : ∀ b, b ∈ ps ∨ b ∈ qs → (h'.load b).map next = (h.load b).map next)
    (ha : h'.load a = some d) (hd : next d = next c) : Segment next h' p (ps ++ [a] ++ qs) r := by
  obtain ⟨s, hfirst, hrest⟩ := hseg.split
  cases hrest with
  | cons hs hrest =>
    cases hs.symm.trans hq
    have hlinked := hfirst.relink (fun b hb => hlinks b (.inl hb)) ha
    rw [hd] at hlinked
    exact hlinked.append (hrest.congr fun b hb => hlinks b (.inr hb))

theorem Segment.link {d e : C} {b : A} (hseg : Segment next h p (ps ++ [a] ++ qs) r)
    (ha : h.load a = some c)
    (hlinks : ∀ q, q ∈ ps ∨ q ∈ qs → (h'.load q).map next = (h.load q).map next)
    (ha' : h'.load a = some d) (hd : next d = b) (hb : h'.load b = some e)
    (he : next e = next c) : Segment next h' p (ps ++ [a] ++ b :: qs) r := by
  obtain ⟨s, hfirst, hrest⟩ := hseg.split
  have hs : next c = s := hfirst.next_last ha
  have hlinked := hfirst.relink (fun q hq => hlinks q (.inl hq)) ha'
  rw [hd] at hlinked
  refine hlinked.append (.cons hb ?_)
  rw [he, hs]
  exact hrest.congr fun q hq => hlinks q (.inr hq)

end Segments

section Teardown

/-- A loop that frees a cell and then takes the link out of it.  What has been freed comes with the
heap. -/
def freeLoop (next : C → A) : Nat → Heap A C → A → List A → Option (Heap A C × List A)
  | 0, _, _, _ => none
  | n + 1, h, p, freed =>
    if p = 0 then some (h, freed)
    else (h.free p).bind fun h => (h.load p).bind fun c => freeLoop next n h (next c) (freed ++ [p])

variable {next : C → A} {h : Heap A C} {p : A} {n : Nat} {freed : List A}

theorem freeLoop_zero : freeLoop next (n + 1) h 0 freed = some (h, freed) := if_pos rfl

theorem freeLoop_of_ne (hp : p ≠ 0) : freeLoop next n h p freed = none := by
  cases n with
  | zero => rfl
  | succ n =>
    rw [freeLoop, if_neg hp, Heap.free, if_neg hp]
    split
    · rw [Option.bind_some, Heap.load_erase, Option.bind_none]
    · rfl

end Teardown

end LinkedList

end LearnCLinux
