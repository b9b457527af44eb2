import PmDebugger.Library.OrderedSet

/-!
# Ordered sets keyed by a number

A set whose comparison reads one number of each element behaves as a finite map
from numbers to elements. The laws give each operation on the listing: lookup
finds the element with the key, insertion adds one, removal filters one out, and
an edit through a found pointer edits that one.
-/

namespace OrderedSet

open AvlTree OrderedSet.OSet

universe u
variable {α : Type u}

/-- Comparison of a number with the key of an element. This is the comparison by words, which a
set without one of its own uses. -/
def byKey (keyOf : α → Nat) (number : Nat) (elem : α) : Ordering :=
  if number < keyOf elem then .lt
  else if number > keyOf elem then .gt
  else .eq

/-- Strictly increasing keys. A set with this property answers every search by number from its
list alone. -/
def Keyed (keyOf : α → Nat) (elems : List α) : Prop :=
  elems.Pairwise (fun first second => keyOf first < keyOf second)

section

variable {keyOf : α → Nat}

/-- A search by number goes to the left if the number is smaller. -/
theorem byKey_lt_iff {number : Nat} {elem : α} :
    byKey keyOf number elem = .lt ↔ number < keyOf elem := by
  unfold byKey
  split
  · simp_all
  · split <;> simp_all

/-- It goes to the right if the number is greater. -/
theorem byKey_gt_iff {number : Nat} {elem : α} :
    byKey keyOf number elem = .gt ↔ keyOf elem < number := by
  unfold byKey
  split
  · simp_all
    omega
  · split <;> simp_all

/-- It ends where the number is the key. -/
theorem byKey_eq_iff {number : Nat} {elem : α} :
    byKey keyOf number elem = .eq ↔ keyOf elem = number := by
  unfold byKey
  split
  · simp_all
    omega
  · split
    · simp_all
      omega
    · simp_all
      omega

/-- Where the keys ascend, a number separates the elements. -/
theorem Keyed.separates {elems : List α} (keyed : Keyed keyOf elems) (number : Nat) :
    Separates (byKey keyOf number) elems := by
  refine List.Pairwise.imp ?_ keyed
  intro first second less
  rw [byKey_gt_iff, byKey_lt_iff]
  omega

/-- Where the keys ascend, the elements are ordered by them. -/
theorem Keyed.ordered {elems : List α} (keyed : Keyed keyOf elems) :
    Ordered (fun elem => byKey keyOf (keyOf elem)) elems := by
  refine List.Pairwise.imp ?_ keyed
  intro first second less
  exact ⟨byKey_lt_iff.mpr less, byKey_gt_iff.mpr less⟩

/-- Elements with equal keys are the same element. -/
theorem Keyed.unique {elems : List α} (keyed : Keyed keyOf elems) {first second : α}
    (member : first ∈ elems) (member' : second ∈ elems) (same : keyOf first = keyOf second) :
    first = second := by
  induction elems with
  | nil => simp at member
  | cons head rest inductionHypothesis =>
    obtain ⟨less, restKeyed⟩ := List.pairwise_cons.mp keyed
    rcases List.mem_cons.mp member with rfl | later <;>
      rcases List.mem_cons.mp member' with rfl | later'
    · rfl
    · have := less second later'
      omega
    · have := less first later
      omega
    · exact inductionHypothesis restKeyed later later'

variable {set : OSet α}

/-- A lookup by number returns the element with that key. -/
theorem lookup_byKey (keyed : Keyed keyOf set.toList) {number : Nat} {found : α} :
    set.lookup (byKey keyOf number) = some found ↔
      found ∈ set.toList ∧ keyOf found = number := by
  constructor
  · intro searched
    obtain ⟨member, equal⟩ := lookup_sound searched
    exact ⟨member, byKey_eq_iff.mp equal⟩
  · rintro ⟨member, same⟩
    cases searched : set.lookup (byKey keyOf number) with
    | none =>
      have absent := (lookup_none (keyed.separates number).guides).mp searched
      exact absurd (byKey_eq_iff.mpr same) (absent found member)
    | some other =>
      obtain ⟨otherMember, equal⟩ := lookup_sound searched
      exact congrArg some (keyed.unique otherMember member
        ((byKey_eq_iff.mp equal).trans same.symm))

/-- A lookup by number fails when no element has that key. -/
theorem lookup_byKey_none (keyed : Keyed keyOf set.toList) {number : Nat} :
    set.lookup (byKey keyOf number) = none ↔ ∀ elem ∈ set.toList, keyOf elem ≠ number := by
  rw [lookup_none (keyed.separates number).guides]
  simp only [ne_eq, byKey_eq_iff]

/-- Containment of a number. -/
theorem contains_byKey (keyed : Keyed keyOf set.toList) {number : Nat} :
    set.contains (byKey keyOf number) = true ↔ ∃ elem ∈ set.toList, keyOf elem = number := by
  rw [contains_iff (keyed.separates number).guides]
  simp only [byKey_eq_iff]

/-- Inserting an element with a fresh key. -/
theorem insert_byKey (keyed : Keyed keyOf set.toList) (value : α)
    (fresh : ∀ elem ∈ set.toList, keyOf elem ≠ keyOf value) :
    Keyed keyOf (set.insert (byKey keyOf (keyOf value)) value).toList ∧
      (∀ elem, elem ∈ (set.insert (byKey keyOf (keyOf value)) value).toList ↔
        elem = value ∨ elem ∈ set.toList) := by
  obtain ⟨before, after, listed, above, below⟩ :=
    exists_split (keyed.separates (keyOf value)).guides (by simpa [byKey_eq_iff] using fresh)
  obtain ⟨inserted, _⟩ := insert_split value listed above below
  rw [inserted, listed]
  constructor
  · rw [listed] at keyed
    obtain ⟨first, last, across⟩ := List.pairwise_append.mp keyed
    refine List.pairwise_append.mpr ⟨first, List.pairwise_cons.mpr ⟨?_, last⟩, ?_⟩
    · intro elem member
      exact byKey_lt_iff.mp (below elem member)
    · intro elem member other isOther
      rcases List.mem_cons.mp isOther with rfl | later
      · exact byKey_gt_iff.mp (above elem member)
      · exact across elem member other later
  · intro elem
    simp only [List.mem_append, List.mem_cons]
    tauto

/-- Inserting an element with a key above all others appends it. -/
theorem insert_byKey_last (value : α) (greatest : ∀ elem ∈ set.toList, keyOf elem < keyOf value) :
    (set.insert (byKey keyOf (keyOf value)) value).toList = set.toList ++ [value] ∧
      (set.insert (byKey keyOf (keyOf value)) value).duplicate = set.duplicate :=
  insert_last value (fun elem member => byKey_gt_iff.mpr (greatest elem member))

/-- Removing a number filters its element out. -/
theorem remove_byKey (keyed : Keyed keyOf set.toList) (number : Nat) :
    (set.remove (fun elem => byKey keyOf (keyOf elem)) (byKey keyOf number)).toList =
      set.toList.filter (fun elem => keyOf elem ≠ number) := by
  cases searched : set.lookup (byKey keyOf number) with
  | none =>
    have absent := (lookup_byKey_none keyed).mp searched
    simp only [OSet.remove, searched]
    exact (List.filter_eq_self.mpr (by simpa using absent)).symm
  | some found =>
    obtain ⟨member, rfl⟩ := (lookup_byKey keyed).mp searched
    simp only [OSet.remove, searched, toList]
    rw [AvlTree.remove_toList set.root (keyed.separates (keyOf found))]
    apply List.filter_congr
    intro elem _
    simp only [ne_eq, byKey_eq_iff]

/-- An edit that keeps the key, made through a found pointer, edits exactly the
element with that key. -/
theorem update_byKey (keyed : Keyed keyOf set.toList) (number : Nat) (edit : α → α) :
    (set.update (byKey keyOf number) edit).toList =
      set.toList.map (fun elem => if keyOf elem = number then edit elem else elem) := by
  have untouched {elems : List α} (absent : ∀ elem ∈ elems, keyOf elem ≠ number) :
      elems.map (fun elem => if keyOf elem = number then edit elem else elem) = elems := by
    refine (List.map_congr_left ?_).trans (List.map_id elems)
    intro elem member
    simp [absent elem member]
  cases located : set.locate (byKey keyOf number) with
  | none =>
    have searched : set.lookup (byKey keyOf number) = none := by simp [OSet.lookup, located]
    simp only [OSet.update, located]
    exact (untouched ((lookup_byKey_none keyed).mp searched)).symm
  | some result =>
    obtain ⟨position, found⟩ := result
    obtain ⟨stored, equal⟩ := locate_sound located
    have same := byKey_eq_iff.mp equal
    obtain ⟨inside, value⟩ := List.getElem?_eq_some_iff.mp stored
    have listed : set.toList = set.toList.take position ++
        found :: set.toList.drop (position + 1) := by
      rw [← value, List.getElem_cons_drop, List.take_append_drop]
    have short : (set.toList.take position).length = position := by
      simp
      omega
    have edited := modifyAt_match listed edit
    rw [short] at edited
    simp only [OSet.update, located]
    rw [edited]
    obtain ⟨_, tail, across⟩ := List.pairwise_append.mp (listed ▸ keyed)
    have before : ∀ elem ∈ set.toList.take position, keyOf elem ≠ number := by
      intro elem member
      have := across elem member found (by simp)
      omega
    have after : ∀ elem ∈ set.toList.drop (position + 1), keyOf elem ≠ number := by
      intro elem member
      have := (List.pairwise_cons.mp tail).1 elem member
      omega
    conv_rhs => rw [listed, List.map_append, List.map_cons, untouched before, untouched after,
      if_pos same]

/-- Edits that keep the keys keep the order. -/
theorem Keyed.map {elems : List α} (keyed : Keyed keyOf elems) {edit : α → α}
    (kept : ∀ elem, keyOf (edit elem) = keyOf elem) : Keyed keyOf (elems.map edit) := by
  refine List.pairwise_map.mpr (List.Pairwise.imp ?_ keyed)
  intro first second less
  rwa [kept, kept]

/-- A property that only the elements with one key can have counts at most one. -/
theorem Keyed.countP_eq {elems : List α} (keyed : Keyed keyOf elems) {elem : α}
    (member : elem ∈ elems) {holds : α → Bool}
    (only : ∀ other ∈ elems, holds other = true → keyOf other = keyOf elem) :
    elems.countP holds = if holds elem then 1 else 0 := by
  induction elems with
  | nil => simp at member
  | cons head rest inductionHypothesis =>
    obtain ⟨less, restKeyed⟩ := List.pairwise_cons.mp keyed
    rw [List.countP_cons]
    rcases List.mem_cons.mp member with rfl | later
    · have none : rest.countP holds = 0 := by
        refine List.countP_eq_zero.mpr (fun other otherMember holding => ?_)
        have same := only other (List.mem_cons_of_mem _ otherMember) holding
        have := less other otherMember
        omega
      simp [none]
    · have unheld : holds head = false := by
        by_contra holding
        have same := only head List.mem_cons_self (by simpa using holding)
        have := less elem later
        omega
      rw [inductionHypothesis restKeyed later
        (fun other otherMember => only other (List.mem_cons_of_mem _ otherMember))]
      simp [unheld]

end

end OrderedSet
