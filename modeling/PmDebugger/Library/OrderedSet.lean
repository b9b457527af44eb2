import PmDebugger.Library.AvlTree

/-!
# Ordered sets with one internal iterator

A set owns a search tree and the position of a single walk over it. Insertion
and removal discard the walk, so that the next step of an interrupted walk
yields nothing; `resetIterAt` resumes it at a key. Elements are edited in place
through their positions, which stand for the pointers that a search or a walk
hands out.

An insertion that meets an element comparing equal is an assertion failure. It
is recorded in the set instead of being hidden by a silent overwrite. The laws
describe every operation by its effect on the in-order listing, split at the key.
-/

namespace OrderedSet

open AvlTree

universe u
variable {α : Type u}

/-- The tree, the position of the walk (absent when it was discarded) and the
record of a failed insertion. -/
structure OSet (α : Type u) where
  root : AvlTree.Tree α
  iter : Option Nat
  duplicate : Bool
deriving DecidableEq, Repr

namespace OSet

/-- A freshly created set. There is no walk to begin with. -/
def create : OSet α := { root := .leaf, iter := none, duplicate := false }

/-- The elements in the order of a full walk. Sets are compared by this list wherever their
shape does not matter. -/
def toList (set : OSet α) : List α := set.root.toList

/-- Number of elements, which is the count that the set itself keeps. -/
def size (set : OSet α) : Nat := set.toList.length

/-- Position and value of the match found by a search from the root. The position stands for
the pointer that the search returns. -/
def locate (key : α → Ordering) (set : OSet α) : Option (Nat × α) := set.root.lookup key

/-- The match found by a search from the root. Which of several matches it finds depends on the
shape of the tree. -/
def lookup (key : α → Ordering) (set : OSet α) : Option α := (set.locate key).map Prod.snd

/-- Whether a search from the root finds a match. -/
def contains (key : α → Ordering) (set : OSet α) : Bool := (set.lookup key).isSome

/-- Insert an element and discard the walk. A match on the way down is the
failed assertion "duplicate element added". -/
def insert (key : α → Ordering) (value : α) (set : OSet α) : OSet α :=
  if set.contains key then { set with duplicate := true }
  else { set with root := (set.root.insert key value).1, iter := none }

/-- Remove the match found by a search and discard the walk. The found element is
then removed by its own key, as the tree does. -/
def remove (cmp : α → α → Ordering) (key : α → Ordering) (set : OSet α) : OSet α :=
  match set.lookup key with
  | none => set
  | some found => { set with root := (set.root.remove (cmp found)).1, iter := none }

/-- Start a walk at the least element. A walk that was under way is forgotten. -/
def resetIter (set : OSet α) : OSet α := { set with iter := some 0 }

/-- Start a walk at the least element not below the key, or at the match met on the way down. -/
def resetIterAt (key : α → Ordering) (set : OSet α) : OSet α :=
  { set with iter := some (set.root.seek key) }

/-- One step of the walk: the position and value of the next element and the set
with its walk advanced, or nothing once the walk is exhausted or discarded. -/
def next (set : OSet α) : Option (Nat × α × OSet α) :=
  match set.iter with
  | none => none
  | some position =>
      match set.toList[position]? with
      | none => none
      | some elem => some (position, elem, { set with iter := some (position + 1) })

/-- Write through the pointer to the element at a position. The tree is not told, even if the
order of the elements has changed. -/
def modifyAt (position : Nat) (edit : α → α) (set : OSet α) : OSet α :=
  { set with root := set.root.modifyAt edit position }

/-- Write through the pointer that a search returns; a null pointer is not written. -/
def update (key : α → Ordering) (edit : α → α) (set : OSet α) : OSet α :=
  match set.locate key with
  | none => set
  | some (position, _) => set.modifyAt position edit

/-- A full walk that edits every element in place. The walk of the set itself is not touched. -/
def map (edit : α → α) (set : OSet α) : OSet α := { set with root := set.root.map edit }

end OSet

open OSet

/-- Listing in strictly increasing order of a comparison of elements. A set stays so ordered as
long as nobody writes through its pointers. -/
def Ordered (cmp : α → α → Ordering) (elems : List α) : Prop :=
  elems.Pairwise (fun first second => cmp first second = .lt ∧ cmp second first = .gt)

/-- A new set is empty. -/
@[simp] theorem toList_create : (create : OSet α).toList = [] := rfl

/-- The iterator is no element. -/
@[simp] theorem toList_resetIter (set : OSet α) : set.resetIter.toList = set.toList := rfl

/-- Nor is its place. -/
@[simp] theorem toList_resetIterAt (key : α → Ordering) (set : OSet α) :
    (set.resetIterAt key).toList = set.toList := rfl

/-- The element at a position is modified in the list as in the tree. -/
@[simp] theorem toList_modifyAt (position : Nat) (edit : α → α) (set : OSet α) :
    (set.modifyAt position edit).toList = set.toList.modify position edit :=
  AvlTree.toList_modifyAt edit position set.root

/-- All elements are edited where they are. -/
@[simp] theorem toList_map (edit : α → α) (set : OSet α) :
    (set.map edit).toList = set.toList.map edit :=
  AvlTree.toList_map edit set.root

/-- Editing at the length of a listing's first half edits the element after it. -/
theorem modifyAt_match {set : OSet α} {before after : List α} {elem : α}
    (listed : set.toList = before ++ elem :: after) (edit : α → α) :
    (set.modifyAt before.length edit).toList = before ++ edit elem :: after := by
  rw [toList_modifyAt, listed]
  clear listed
  induction before with
  | nil => rfl
  | cons first rest inductionHypothesis =>
    simpa using inductionHypothesis

/-- Whatever the walk position is set to, the elements stay. -/
@[simp] theorem toList_withIter (set : OSet α) (position : Option Nat) :
    ({ set with iter := position } : OSet α).toList = set.toList := rfl

/-- A listing split at a key is separated by it. -/
theorem separates_split {key : α → Ordering} {before after : List α}
    (above : ∀ elem ∈ before, key elem = .gt) (below : ∀ elem ∈ after, key elem = .lt) :
    Separates key (before ++ after) := by
  refine List.pairwise_append.mpr ⟨?_, ?_, ?_⟩
  · exact List.Pairwise.imp_of_mem (fun first _ _ => .inl (above _ first))
      (List.pairwise_of_forall (R := fun _ _ => True) (fun _ _ => trivial))
  · exact List.Pairwise.imp_of_mem (fun _ second _ => .inr (below _ second))
      (List.pairwise_of_forall (R := fun _ _ => True) (fun _ _ => trivial))
  · intro first member second _
    exact .inl (above first member)

/-- A listing split around a match is separated by its key. -/
theorem separates_match {key : α → Ordering} {before after : List α} {elem : α}
    (above : ∀ other ∈ before, key other = .gt) (below : ∀ other ∈ after, key other = .lt) :
    Separates key (before ++ elem :: after) := by
  have tail : Separates key (elem :: after) := by
    refine List.pairwise_cons.mpr ⟨fun other member => .inr (below other member), ?_⟩
    exact List.Pairwise.imp_of_mem (fun _ second _ => .inr (below _ second))
      (List.pairwise_of_forall (R := fun _ _ => True) (fun _ _ => trivial))
  refine List.pairwise_append.mpr ⟨?_, tail, fun first member second _ => .inl (above first member)⟩
  exact List.Pairwise.imp_of_mem (fun first _ _ => .inl (above _ first))
    (List.pairwise_of_forall (R := fun _ _ => True) (fun _ _ => trivial))

/-- Every split of an ordered listing separates it by the key of any member. -/
theorem ordered_match {cmp : α → α → Ordering} {before after : List α} {elem : α}
    (ordered : Ordered cmp (before ++ elem :: after)) :
    (∀ other ∈ before, cmp elem other = .gt) ∧ (∀ other ∈ after, cmp elem other = .lt) := by
  obtain ⟨_, tail, across⟩ := List.pairwise_append.mp ordered
  exact ⟨fun other member => (across other member elem (by simp)).2,
    fun other member => ((List.pairwise_cons.mp tail).1 other member).1⟩

/-- A search result is an element of the set that compares equal. -/
theorem locate_sound {key : α → Ordering} {set : OSet α} {position : Nat} {found : α}
    (searched : set.locate key = some (position, found)) :
    set.toList[position]? = some found ∧ key found = .eq :=
  AvlTree.lookup_sound set.root position found searched

/-- A search result is a member that compares equal. -/
theorem lookup_sound {key : α → Ordering} {set : OSet α} {found : α}
    (searched : set.lookup key = some found) : found ∈ set.toList ∧ key found = .eq := by
  obtain ⟨⟨position, elem⟩, located, rfl⟩ := Option.map_eq_some_iff.mp searched
  obtain ⟨stored, equal⟩ := locate_sound located
  exact ⟨List.mem_of_getElem? stored, equal⟩

/-- A guided search fails only when no member compares equal. -/
theorem lookup_none {key : α → Ordering} {set : OSet α} (guides : Guides key set.toList) :
    set.lookup key = none ↔ ∀ elem ∈ set.toList, key elem ≠ .eq := by
  constructor
  · intro absent
    exact AvlTree.lookup_complete set.root guides (by simpa [lookup, locate] using absent)
  · intro fresh
    cases searched : set.lookup key with
    | none => rfl
    | some found =>
      obtain ⟨member, equal⟩ := lookup_sound searched
      exact absurd equal (fresh found member)

/-- Containment is the existence of a member comparing equal. -/
theorem contains_iff {key : α → Ordering} {set : OSet α} (guides : Guides key set.toList) :
    set.contains key = true ↔ ∃ elem ∈ set.toList, key elem = .eq := by
  rw [contains, Option.isSome_iff_ne_none, ne_eq, lookup_none guides]
  push Not
  rfl

/-- A key that separates a listing with a match finds that match. -/
theorem lookup_match {key : α → Ordering} {set : OSet α} {before after : List α} {elem : α}
    (listed : set.toList = before ++ elem :: after)
    (above : ∀ other ∈ before, key other = .gt) (here : key elem = .eq)
    (below : ∀ other ∈ after, key other = .lt) : set.lookup key = some elem := by
  have separates : Separates key set.toList := listed ▸ separates_match above below
  cases searched : set.lookup key with
  | none => exact absurd here ((lookup_none separates.guides).mp searched elem (by simp [listed]))
  | some found =>
    obtain ⟨member, equal⟩ := lookup_sound searched
    rw [listed, List.mem_append, List.mem_cons] at member
    rcases member with early | rfl | late
    · simp [above found early] at equal
    · rfl
    · simp [below found late] at equal

/-- The search finds the match at its place in the listing. -/
theorem locate_match {key : α → Ordering} {set : OSet α} {before after : List α} {elem : α}
    (listed : set.toList = before ++ elem :: after)
    (above : ∀ other ∈ before, key other = .gt) (here : key elem = .eq)
    (below : ∀ other ∈ after, key other = .lt) :
    set.locate key = some (before.length, elem) := by
  obtain ⟨⟨position, found⟩, located, rfl⟩ :=
    Option.map_eq_some_iff.mp (lookup_match listed above here below)
  obtain ⟨stored, equal⟩ := locate_sound located
  rw [listed] at stored
  have isHere : position = before.length := by
    rcases Nat.lt_trichotomy position before.length with early | same | late
    · rw [List.getElem?_append_left early] at stored
      simp [above _ (List.mem_of_getElem? stored)] at equal
    · exact same
    · obtain ⟨gap, isGap⟩ := Nat.exists_eq_add_of_lt late
      rw [List.getElem?_append_right (by omega),
        show position - before.length = gap + 1 by omega, List.getElem?_cons_succ] at stored
      simp [below _ (List.mem_of_getElem? stored)] at equal
  rw [located, isHere]

/-- Inserting between the two halves of a listing split at the key. -/
theorem insert_split {key : α → Ordering} {set : OSet α} {before after : List α} (value : α)
    (listed : set.toList = before ++ after) (above : ∀ elem ∈ before, key elem = .gt)
    (below : ∀ elem ∈ after, key elem = .lt) :
    (set.insert key value).toList = before ++ value :: after ∧
      (set.insert key value).duplicate = set.duplicate := by
  have separates : Separates key set.toList := listed ▸ separates_split above below
  have fresh : ∀ elem ∈ set.toList, key elem ≠ .eq := by
    intro elem member
    rw [listed, List.mem_append] at member
    rcases member with early | late
    · simp [above elem early]
    · simp [below elem late]
  have absent : set.contains key = false := by
    rw [contains, (lookup_none separates.guides).mpr fresh]
    rfl
  have early : before.filter (key · = .gt) = before ∧ before.filter (key · = .lt) = [] := by
    constructor
    · simpa [List.filter_eq_self] using above
    · rw [List.filter_eq_nil_iff]
      intro elem member
      simp [above elem member]
  have late : after.filter (key · = .gt) = [] ∧ after.filter (key · = .lt) = after := by
    constructor
    · rw [List.filter_eq_nil_iff]
      intro elem member
      simp [below elem member]
    · simpa [List.filter_eq_self] using below
  have rootListed : set.root.toList = before ++ after := listed
  constructor
  · simp only [OSet.insert, absent, Bool.false_eq_true, if_false, toList]
    rw [AvlTree.insert_toList value set.root separates fresh, rootListed]
    simp [early, late]
  · simp [OSet.insert, absent]

/-- A guided search key that matches nothing splits the listing. -/
theorem exists_split {key : α → Ordering} {elems : List α} (guides : Guides key elems)
    (fresh : ∀ elem ∈ elems, key elem ≠ .eq) :
    ∃ before after, elems = before ++ after ∧ (∀ elem ∈ before, key elem = .gt) ∧
      ∀ elem ∈ after, key elem = .lt := by
  induction elems with
  | nil => exact ⟨[], [], rfl, by simp, by simp⟩
  | cons first rest inductionHypothesis =>
    obtain ⟨fromFirst, restGuides⟩ := List.pairwise_cons.mp guides
    cases compared : key first with
    | lt =>
      refine ⟨[], first :: rest, rfl, by simp, ?_⟩
      intro elem member
      rcases List.mem_cons.mp member with rfl | later
      · exact compared
      · exact (fromFirst elem later).1 compared
    | eq => exact absurd compared (fresh first (by simp))
    | gt =>
      obtain ⟨before, after, rfl, above, below⟩ :=
        inductionHypothesis restGuides (fun elem member => fresh elem (by simp [member]))
      refine ⟨first :: before, after, rfl, ?_, below⟩
      intro elem member
      rcases List.mem_cons.mp member with rfl | later
      · exact compared
      · exact above elem later

/-- A guided insertion without a match adds the element and fails no assertion. -/
theorem insert_fresh {key : α → Ordering} {set : OSet α} (value : α)
    (guides : Guides key set.toList) (fresh : ∀ elem ∈ set.toList, key elem ≠ .eq) :
    (∀ elem, elem ∈ (set.insert key value).toList ↔ elem = value ∨ elem ∈ set.toList) ∧
      (set.insert key value).duplicate = set.duplicate := by
  obtain ⟨before, after, listed, above, below⟩ := exists_split guides fresh
  obtain ⟨inserted, flag⟩ := insert_split value listed above below
  refine ⟨fun elem => ?_, flag⟩
  rw [inserted, listed]
  simp only [List.mem_append, List.mem_cons]
  tauto

/-- Inserting an element above all others appends it. -/
theorem insert_last {key : α → Ordering} {set : OSet α} (value : α)
    (above : ∀ elem ∈ set.toList, key elem = .gt) :
    (set.insert key value).toList = set.toList ++ [value] ∧
      (set.insert key value).duplicate = set.duplicate :=
  insert_split value (List.append_nil _).symm above (by simp)

/-- Removing the match of a separating key closes the gap. -/
theorem remove_match {cmp : α → α → Ordering} {key : α → Ordering} {set : OSet α}
    {before after : List α} {elem : α} (listed : set.toList = before ++ elem :: after)
    (ordered : Ordered cmp set.toList) (reflexive : cmp elem elem = .eq)
    (found : set.lookup key = some elem) :
    (set.remove cmp key).toList = before ++ after ∧
      (set.remove cmp key).duplicate = set.duplicate := by
  obtain ⟨above, below⟩ := ordered_match (listed ▸ ordered)
  have separates : Separates (cmp elem) set.root.toList :=
    (show set.root.toList = _ from listed) ▸ separates_match above below
  have rootListed : set.root.toList = before ++ elem :: after := listed
  have early : before.filter (cmp elem · ≠ .eq) = before := by
    rw [List.filter_eq_self]
    intro other member
    simp [above other member]
  have late : after.filter (cmp elem · ≠ .eq) = after := by
    rw [List.filter_eq_self]
    intro other member
    simp [below other member]
  constructor
  · simp only [OSet.remove, found, toList]
    rw [AvlTree.remove_toList set.root separates, rootListed, List.filter_append,
      List.filter_cons, early, late]
    simp [reflexive]
  · simp [OSet.remove, found]

/-- Removing what a search finds closes the gap it leaves in an ordered listing. -/
theorem remove_found {cmp : α → α → Ordering} {key : α → Ordering} {set : OSet α} {found : α}
    (ordered : Ordered cmp set.toList) (reflexive : cmp found found = .eq)
    (searched : set.lookup key = some found) :
    ∃ before after, set.toList = before ++ found :: after ∧
      (set.remove cmp key).toList = before ++ after ∧
      (set.remove cmp key).duplicate = set.duplicate := by
  obtain ⟨before, after, listed⟩ := List.append_of_mem (lookup_sound searched).1
  exact ⟨before, after, listed, remove_match listed ordered reflexive searched⟩

/-- An edit through a found pointer edits the element that was found. -/
theorem update_found {key : α → Ordering} {set : OSet α} {found : α}
    (searched : set.lookup key = some found) :
    ∃ before after, set.toList = before ++ found :: after ∧
      ∀ edit, (set.update key edit).toList = before ++ edit found :: after := by
  unfold OSet.lookup at searched
  cases located : set.locate key with
  | none => simp [located] at searched
  | some result =>
    obtain ⟨position, elem⟩ := result
    obtain rfl : elem = found := by simpa [located] using searched
    obtain ⟨stored, _⟩ := locate_sound located
    obtain ⟨inside, value⟩ := List.getElem?_eq_some_iff.mp stored
    have listed : set.toList = set.toList.take position ++
        elem :: set.toList.drop (position + 1) := by
      rw [← value, List.getElem_cons_drop, List.take_append_drop]
    refine ⟨_, _, listed, fun edit => ?_⟩
    have short : (set.toList.take position).length = position := by
      simp
      omega
    have edited := modifyAt_match listed edit
    rw [short] at edited
    simp only [OSet.update, located]
    exact edited

/-- A failed insertion stays recorded. -/
theorem insert_flagged {key : α → Ordering} (value : α) (set : OSet α)
    (flagged : set.duplicate = true) : (set.insert key value).duplicate = true := by
  unfold OSet.insert
  split
  · rfl
  · exact flagged

/-- A removal inserts nothing, so it fails no assertion. -/
theorem remove_duplicate (cmp : α → α → Ordering) (key : α → Ordering) (set : OSet α) :
    (set.remove cmp key).duplicate = set.duplicate := by
  unfold OSet.remove
  split <;> rfl

/-- Nor does an edit. -/
theorem update_duplicate (key : α → Ordering) (edit : α → α) (set : OSet α) :
    (set.update key edit).duplicate = set.duplicate := by
  unfold OSet.update
  split <;> rfl

/-- What the walk yields is the element at its position. -/
theorem next_listed {set walked : OSet α} {position : Nat} {elem : α}
    (found : set.next = some (position, elem, walked)) :
    ∃ before after, set.toList = before ++ elem :: after ∧ before.length = position ∧
      walked = { set with iter := some (position + 1) } := by
  unfold OSet.next at found
  split at found
  · cases found
  · split at found
    · cases found
    · next stored =>
      cases found
      obtain ⟨inside, value⟩ := List.getElem?_eq_some_iff.mp stored
      refine ⟨set.toList.take position, set.toList.drop (position + 1), ?_, ?_, rfl⟩
      · rw [← value, List.getElem_cons_drop, List.take_append_drop]
      · rw [List.length_take]
        omega

/-- A step is made from the position that it yields. -/
theorem next_iter {set walked : OSet α} {position : Nat} {elem : α}
    (found : set.next = some (position, elem, walked)) : set.iter = some position := by
  unfold OSet.next at found
  split at found
  · cases found
  · next walk =>
    split at found
    · cases found
    · cases found
      exact walk

/-- A removal discards the walk. -/
theorem remove_discards {cmp : α → α → Ordering} {key : α → Ordering} {set : OSet α} {found : α}
    (searched : set.lookup key = some found) : (set.remove cmp key).iter = none := by
  simp [OSet.remove, searched]

/-- Resuming at a key that splits the listing skips exactly its first half. -/
theorem resetIterAt_split {key : α → Ordering} {set : OSet α} {before after : List α}
    (listed : set.toList = before ++ after) (above : ∀ elem ∈ before, key elem = .gt)
    (separates : Separates key set.toList) (stop : ∀ elem ∈ after, key elem ≠ .gt) :
    (set.resetIterAt key).iter = some before.length := by
  have rootListed : set.root.toList = before ++ after := listed
  have early : before.filter (key · = .gt) = before := by
    simpa [List.filter_eq_self] using above
  have late : after.filter (key · = .gt) = [] := by
    rw [List.filter_eq_nil_iff]
    intro elem member
    simpa using stop elem member
  simp only [resetIterAt]
  rw [AvlTree.seek_eq set.root separates, rootListed]
  simp [early, late]

/-- Removing the element under the walk resumes the walk at the one that follows. -/
theorem remove_resume {cmp : α → α → Ordering} {set : OSet α} {before after : List α} {elem : α}
    (listed : set.toList = before ++ elem :: after) (ordered : Ordered cmp set.toList)
    (reflexive : cmp elem elem = .eq) :
    ((set.remove cmp (cmp elem)).resetIterAt (cmp elem)).toList = before ++ after ∧
      ((set.remove cmp (cmp elem)).resetIterAt (cmp elem)).iter = some before.length ∧
      ((set.remove cmp (cmp elem)).resetIterAt (cmp elem)).duplicate = set.duplicate := by
  obtain ⟨above, below⟩ := ordered_match (listed ▸ ordered)
  obtain ⟨removed, flag⟩ := remove_match listed ordered reflexive
    (lookup_match listed above reflexive below)
  refine ⟨removed, ?_, flag⟩
  exact resetIterAt_split removed above (removed ▸ separates_split above below)
    (fun other member => by simp [below other member])

/-- A walk yields the element at its position. -/
theorem next_some {set : OSet α} {before after : List α} {elem : α}
    (listed : set.toList = before ++ elem :: after) (walk : set.iter = some before.length) :
    set.next = some (before.length, elem, { set with iter := some (before.length + 1) }) := by
  simp [OSet.next, walk, listed]

/-- A walk past the last element yields nothing. -/
theorem next_end {set : OSet α} (walk : set.iter = some set.toList.length) : set.next = none := by
  simp [OSet.next, walk]

/-- A discarded walk yields nothing. -/
theorem next_discarded {set : OSet α} (walk : set.iter = none) : set.next = none := by
  simp [OSet.next, walk]

end OrderedSet
