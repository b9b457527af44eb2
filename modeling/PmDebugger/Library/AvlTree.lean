import Mathlib.Data.List.Basic
import Mathlib.Tactic.Common

/-!
# Height-balanced search trees

The tree is searched by a comparison of one fixed key with each element, so no
order on the element type itself is required. Insertion and removal carry a
Boolean that tells the caller whether the subtree grew or shrank, and rebalance
by single and double swings.

The proofs concern the in-order listing only. Balance bookkeeping decides which
element a search meets first; it never decides which elements are present. The
listing laws therefore need no balance invariant, only that the comparison
guides the search through the listing.
-/

namespace AvlTree

universe u
variable {α : Type u}

/-- A binary node stores its children, its element and its balance: the height
of the right child minus that of the left child. -/
inductive Tree (α : Type u) where
  | leaf : Tree α
  | node (left : Tree α) (elem : α) (right : Tree α) (balance : Int) : Tree α
deriving DecidableEq, Repr

namespace Tree

/-- The elements in search order. Everything that is said about a tree from the outside is said
about this list. -/
def toList : Tree α → List α
  | leaf => []
  | node left elem right _ => toList left ++ elem :: toList right

/-- Number of stored elements. It is counted anew each time. -/
def size : Tree α → Nat
  | leaf => 0
  | node left _ right _ => size left + 1 + size right

/-- The stored balance; an absent child reads as balanced. It is the height on the right less
the height on the left. -/
def balance : Tree α → Int
  | leaf => 0
  | node _ _ _ value => value

/-- Overwrite the stored balance of the root. The empty tree has none to overwrite. -/
def setBalance (value : Int) : Tree α → Tree α
  | leaf => leaf
  | node left elem right _ => node left elem right value

/-- Swing to the left, without balance maintenance. The right child becomes the root; a tree
without one stays as it is. -/
def swl : Tree α → Tree α
  | node left elem (node inner top outer topBalance) value =>
      node (node left elem inner value) top outer topBalance
  | tree => tree

/-- Swing to the right, without balance maintenance. The left child becomes the root; a tree
without one stays as it is. -/
def swr : Tree α → Tree α
  | node (node outer top inner topBalance) elem right value =>
      node outer top (node inner elem right value) topBalance
  | tree => tree

/-- Balance maintenance after a double swing: the balance of the new root fixes
the balances of both its children. -/
def nasty : Tree α → Tree α
  | leaf => leaf
  | node left elem right value =>
      if value = -1 then node (left.setBalance 0) elem (right.setBalance 1) 0
      else if value = 1 then node (left.setBalance (-1)) elem (right.setBalance 0) 0
      else node (left.setBalance 0) elem (right.setBalance 0) 0

/-- Reset the balances of the root and its two children to the given values. A child that is
absent is left out. -/
def setBalances (root left right : Int) : Tree α → Tree α
  | leaf => leaf
  | node leftChild elem rightChild _ =>
      node (leftChild.setBalance left) elem (rightChild.setBalance right) root

/-- Rebuild a node whose left child has grown, telling whether the node grew. It leaned to the
right, or to neither side, or to the left, and only in the last case is there something to
swing. -/
def grownLeft (left : Tree α) (elem : α) (right : Tree α) (value : Int) : Tree α × Bool :=
  if value = 1 then (node left elem right 0, false)
  else if value = 0 then (node left elem right (-1), true)
  else if left.balance < 0 then
    let swung := swr (node left elem right value)
    (swung.setBalances 0 (match swung with | node outer _ _ _ => outer.balance | leaf => 0)
      0, false)
  else (nasty (swr (node (swl left) elem right value)), false)

/-- Rebuild a node whose right child has grown, telling whether the node grew. It is the mirror
image of `grownLeft`. -/
def grownRight (left : Tree α) (elem : α) (right : Tree α) (value : Int) : Tree α × Bool :=
  if value = -1 then (node left elem right 0, false)
  else if value = 0 then (node left elem right 1, true)
  else if 0 < right.balance then
    let swung := swl (node left elem right value)
    (swung.setBalances 0 0 (match swung with | node _ _ outer _ => outer.balance | leaf => 0),
      false)
  else (nasty (swl (node left elem (swr right) value)), false)

/-- Rebuild a node whose left child has shrunk, telling whether the node shrank. It leaned to
the left, or to neither side, or to the right, and only in the last case is there something to
swing. -/
def shrunkLeft (left : Tree α) (elem : α) (right : Tree α) (value : Int) : Tree α × Bool :=
  if value = -1 then (node left elem right 0, true)
  else if value = 0 then (node left elem right 1, false)
  else
    let swung := swl (node left elem right value)
    let kept := match swung with | node _ _ outer _ => outer.balance | leaf => 0
    if right.balance = 0 then (swung.setBalances (-1) 1 kept, false)
    else if right.balance = 1 then (swung.setBalances 0 0 kept, true)
    else (nasty (swl (node left elem (swr right) value)), true)

/-- Rebuild a node whose right child has shrunk, telling whether the node shrank. It is the
mirror image of `shrunkLeft`. -/
def shrunkRight (left : Tree α) (elem : α) (right : Tree α) (value : Int) : Tree α × Bool :=
  if value = 1 then (node left elem right 0, true)
  else if value = 0 then (node left elem right (-1), false)
  else
    let swung := swr (node left elem right value)
    let kept := match swung with | node outer _ _ _ => outer.balance | leaf => 0
    if left.balance = 0 then (swung.setBalances 1 kept (-1), false)
    else if left.balance = -1 then (swung.setBalances 0 kept 0, true)
    else (nasty (swr (node (swl left) elem right value)), true)

/-- Insert an element whose key compares by `key`. An element comparing equal
leaves the tree unchanged; the caller treats that case as a failure. -/
def insert (key : α → Ordering) (value : α) : Tree α → Tree α × Bool
  | leaf => (node leaf value leaf 0, true)
  | node left elem right balance =>
      match key elem with
      | .lt =>
          let (grown, taller) := insert key value left
          if taller then grownLeft grown elem right balance
          else (node grown elem right balance, false)
      | .gt =>
          let (grown, taller) := insert key value right
          if taller then grownRight left elem grown balance
          else (node left elem grown balance, false)
      | .eq => (node left elem right balance, false)

/-- Search from the root and return the position and the element of the first
match met on the way down. -/
def lookup (key : α → Ordering) : Tree α → Option (Nat × α)
  | leaf => none
  | node left elem right _ =>
      match key elem with
      | .lt => lookup key left
      | .gt => (lookup key right).map (fun found => (left.size + 1 + found.1, found.2))
      | .eq => some (left.size, elem)

/-- Position at which an in-order walk resumes for a key: at the first match met
on the way down, otherwise at the smallest greater element. -/
def seek (key : α → Ordering) : Tree α → Nat
  | leaf => 0
  | node left elem right _ =>
      match key elem with
      | .lt => seek key left
      | .gt => left.size + 1 + seek key right
      | .eq => left.size

/-- Detach the least element, telling whether the remaining tree shrank. The way down follows
the left children, and the nodes on it are rebuilt on the way back. -/
def detachMin : Tree α → Option (α × Tree α × Bool)
  | leaf => none
  | node left elem right balance =>
      match detachMin left with
      | none => some (elem, right, true)
      | some (least, rest, shorter) =>
          let (rebuilt, shrank) :=
            if shorter then shrunkLeft rest elem right balance
            else (node rest elem right balance, false)
          some (least, rebuilt, shrank)

/-- Detach the greatest element, telling whether the remaining tree shrank. The way down
follows the right children, and the nodes on it are rebuilt on the way back. -/
def detachMax : Tree α → Option (α × Tree α × Bool)
  | leaf => none
  | node left elem right balance =>
      match detachMax right with
      | none => some (elem, left, true)
      | some (greatest, rest, shorter) =>
          let (rebuilt, shrank) :=
            if shorter then shrunkRight left elem rest balance
            else (node left elem rest balance, false)
          some (greatest, rebuilt, shrank)

/-- Join the children of a removed root. The replacement comes from the left
child exactly when that child is the higher one. -/
def removeRoot (left right : Tree α) (balance : Int) : Tree α × Bool :=
  match detachMax left, detachMin right with
  | none, _ => (right, true)
  | _, none => (left, true)
  | some (greatest, leftRest, leftShorter), some (least, rightRest, rightShorter) =>
      if balance < 0 then
        if leftShorter then shrunkLeft leftRest greatest right balance
        else (node leftRest greatest right balance, false)
      else
        if rightShorter then shrunkRight left least rightRest balance
        else (node left least rightRest balance, false)

/-- Remove the first match met on the way down. Without a match the tree stays as it is. The
flag tells whether the tree shrank. -/
def remove (key : α → Ordering) : Tree α → Tree α × Bool
  | leaf => (leaf, false)
  | node left elem right balance =>
      match key elem with
      | .lt =>
          let (rest, shorter) := remove key left
          if shorter then shrunkLeft rest elem right balance
          else (node rest elem right balance, false)
      | .gt =>
          let (rest, shorter) := remove key right
          if shorter then shrunkRight left elem rest balance
          else (node left elem rest balance, false)
      | .eq => removeRoot left right balance

/-- Edit the element at one position in place. The shape is untouched, as when a
program writes through a pointer to a stored element. -/
def modifyAt (edit : α → α) : Nat → Tree α → Tree α
  | _, leaf => leaf
  | position, node left elem right balance =>
      if position < left.size then node (modifyAt edit position left) elem right balance
      else if position = left.size then node left (edit elem) right balance
      else node left elem (modifyAt edit (position - left.size - 1) right) balance

/-- Edit every element in place. The shape is untouched, whatever the edit does to the order. -/
def map (edit : α → α) : Tree α → Tree α
  | leaf => leaf
  | node left elem right balance => node (map edit left) (edit elem) (map edit right) balance

end Tree

open AvlTree.Tree

/-- A comparison guides a search when the listing is first above the key, then
at it, then below it. -/
def Guides (key : α → Ordering) (elems : List α) : Prop :=
  elems.Pairwise (fun first second =>
    (key first = .lt → key second = .lt) ∧ (key second = .gt → key first = .gt))

/-- A comparison separates a listing when in addition at most one element compares equal. Then
the position of a match does not depend on the shape of the tree. -/
def Separates (key : α → Ordering) (elems : List α) : Prop :=
  elems.Pairwise (fun first second => key first = .gt ∨ key second = .lt)

/-- Separation is the stronger of the two conditions. -/
theorem Separates.guides {key : α → Ordering} {elems : List α}
    (separates : Separates key elems) : Guides key elems := by
  refine List.Pairwise.imp ?_ separates
  intro first second apart
  rcases apart with above | below
  · exact ⟨fun absurd => by simp [above] at absurd, fun _ => above⟩
  · exact ⟨fun _ => below, fun absurd => by simp [below] at absurd⟩

/-- The size of a tree is the number of its elements. -/
@[simp] theorem size_eq_length (tree : Tree α) : tree.size = tree.toList.length := by
  induction tree with
  | leaf => rfl
  | node left elem right balance leftSize rightSize =>
    simp only [size, toList, leftSize, rightSize, List.length_append, List.length_cons]
    omega

/-- A balance is not listed. -/
@[simp] theorem toList_setBalance (value : Int) (tree : Tree α) :
    (tree.setBalance value).toList = tree.toList := by
  cases tree <;> rfl

/-- Nor are those of three nodes. -/
@[simp] theorem toList_setBalances (root left right : Int) (tree : Tree α) :
    (tree.setBalances root left right).toList = tree.toList := by
  cases tree <;> simp [setBalances, toList]

/-- A left swing keeps the listing. -/
@[simp] theorem toList_swl (tree : Tree α) : (swl tree).toList = tree.toList := by
  cases tree with
  | leaf => rfl
  | node left elem right balance => cases right <;> simp [swl, toList]

/-- A right swing keeps the listing. -/
@[simp] theorem toList_swr (tree : Tree α) : (swr tree).toList = tree.toList := by
  cases tree with
  | leaf => rfl
  | node left elem right balance => cases left <;> simp [swr, toList]

/-- The double rotation keeps the order of the elements. -/
@[simp] theorem toList_nasty (tree : Tree α) : (nasty tree).toList = tree.toList := by
  cases tree with
  | leaf => rfl
  | node left elem right balance =>
    simp only [nasty]
    split
    · simp [toList]
    · split <;> simp [toList]

/-- The repair after an insertion on the left keeps the order of the elements. -/
@[simp] theorem toList_grownLeft (left : Tree α) (elem : α) (right : Tree α) (value : Int) :
    (grownLeft left elem right value).1.toList = left.toList ++ elem :: right.toList := by
  unfold grownLeft
  split
  · simp [toList]
  · split
    · simp [toList]
    · split <;> simp [toList]

/-- The repair after an insertion on the right keeps it. -/
@[simp] theorem toList_grownRight (left : Tree α) (elem : α) (right : Tree α) (value : Int) :
    (grownRight left elem right value).1.toList = left.toList ++ elem :: right.toList := by
  unfold grownRight
  split
  · simp [toList]
  · split
    · simp [toList]
    · split <;> simp [toList]

/-- The repair after a removal on the left keeps it. -/
@[simp] theorem toList_shrunkLeft (left : Tree α) (elem : α) (right : Tree α) (value : Int) :
    (shrunkLeft left elem right value).1.toList = left.toList ++ elem :: right.toList := by
  unfold shrunkLeft
  split
  · simp [toList]
  · split
    · simp [toList]
    · split
      · simp [toList]
      · split <;> simp [toList]

/-- The repair after a removal on the right keeps it. -/
@[simp] theorem toList_shrunkRight (left : Tree α) (elem : α) (right : Tree α) (value : Int) :
    (shrunkRight left elem right value).1.toList = left.toList ++ elem :: right.toList := by
  unfold shrunkRight
  split
  · simp [toList]
  · split
    · simp [toList]
    · split
      · simp [toList]
      · split <;> simp [toList]

/-- The edited tree lists the edited elements. -/
@[simp] theorem toList_map (edit : α → α) (tree : Tree α) :
    (tree.map edit).toList = tree.toList.map edit := by
  induction tree with
  | leaf => rfl
  | node left elem right balance leftMap rightMap =>
    simp [Tree.map, toList, leftMap, rightMap]

/-- An in-place edit lists as the same edit at the same position. -/
@[simp] theorem toList_modifyAt (edit : α → α) (position : Nat) (tree : Tree α) :
    (tree.modifyAt edit position).toList = tree.toList.modify position edit := by
  induction tree generalizing position with
  | leaf => simp [modifyAt, toList]
  | node left elem right balance leftEdit rightEdit =>
    apply List.ext_getElem?
    intro tested
    simp only [modifyAt, size_eq_length]
    split
    · next inLeft =>
      simp only [toList, leftEdit, List.getElem?_modify, List.getElem?_append, List.length_modify]
      split
      · rfl
      · next outside =>
        have other : position ≠ tested := by omega
        simp [other]
    · next notLeft =>
      split
      · next here =>
        simp only [toList, List.getElem?_modify, List.getElem?_append, here]
        split
        · next outside =>
          have other : left.toList.length ≠ tested := by omega
          simp [other]
        · next inside =>
          by_cases same : left.toList.length = tested
          · simp [same]
          · obtain ⟨offset, shifted⟩ : ∃ offset, tested - left.toList.length = offset + 1 :=
              ⟨tested - left.toList.length - 1, by omega⟩
            simp [same, shifted]
      · next notHere =>
        simp only [toList, rightEdit, List.getElem?_modify, List.getElem?_append]
        split
        · next outside =>
          have other : position ≠ tested := by omega
          simp [other]
        · next inside =>
          by_cases same : left.toList.length = tested
          · have other : position ≠ tested := by omega
            simp [same, other]
          · obtain ⟨offset, shifted⟩ : ∃ offset, tested - left.toList.length = offset + 1 :=
              ⟨tested - left.toList.length - 1, by omega⟩
            have positions : position - left.toList.length - 1 = offset ↔ position = tested := by
              omega
            simp [shifted, List.getElem?_modify, positions]

/-- Detaching the least element splits it off the front of the listing. -/
theorem detachMin_toList (tree : Tree α) :
    (detachMin tree = none ∧ tree = leaf) ∨
      ∃ least rest shorter, detachMin tree = some (least, rest, shorter) ∧
        tree.toList = least :: rest.toList := by
  induction tree with
  | leaf => exact .inl ⟨rfl, rfl⟩
  | node left elem right balance leftDetached _ =>
    right
    rcases leftDetached with ⟨none, rfl⟩ | ⟨least, rest, shorter, detached, listed⟩
    · exact ⟨elem, right, true, by simp [detachMin], by simp [toList]⟩
    · refine ⟨least, _, _, by simp only [detachMin, detached]; rfl, ?_⟩
      cases shorter <;> simp [toList, listed]

/-- Detaching the greatest element splits it off the end of the listing. -/
theorem detachMax_toList (tree : Tree α) :
    (detachMax tree = none ∧ tree = leaf) ∨
      ∃ greatest rest shorter, detachMax tree = some (greatest, rest, shorter) ∧
        tree.toList = rest.toList ++ [greatest] := by
  induction tree with
  | leaf => exact .inl ⟨rfl, rfl⟩
  | node left elem right balance _ rightDetached =>
    right
    rcases rightDetached with ⟨none, rfl⟩ | ⟨greatest, rest, shorter, detached, listed⟩
    · exact ⟨elem, left, true, by simp [detachMax], by simp [toList]⟩
    · refine ⟨greatest, _, _, by simp only [detachMax, detached]; rfl, ?_⟩
      cases shorter <;> simp [toList, listed]

/-- Removing a root lists the left child and then the right child. -/
theorem removeRoot_toList (left right : Tree α) (balance : Int) :
    (removeRoot left right balance).1.toList = left.toList ++ right.toList := by
  rcases detachMax_toList left with ⟨none, rfl⟩ | ⟨greatest, leftRest, leftShorter,
      detached, listed⟩
  · simp [removeRoot, none, toList]
  · rcases detachMin_toList right with ⟨none, rfl⟩ | ⟨least, rightRest, rightShorter, least',
        listed'⟩
    · simp [removeRoot, detached, none, toList]
    · simp only [removeRoot, detached, least']
      split
      · cases leftShorter <;> simp [toList, listed]
      · cases rightShorter <;> simp [toList, listed']

section Search

variable {key : α → Ordering}

/-- Separation of a node's listing separates both children and places the root
between them. -/
theorem separates_node {left right : Tree α} {elem : α} {balance : Int}
    (separates : Separates key (node left elem right balance).toList) :
    Separates key left.toList ∧ Separates key right.toList ∧
      (∀ before ∈ left.toList, key before = .gt ∨ key elem = .lt) ∧
      (∀ after ∈ right.toList, key elem = .gt ∨ key after = .lt) ∧
      (∀ before ∈ left.toList, ∀ after ∈ right.toList, key before = .gt ∨ key after = .lt) := by
  simp only [Separates, toList, List.pairwise_append, List.pairwise_cons,
    List.mem_cons] at separates
  obtain ⟨first, ⟨middle, last⟩, across⟩ := separates
  exact ⟨first, last, fun before member => across before member elem (.inl rfl), middle,
    fun before member after member' => across before member after (.inr member')⟩

/-- Insertion of a fresh key places the element between the smaller and the
greater elements and keeps the order of both. -/
theorem insert_toList (value : α) (tree : Tree α) (separates : Separates key tree.toList)
    (fresh : ∀ elem ∈ tree.toList, key elem ≠ .eq) :
    (tree.insert key value).1.toList =
      tree.toList.filter (key · = .gt) ++ value :: tree.toList.filter (key · = .lt) := by
  induction tree with
  | leaf => simp [Tree.insert, toList]
  | node left elem right balance leftInsert rightInsert =>
    obtain ⟨leftSeparates, rightSeparates, toRoot, fromRoot, _⟩ := separates_node separates
    have leftFresh : ∀ elem ∈ left.toList, key elem ≠ .eq :=
      fun elem member => fresh elem (by simp [toList, member])
    have rightFresh : ∀ elem ∈ right.toList, key elem ≠ .eq :=
      fun elem member => fresh elem (by simp [toList, member])
    cases compared : key elem with
    | lt =>
      have below : ∀ after ∈ right.toList, key after = .lt :=
        fun after member => (fromRoot after member).resolve_left (by simp [compared])
      have noneAbove : right.toList.filter (key · = .gt) = [] := by
        simpa [List.filter_eq_nil_iff] using fun after member => by simp [below after member]
      have allBelow : right.toList.filter (key · = .lt) = right.toList := by
        simpa [List.filter_eq_self] using below
      have listed : (Tree.insert key value left).1.toList ++ elem :: right.toList =
          (node left elem right balance).toList.filter (key · = .gt) ++
            value :: (node left elem right balance).toList.filter (key · = .lt) := by
        simp [leftInsert leftSeparates leftFresh, toList, compared, noneAbove, allBelow]
      simp only [Tree.insert, compared]
      split
      · simpa using listed
      · simpa [toList] using listed
    | gt =>
      have above : ∀ before ∈ left.toList, key before = .gt :=
        fun before member => (toRoot before member).resolve_right (by simp [compared])
      have noneBelow : left.toList.filter (key · = .lt) = [] := by
        simpa [List.filter_eq_nil_iff] using fun before member => by simp [above before member]
      have allAbove : left.toList.filter (key · = .gt) = left.toList := by
        simpa [List.filter_eq_self] using above
      have listed : left.toList ++ elem :: (Tree.insert key value right).1.toList =
          (node left elem right balance).toList.filter (key · = .gt) ++
            value :: (node left elem right balance).toList.filter (key · = .lt) := by
        simp [rightInsert rightSeparates rightFresh, toList, compared, noneBelow, allAbove]
      simp only [Tree.insert, compared]
      split
      · simpa using listed
      · simpa [toList] using listed
    | eq => exact absurd compared (fresh elem (by simp [toList]))

/-- Removal drops exactly the elements that compare equal. -/
theorem remove_toList (tree : Tree α) (separates : Separates key tree.toList) :
    (tree.remove key).1.toList = tree.toList.filter (key · ≠ .eq) := by
  induction tree with
  | leaf => rfl
  | node left elem right balance leftRemove rightRemove =>
    obtain ⟨leftSeparates, rightSeparates, toRoot, fromRoot, _⟩ := separates_node separates
    have keepsLeft (differs : key elem ≠ .lt) :
        left.toList.filter (key · ≠ .eq) = left.toList := by
      rw [List.filter_eq_self]
      intro before member
      simp [(toRoot before member).resolve_right differs]
    have keepsRight (differs : key elem ≠ .gt) :
        right.toList.filter (key · ≠ .eq) = right.toList := by
      rw [List.filter_eq_self]
      intro after member
      simp [(fromRoot after member).resolve_left differs]
    cases compared : key elem with
    | lt =>
      have kept := keepsRight (by simp [compared])
      have listed : (Tree.remove key left).1.toList ++ elem :: right.toList =
          (node left elem right balance).toList.filter (key · ≠ .eq) := by
        rw [leftRemove leftSeparates]
        simp only [toList, List.filter_append, List.filter_cons, compared, kept]
        simp
      simp only [Tree.remove, compared]
      split
      · simpa using listed
      · simpa [toList] using listed
    | gt =>
      have kept := keepsLeft (by simp [compared])
      have listed : left.toList ++ elem :: (Tree.remove key right).1.toList =
          (node left elem right balance).toList.filter (key · ≠ .eq) := by
        rw [rightRemove rightSeparates]
        simp only [toList, List.filter_append, List.filter_cons, compared, kept]
        simp
      simp only [Tree.remove, compared]
      split
      · simpa using listed
      · simpa [toList] using listed
    | eq =>
      simp only [Tree.remove, compared, removeRoot_toList, toList, List.filter_append,
        List.filter_cons, keepsLeft (by simp [compared]), keepsRight (by simp [compared])]
      simp

/-- A search result is stored at the returned position and compares equal. -/
theorem lookup_sound (tree : Tree α) (position : Nat) (found : α)
    (searched : tree.lookup key = some (position, found)) :
    tree.toList[position]? = some found ∧ key found = .eq := by
  induction tree generalizing position with
  | leaf => simp [Tree.lookup] at searched
  | node left elem right balance leftSearch rightSearch =>
    cases compared : key elem with
    | lt =>
      simp only [Tree.lookup, compared] at searched
      obtain ⟨stored, equal⟩ := leftSearch position searched
      refine ⟨?_, equal⟩
      obtain ⟨inside, _⟩ := List.getElem?_eq_some_iff.mp stored
      simpa [toList, List.getElem?_append_left inside] using stored
    | gt =>
      simp only [Tree.lookup, compared, Option.map_eq_some_iff] at searched
      obtain ⟨⟨offset, result⟩, inner, same⟩ := searched
      obtain ⟨rfl, rfl⟩ := Prod.mk.inj same
      obtain ⟨stored, equal⟩ := rightSearch offset inner
      refine ⟨?_, equal⟩
      have shifted : left.toList.length + 1 + offset - left.toList.length = offset + 1 := by omega
      rw [toList, size_eq_length, List.getElem?_append_right (by omega), shifted,
        List.getElem?_cons_succ]
      exact stored
    | eq =>
      simp only [Tree.lookup, compared, Option.some.injEq, Prod.mk.injEq] at searched
      obtain ⟨rfl, rfl⟩ := searched
      exact ⟨by simp [toList], compared⟩

/-- A guided search fails only when nothing compares equal. -/
theorem lookup_complete (tree : Tree α) (guides : Guides key tree.toList)
    (searched : tree.lookup key = none) : ∀ elem ∈ tree.toList, key elem ≠ .eq := by
  induction tree with
  | leaf => simp [toList]
  | node left elem right balance leftSearch rightSearch =>
    simp only [Guides, toList, List.pairwise_append, List.pairwise_cons, List.mem_cons] at guides
    obtain ⟨leftGuides, ⟨fromRoot, rightGuides⟩, across⟩ := guides
    intro tested member
    simp only [toList, List.mem_append, List.mem_cons] at member
    cases compared : key elem with
    | lt =>
      simp only [Tree.lookup, compared] at searched
      rcases member with inLeft | rfl | inRight
      · exact leftSearch leftGuides searched tested inLeft
      · simp [compared]
      · simp [(fromRoot tested inRight).1 compared]
    | gt =>
      simp only [Tree.lookup, compared, Option.map_eq_none_iff] at searched
      rcases member with inLeft | rfl | inRight
      · simp [(across tested inLeft elem (.inl rfl)).2 compared]
      · simp [compared]
      · exact rightSearch rightGuides searched tested inRight
    | eq => simp [Tree.lookup, compared] at searched

/-- A walk resumes after exactly the elements before the key. -/
theorem seek_eq (tree : Tree α) (separates : Separates key tree.toList) :
    tree.seek key = (tree.toList.filter (key · = .gt)).length := by
  induction tree with
  | leaf => rfl
  | node left elem right balance leftSeek rightSeek =>
    obtain ⟨leftSeparates, rightSeparates, toRoot, fromRoot, _⟩ := separates_node separates
    have emptyRight (differs : key elem ≠ .gt) : right.toList.filter (key · = .gt) = [] := by
      rw [List.filter_eq_nil_iff]
      intro after member
      simp [(fromRoot after member).resolve_left differs]
    have fullLeft (differs : key elem ≠ .lt) :
        left.toList.filter (key · = .gt) = left.toList := by
      rw [List.filter_eq_self]
      intro before member
      simp [(toRoot before member).resolve_right differs]
    cases compared : key elem with
    | lt => simp [Tree.seek, toList, compared, leftSeek leftSeparates,
        emptyRight (by simp [compared])]
    | gt =>
      simp only [Tree.seek, toList, compared, rightSeek rightSeparates, size_eq_length,
        List.filter_append, List.filter_cons, fullLeft (by simp [compared]),
        List.length_append]
      simp only [decide_true, if_true, List.length_cons]
      omega
    | eq => simp [Tree.seek, toList, compared, emptyRight (by simp [compared]),
        fullLeft (by simp [compared])]

end Search

end AvlTree
