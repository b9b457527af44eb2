import Mathlib.Data.Nat.Fib.Basic
import PmDebugger.Library.AvlTree

/-!
# Balance of height-balanced trees

A tree is balanced when every node stores the difference of the heights of its children and that
difference is at most one. Insertion and removal keep this, and the Boolean that they return tells
exactly whether the height has changed. Edits in place do not touch it.

A subtree that has grown is a single node or leans to one side. The swings of an insertion rest on
this: a node that leans to one side already, and grows on it, finds a child that leans.

A balanced tree of some height has at least as many elements as a Fibonacci tree, so a tree with few
elements is low.
-/

namespace AvlTree

universe u
variable {α : Type u}

namespace Tree

/-- The number of nodes on a longest way down. The empty tree has height zero. -/
def height : Tree α → Nat
  | leaf => 0
  | node left _ right _ => max (height left) (height right) + 1

/-- Every node stores the difference of the heights of its children, and it is at most one. -/
def Balanced : Tree α → Prop
  | leaf => True
  | node left _ right value =>
      Balanced left ∧ Balanced right ∧ (height right : Int) - height left = value ∧
        -1 ≤ value ∧ value ≤ 1

/-- A single node, or one that leans to one side. Only such trees can be what an insertion has
made higher. -/
def Leans (tree : Tree α) : Prop := tree.height ≤ 1 ∨ tree.balance ≠ 0

end Tree

open AvlTree.Tree

/-- The empty tree has no height. -/
@[simp] theorem height_leaf : (leaf : Tree α).height = 0 := rfl

/-- A node is one higher than the higher of its subtrees. -/
@[simp] theorem height_node (left : Tree α) (elem : α) (right : Tree α) (value : Int) :
    (node left elem right value).height = max left.height right.height + 1 := rfl

/-- The empty tree is balanced. -/
@[simp] theorem balanced_leaf : (leaf : Tree α).Balanced := trivial

/-- A node is balanced if its subtrees are and its balance is the difference of their heights,
one at most. -/
@[simp] theorem balanced_node {left : Tree α} {elem : α} {right : Tree α} {value : Int} :
    (node left elem right value).Balanced ↔
      left.Balanced ∧ right.Balanced ∧ (right.height : Int) - left.height = value ∧
        -1 ≤ value ∧ value ≤ 1 := Iff.rfl

/-- The balance of a node is the one stored in it. -/
@[simp] theorem balance_node (left : Tree α) (elem : α) (right : Tree α) (value : Int) :
    (node left elem right value).balance = value := rfl

/-- To set the balance of a node changes nothing else. -/
@[simp] theorem setBalance_node (left : Tree α) (elem : α) (right : Tree α) (value other : Int) :
    (node left elem right value).setBalance other = node left elem right other := rfl

/-- To set the balance that a tree has changes nothing. -/
@[simp] theorem setBalance_balance (tree : Tree α) : tree.setBalance tree.balance = tree := by
  cases tree <;> rfl

/-- A tree of some height is a node. -/
theorem exists_node {tree : Tree α} (high : 0 < tree.height) :
    ∃ left elem right value, tree = node left elem right value := by
  cases tree with
  | leaf => exact absurd high (Nat.lt_irrefl 0)
  | node left elem right value => exact ⟨left, elem, right, value, rfl⟩

/-- What an enlarged tree is: balanced, as high as its flag says, and leaning where it grew. -/
structure Grew (tree : Tree α) (old : Nat) (taller : Bool) : Prop where
  balanced : tree.Balanced
  height : tree.height = old + taller.toNat
  leans : taller = true → tree.Leans

/-- What a reduced tree is: balanced, and as low as its flag says. A tree loses at most one of
its height. -/
structure Shrank (tree : Tree α) (old : Nat) (shorter : Bool) : Prop where
  balanced : tree.Balanced
  height : tree.height + shorter.toNat = old

section Rebuilt

variable {left right : Tree α} {elem : α} {value : Int} {old : Nat}

/-- A node whose left child has grown from a given height. The stored balance is the one from
before. -/
structure GrownLeft (left right : Tree α) (value : Int) (old : Nat) : Prop where
  leftBalanced : left.Balanced
  rightBalanced : right.Balanced
  leans : left.Leans
  grown : left.height = old + 1
  stored : (right.height : Int) - old = value
  low : -1 ≤ value
  high : value ≤ 1

/-- A node whose right child has grown from a given height. The stored balance is the one from
before. -/
structure GrownRight (left right : Tree α) (value : Int) (old : Nat) : Prop where
  leftBalanced : left.Balanced
  rightBalanced : right.Balanced
  leans : right.Leans
  grown : right.height = old + 1
  stored : (old : Int) - left.height = value
  low : -1 ≤ value
  high : value ≤ 1

/-- A node whose left child has shrunk from a given height. The stored balance is the one from
before. -/
structure ShrunkLeft (left right : Tree α) (value : Int) (old : Nat) : Prop where
  leftBalanced : left.Balanced
  rightBalanced : right.Balanced
  shrunk : left.height + 1 = old
  stored : (right.height : Int) - old = value
  low : -1 ≤ value
  high : value ≤ 1

/-- A node whose right child has shrunk from a given height. The stored balance is the one from
before. -/
structure ShrunkRight (left right : Tree α) (value : Int) (old : Nat) : Prop where
  leftBalanced : left.Balanced
  rightBalanced : right.Balanced
  shrunk : right.height + 1 = old
  stored : (old : Int) - left.height = value
  low : -1 ≤ value
  high : value ≤ 1

/-- A node that grows on the side to which it leans already has a child there, and that child leans
outwards or has a grandchild to swing on. -/
theorem GrownLeft.cases (grown : GrownLeft left right value old) :
    value = 1 ∨ value = 0 ∨ value = -1 ∧ ∃ outer top inner topValue,
      left = node outer top inner topValue ∧
        (topValue = -1 ∨ topValue = 1 ∧ ∃ near middle far middleValue,
          inner = node near middle far middleValue) := by
  obtain ⟨balanced, _, leans, height, stored, low, high⟩ := grown
  by_cases one : value = 1
  · exact .inl one
  by_cases zero : value = 0
  · exact .inr (.inl zero)
  obtain ⟨outer, top, inner, topValue, rfl⟩ := @exists_node _ left (by omega)
  simp only [balanced_node, height_node, Leans, balance_node] at *
  refine .inr (.inr ⟨by omega, outer, top, inner, topValue, rfl, ?_⟩)
  by_cases outwards : topValue = -1
  · exact .inl outwards
  · exact .inr ⟨by omega, @exists_node _ inner (by omega)⟩

/-- The shapes that a tree can have after an insertion on the right, with the nodes that a
rotation moves. -/
theorem GrownRight.cases (grown : GrownRight left right value old) :
    value = -1 ∨ value = 0 ∨ value = 1 ∧ ∃ inner top outer topValue,
      right = node inner top outer topValue ∧
        (topValue = 1 ∨ topValue = -1 ∧ ∃ far middle near middleValue,
          inner = node far middle near middleValue) := by
  obtain ⟨_, balanced, leans, height, stored, low, high⟩ := grown
  by_cases one : value = -1
  · exact .inl one
  by_cases zero : value = 0
  · exact .inr (.inl zero)
  obtain ⟨inner, top, outer, topValue, rfl⟩ := @exists_node _ right (by omega)
  simp only [balanced_node, height_node, Leans, balance_node] at *
  refine .inr (.inr ⟨by omega, inner, top, outer, topValue, rfl, ?_⟩)
  by_cases outwards : topValue = 1
  · exact .inl outwards
  · exact .inr ⟨by omega, @exists_node _ inner (by omega)⟩

/-- A node that shrinks on the side from which it leans away has a child on the other side, and that
child is level, leans outwards or has a grandchild to swing on. -/
theorem ShrunkLeft.cases (shrunk : ShrunkLeft left right value old) :
    value = -1 ∨ value = 0 ∨ value = 1 ∧ ∃ inner top outer topValue,
      right = node inner top outer topValue ∧
        (topValue = 0 ∨ topValue = 1 ∨ topValue = -1 ∧ ∃ far middle near middleValue,
          inner = node far middle near middleValue) := by
  obtain ⟨_, balanced, height, stored, low, high⟩ := shrunk
  by_cases one : value = -1
  · exact .inl one
  by_cases zero : value = 0
  · exact .inr (.inl zero)
  obtain ⟨inner, top, outer, topValue, rfl⟩ := @exists_node _ right (by omega)
  simp only [balanced_node, height_node] at *
  refine .inr (.inr ⟨by omega, inner, top, outer, topValue, rfl, ?_⟩)
  by_cases level : topValue = 0
  · exact .inl level
  by_cases outwards : topValue = 1
  · exact .inr (.inl outwards)
  · exact .inr (.inr ⟨by omega, @exists_node _ inner (by omega)⟩)

/-- The shapes that a tree can have after a removal on the right, with the nodes that a
rotation moves. -/
theorem ShrunkRight.cases (shrunk : ShrunkRight left right value old) :
    value = 1 ∨ value = 0 ∨ value = -1 ∧ ∃ outer top inner topValue,
      left = node outer top inner topValue ∧
        (topValue = 0 ∨ topValue = -1 ∨ topValue = 1 ∧ ∃ near middle far middleValue,
          inner = node near middle far middleValue) := by
  obtain ⟨balanced, _, height, stored, low, high⟩ := shrunk
  by_cases one : value = 1
  · exact .inl one
  by_cases zero : value = 0
  · exact .inr (.inl zero)
  obtain ⟨outer, top, inner, topValue, rfl⟩ := @exists_node _ left (by omega)
  simp only [balanced_node, height_node] at *
  refine .inr (.inr ⟨by omega, outer, top, inner, topValue, rfl, ?_⟩)
  by_cases level : topValue = 0
  · exact .inl level
  by_cases outwards : topValue = -1
  · exact .inr (.inl outwards)
  · exact .inr (.inr ⟨by omega, @exists_node _ inner (by omega)⟩)

/-- A node whose left child has grown is rebuilt. -/
theorem grownLeft_grew (elem : α) (grown : GrownLeft left right value old) :
    Grew (grownLeft left elem right value).1 (max old right.height + 1)
      (grownLeft left elem right value).2 := by
  have shape := grown.cases
  obtain ⟨leftBalanced, rightBalanced, leans, height, stored, low, high⟩ := grown
  rcases shape with rfl | rfl | ⟨rfl, outer, top, inner, topValue, rfl, shape⟩
  · constructor
    · simp [grownLeft, leftBalanced, rightBalanced]
      omega
    · simp [grownLeft]
      omega
    · simp [grownLeft]
  · constructor
    · simp [grownLeft, leftBalanced, rightBalanced]
      omega
    · simp [grownLeft]
      omega
    · simp [grownLeft, Leans]
  · rcases shape with rfl | ⟨rfl, near, middle, far, middleValue, rfl⟩
    · simp only [balanced_node, height_node] at leftBalanced height
      constructor
      · simp [grownLeft, swr, setBalances, leftBalanced, rightBalanced]
        omega
      · simp [grownLeft, swr, setBalances]
        omega
      · simp [grownLeft]
    · simp only [balanced_node, height_node] at leftBalanced height
      have middleCases : middleValue = -1 ∨ middleValue = 0 ∨ middleValue = 1 := by omega
      rcases middleCases with rfl | rfl | rfl
      all_goals
        constructor
        · simp [grownLeft, swl, swr, nasty, leftBalanced, rightBalanced]
          omega
        · simp [grownLeft, swl, swr, nasty]
          omega
        · simp [grownLeft]

/-- The repair after an insertion on the right gives a balanced tree, and its flag tells
whether the tree is higher than before. -/
theorem grownRight_grew (elem : α) (grown : GrownRight left right value old) :
    Grew (grownRight left elem right value).1 (max left.height old + 1)
      (grownRight left elem right value).2 := by
  have shape := grown.cases
  obtain ⟨leftBalanced, rightBalanced, leans, height, stored, low, high⟩ := grown
  rcases shape with rfl | rfl | ⟨rfl, inner, top, outer, topValue, rfl, shape⟩
  · constructor
    · simp [grownRight, leftBalanced, rightBalanced]
      omega
    · simp [grownRight]
      omega
    · simp [grownRight]
  · constructor
    · simp [grownRight, leftBalanced, rightBalanced]
      omega
    · simp [grownRight]
      omega
    · simp [grownRight, Leans]
  · rcases shape with rfl | ⟨rfl, far, middle, near, middleValue, rfl⟩
    · simp only [balanced_node, height_node] at rightBalanced height
      constructor
      · simp [grownRight, swl, setBalances, leftBalanced, rightBalanced]
        omega
      · simp [grownRight, swl, setBalances]
        omega
      · simp [grownRight]
    · simp only [balanced_node, height_node] at rightBalanced height
      have middleCases : middleValue = -1 ∨ middleValue = 0 ∨ middleValue = 1 := by omega
      rcases middleCases with rfl | rfl | rfl
      all_goals
        constructor
        · simp [grownRight, swl, swr, nasty, leftBalanced, rightBalanced]
          omega
        · simp [grownRight, swl, swr, nasty]
          omega
        · simp [grownRight]

/-- A node whose left child has shrunk is rebuilt. -/
theorem shrunkLeft_shrank (elem : α) (shrunk : ShrunkLeft left right value old) :
    Shrank (shrunkLeft left elem right value).1 (max old right.height + 1)
      (shrunkLeft left elem right value).2 := by
  have shape := shrunk.cases
  obtain ⟨leftBalanced, rightBalanced, height, stored, low, high⟩ := shrunk
  rcases shape with rfl | rfl | ⟨rfl, inner, top, outer, topValue, rfl, shape⟩
  · constructor
    · simp [shrunkLeft, leftBalanced, rightBalanced]
      omega
    · simp [shrunkLeft]
      omega
  · constructor
    · simp [shrunkLeft, leftBalanced, rightBalanced]
      omega
    · simp [shrunkLeft]
      omega
  · rcases shape with rfl | rfl | ⟨rfl, far, middle, near, middleValue, rfl⟩
    · simp only [balanced_node, height_node] at rightBalanced stored ⊢
      constructor
      · simp [shrunkLeft, swl, setBalances, leftBalanced, rightBalanced]
        omega
      · simp [shrunkLeft, swl, setBalances]
        omega
    · simp only [balanced_node, height_node] at rightBalanced stored ⊢
      constructor
      · simp [shrunkLeft, swl, setBalances, leftBalanced, rightBalanced]
        omega
      · simp [shrunkLeft, swl, setBalances]
        omega
    · simp only [balanced_node, height_node] at rightBalanced stored ⊢
      have middleCases : middleValue = -1 ∨ middleValue = 0 ∨ middleValue = 1 := by omega
      rcases middleCases with rfl | rfl | rfl
      all_goals
        constructor
        · simp [shrunkLeft, swl, swr, nasty, leftBalanced, rightBalanced]
          omega
        · simp [shrunkLeft, swl, swr, nasty]
          omega

/-- The repair after a removal on the right gives a balanced tree, and its flag tells whether
the tree is lower than before. -/
theorem shrunkRight_shrank (elem : α) (shrunk : ShrunkRight left right value old) :
    Shrank (shrunkRight left elem right value).1 (max left.height old + 1)
      (shrunkRight left elem right value).2 := by
  have shape := shrunk.cases
  obtain ⟨leftBalanced, rightBalanced, height, stored, low, high⟩ := shrunk
  rcases shape with rfl | rfl | ⟨rfl, outer, top, inner, topValue, rfl, shape⟩
  · constructor
    · simp [shrunkRight, leftBalanced, rightBalanced]
      omega
    · simp [shrunkRight]
      omega
  · constructor
    · simp [shrunkRight, leftBalanced, rightBalanced]
      omega
    · simp [shrunkRight]
      omega
  · rcases shape with rfl | rfl | ⟨rfl, near, middle, far, middleValue, rfl⟩
    · simp only [balanced_node, height_node] at leftBalanced stored ⊢
      constructor
      · simp [shrunkRight, swr, setBalances, leftBalanced, rightBalanced]
        omega
      · simp [shrunkRight, swr, setBalances]
        omega
    · simp only [balanced_node, height_node] at leftBalanced stored ⊢
      constructor
      · simp [shrunkRight, swr, setBalances, leftBalanced, rightBalanced]
        omega
      · simp [shrunkRight, swr, setBalances]
        omega
    · simp only [balanced_node, height_node] at leftBalanced stored ⊢
      have middleCases : middleValue = -1 ∨ middleValue = 0 ∨ middleValue = 1 := by omega
      rcases middleCases with rfl | rfl | rfl
      all_goals
        constructor
        · simp [shrunkRight, swl, swr, nasty, leftBalanced, rightBalanced]
          omega
        · simp [shrunkRight, swl, swr, nasty]
          omega

end Rebuilt

section Updates

variable {left right changed : Tree α} {elem : α} {value : Int}

/-- A left child of the same height keeps a node balanced. -/
theorem Tree.Balanced.withLeft (balanced : (node left elem right value).Balanced)
    (changedBalanced : changed.Balanced) (same : changed.height = left.height) (other : α) :
    (node changed other right value).Balanced := by
  simp only [balanced_node] at balanced ⊢
  exact ⟨changedBalanced, balanced.2.1, by rw [same]; exact balanced.2.2.1, balanced.2.2.2⟩

/-- A subtree of the same height may take the place of the right one. -/
theorem Tree.Balanced.withRight (balanced : (node left elem right value).Balanced)
    (changedBalanced : changed.Balanced) (same : changed.height = right.height) (other : α) :
    (node left other changed value).Balanced := by
  simp only [balanced_node] at balanced ⊢
  exact ⟨balanced.1, changedBalanced, by rw [same]; exact balanced.2.2.1, balanced.2.2.2⟩

/-- A left child that has grown. -/
theorem Grew.onLeft (grew : Grew changed left.height true)
    (balanced : (node left elem right value).Balanced) :
    GrownLeft changed right value left.height := by
  simp only [balanced_node] at balanced
  exact ⟨grew.balanced, balanced.2.1, grew.leans rfl, grew.height, balanced.2.2.1,
    balanced.2.2.2.1, balanced.2.2.2.2⟩

/-- A right subtree that has grown makes its node one that is to be repaired. -/
theorem Grew.onRight (grew : Grew changed right.height true)
    (balanced : (node left elem right value).Balanced) :
    GrownRight left changed value right.height := by
  simp only [balanced_node] at balanced
  exact ⟨balanced.1, grew.balanced, grew.leans rfl, grew.height, balanced.2.2.1,
    balanced.2.2.2.1, balanced.2.2.2.2⟩

/-- A left child that has shrunk. -/
theorem Shrank.onLeft (shrank : Shrank changed left.height true)
    (balanced : (node left elem right value).Balanced) :
    ShrunkLeft changed right value left.height := by
  simp only [balanced_node] at balanced
  exact ⟨shrank.balanced, balanced.2.1, shrank.height, balanced.2.2.1, balanced.2.2.2.1,
    balanced.2.2.2.2⟩

/-- A right subtree that has shrunk makes its node one that is to be repaired. -/
theorem Shrank.onRight (shrank : Shrank changed right.height true)
    (balanced : (node left elem right value).Balanced) :
    ShrunkRight left changed value right.height := by
  simp only [balanced_node] at balanced
  exact ⟨balanced.1, shrank.balanced, shrank.height, balanced.2.2.1, balanced.2.2.2.1,
    balanced.2.2.2.2⟩

/-- An insertion keeps the balance and tells whether the tree has grown. -/
theorem insert_grew (key : α → Ordering) (added : α) (tree : Tree α) (balanced : tree.Balanced) :
    Grew (tree.insert key added).1 tree.height (tree.insert key added).2 := by
  induction tree with
  | leaf => constructor <;> simp [Tree.insert, Leans]
  | node left elem right value leftInsert rightInsert =>
    cases compared : key elem with
    | lt =>
      have grew := leftInsert balanced.1
      simp only [Tree.insert, compared]
      cases taller : (Tree.insert key added left).2 with
      | true =>
        rw [taller] at grew
        exact grownLeft_grew elem (grew.onLeft balanced)
      | false =>
        rw [taller] at grew
        exact ⟨balanced.withLeft grew.balanced grew.height elem, by simp [grew.height], by simp⟩
    | gt =>
      have grew := rightInsert balanced.2.1
      simp only [Tree.insert, compared]
      cases taller : (Tree.insert key added right).2 with
      | true =>
        rw [taller] at grew
        exact grownRight_grew elem (grew.onRight balanced)
      | false =>
        rw [taller] at grew
        exact ⟨balanced.withRight grew.balanced grew.height elem, by simp [grew.height], by simp⟩
    | eq =>
      simp only [Tree.insert, compared]
      exact ⟨balanced, by simp, by simp⟩

/-- Detaching the least element keeps the balance and tells whether the rest is lower. -/
theorem detachMin_shrank {tree rest : Tree α} {least : α} {shorter : Bool}
    (balanced : tree.Balanced) (detached : detachMin tree = some (least, rest, shorter)) :
    Shrank rest tree.height shorter := by
  induction tree generalizing least rest shorter with
  | leaf => simp [detachMin] at detached
  | node left elem right value leftDetached _ =>
    cases inner : detachMin left with
    | none =>
      obtain rfl : left = leaf := by
        rcases detachMin_toList left with ⟨_, empty⟩ | ⟨_, _, _, some, _⟩
        · exact empty
        · simp [inner] at some
      simp only [detachMin, Option.some.injEq, Prod.mk.injEq] at detached
      obtain ⟨_, rfl, rfl⟩ := detached
      exact ⟨balanced.2.1, by simp⟩
    | some result =>
      obtain ⟨found, kept, lower⟩ := result
      have shrank := leftDetached balanced.1 inner
      simp only [detachMin, inner, Option.some.injEq, Prod.mk.injEq] at detached
      obtain ⟨rfl, rfl, rfl⟩ := detached
      cases lower with
      | true => exact shrunkLeft_shrank elem (shrank.onLeft balanced)
      | false =>
        have same : kept.height = left.height := shrank.height
        exact ⟨balanced.withLeft shrank.balanced same elem, by simp [same]⟩

/-- The tree without its greatest element is balanced, and the flag tells whether it is lower.
The induction follows the right subtrees down. -/
theorem detachMax_shrank {tree rest : Tree α} {greatest : α} {shorter : Bool}
    (balanced : tree.Balanced) (detached : detachMax tree = some (greatest, rest, shorter)) :
    Shrank rest tree.height shorter := by
  induction tree generalizing greatest rest shorter with
  | leaf => simp [detachMax] at detached
  | node left elem right value _ rightDetached =>
    cases inner : detachMax right with
    | none =>
      obtain rfl : right = leaf := by
        rcases detachMax_toList right with ⟨_, empty⟩ | ⟨_, _, _, some, _⟩
        · exact empty
        · simp [inner] at some
      simp only [detachMax, Option.some.injEq, Prod.mk.injEq] at detached
      obtain ⟨_, rfl, rfl⟩ := detached
      exact ⟨balanced.1, by simp⟩
    | some result =>
      obtain ⟨found, kept, lower⟩ := result
      have shrank := rightDetached balanced.2.1 inner
      simp only [detachMax, inner, Option.some.injEq, Prod.mk.injEq] at detached
      obtain ⟨rfl, rfl, rfl⟩ := detached
      cases lower with
      | true => exact shrunkRight_shrank elem (shrank.onRight balanced)
      | false =>
        have same : kept.height = right.height := shrank.height
        exact ⟨balanced.withRight shrank.balanced same elem, by simp [same]⟩

/-- Joining the children of a removed root keeps the balance. -/
theorem removeRoot_shrank (balanced : (node left elem right value).Balanced) :
    Shrank (removeRoot left right value).1 (node left elem right value).height
      (removeRoot left right value).2 := by
  rcases detachMax_toList left with ⟨none, rfl⟩ | ⟨greatest, leftRest, leftShorter, most, _⟩
  · simp only [removeRoot, none]
    exact ⟨balanced.2.1, by simp⟩
  · rcases detachMin_toList right with ⟨none, rfl⟩ | ⟨least, rightRest, rightShorter, first, _⟩
    · simp only [removeRoot, most, none]
      exact ⟨balanced.1, by simp⟩
    · have leftShrank := detachMax_shrank balanced.1 most
      have rightShrank := detachMin_shrank balanced.2.1 first
      simp only [removeRoot, most, first]
      split
      · cases leftShorter with
        | true => exact shrunkLeft_shrank greatest (leftShrank.onLeft balanced)
        | false =>
          have same : leftRest.height = left.height := leftShrank.height
          exact ⟨balanced.withLeft leftShrank.balanced same greatest, by simp [same]⟩
      · cases rightShorter with
        | true => exact shrunkRight_shrank least (rightShrank.onRight balanced)
        | false =>
          have same : rightRest.height = right.height := rightShrank.height
          exact ⟨balanced.withRight rightShrank.balanced same least, by simp [same]⟩

/-- A removal keeps the balance and tells whether the tree has shrunk. -/
theorem remove_shrank (key : α → Ordering) (tree : Tree α) (balanced : tree.Balanced) :
    Shrank (tree.remove key).1 tree.height (tree.remove key).2 := by
  induction tree with
  | leaf => exact ⟨trivial, rfl⟩
  | node left elem right value leftRemove rightRemove =>
    cases compared : key elem with
    | lt =>
      have shrank := leftRemove balanced.1
      simp only [Tree.remove, compared]
      cases shorter : (Tree.remove key left).2 with
      | true =>
        rw [shorter] at shrank
        exact shrunkLeft_shrank elem (shrank.onLeft balanced)
      | false =>
        rw [shorter] at shrank
        have same : (Tree.remove key left).1.height = left.height := shrank.height
        exact ⟨balanced.withLeft shrank.balanced same elem, by simp [same]⟩
    | gt =>
      have shrank := rightRemove balanced.2.1
      simp only [Tree.remove, compared]
      cases shorter : (Tree.remove key right).2 with
      | true =>
        rw [shorter] at shrank
        exact shrunkRight_shrank elem (shrank.onRight balanced)
      | false =>
        rw [shorter] at shrank
        have same : (Tree.remove key right).1.height = right.height := shrank.height
        exact ⟨balanced.withRight shrank.balanced same elem, by simp [same]⟩
    | eq =>
      simp only [Tree.remove, compared]
      exact removeRoot_shrank balanced

end Updates

/-- A node that grows on its left keeps its element on top. -/
theorem grownLeft_taller {left right : Tree α} {elem : α} {value : Int}
    (taller : (grownLeft left elem right value).2 = true) :
    (grownLeft left elem right value).1 = node left elem right (-1) := by
  unfold grownLeft at taller ⊢
  split
  · next one => simp [one] at taller
  · split
    · rfl
    · next one zero =>
      simp only [one, zero, if_false] at taller
      split at taller <;> cases taller

/-- A repair after which the tree is higher has rotated nothing: the node was even and now
leans to the right. -/
theorem grownRight_taller {left right : Tree α} {elem : α} {value : Int}
    (taller : (grownRight left elem right value).2 = true) :
    (grownRight left elem right value).1 = node left elem right 1 := by
  unfold grownRight at taller ⊢
  split
  · next one => simp [one] at taller
  · split
    · rfl
    · next one zero =>
      simp only [one, zero, if_false] at taller
      split at taller <;> cases taller

/-- A tree that has grown by an insertion keeps its element on top. -/
theorem insert_taller {key : α → Ordering} {added elem : α} {left right : Tree α} {value : Int}
    (taller : ((node left elem right value).insert key added).2 = true) :
    ∃ left' right' value', ((node left elem right value).insert key added).1 =
      node left' elem right' value' := by
  cases compared : key elem with
  | lt =>
    simp only [Tree.insert, compared] at taller ⊢
    split at taller
    · next grown => exact ⟨_, _, _, by rw [if_pos grown]; exact grownLeft_taller taller⟩
    · cases taller
  | gt =>
    simp only [Tree.insert, compared] at taller ⊢
    split at taller
    · next grown => exact ⟨_, _, _, by rw [if_pos grown]; exact grownRight_taller taller⟩
    · cases taller
  | eq => simp [Tree.insert, compared] at taller

/-- An insertion that meets no match adds one element. -/
theorem insert_perm (key : α → Ordering) (added : α) (tree : Tree α)
    (absent : tree.lookup key = none) :
    (tree.insert key added).1.toList.Perm (added :: tree.toList) := by
  induction tree with
  | leaf => simp [Tree.insert, toList]
  | node left elem right value leftInsert rightInsert =>
    cases compared : key elem with
    | lt =>
      simp only [Tree.lookup, compared] at absent
      have listed : ((node left elem right value).insert key added).1.toList =
          (left.insert key added).1.toList ++ elem :: right.toList := by
        simp only [Tree.insert, compared]
        split <;> simp [toList]
      rw [listed]
      exact (leftInsert absent).append_right _
    | gt =>
      simp only [Tree.lookup, compared, Option.map_eq_none_iff] at absent
      have listed : ((node left elem right value).insert key added).1.toList =
          left.toList ++ elem :: (right.insert key added).1.toList := by
        simp only [Tree.insert, compared]
        split <;> simp [toList]
      rw [listed]
      have behind : (elem :: (right.insert key added).1.toList).Perm
          (added :: elem :: right.toList) :=
        ((rightInsert absent).cons elem).trans (List.Perm.swap added elem _)
      exact (behind.append_left left.toList).trans List.perm_middle
    | eq => simp [Tree.lookup, compared] at absent

/-- Edits of all elements keep every height. -/
@[simp] theorem height_map (edit : α → α) (tree : Tree α) : (tree.map edit).height =
    tree.height := by
  induction tree with
  | leaf => rfl
  | node left elem right value leftEdit rightEdit => simp [Tree.map, leftEdit, rightEdit]

/-- Edits of all elements keep the balance. -/
theorem map_balanced (edit : α → α) (tree : Tree α) (balanced : tree.Balanced) :
    (tree.map edit).Balanced := by
  induction tree with
  | leaf => exact balanced
  | node left elem right value leftEdit rightEdit =>
    have left' := balanced.withLeft (leftEdit balanced.1) (height_map edit left) elem
    exact left'.withRight (rightEdit balanced.2.1) (height_map edit right) (edit elem)

/-- A tree is no higher than it has elements. -/
theorem height_le_size (tree : Tree α) : tree.height ≤ tree.size := by
  induction tree with
  | leaf => exact Nat.zero_le _
  | node left elem right value leftSize rightSize =>
    simp only [height_node, Tree.size]
    omega

/-- A balanced tree of some height has at least the elements of a Fibonacci tree. -/
theorem fib_le_size (tree : Tree α) (balanced : tree.Balanced) :
    Nat.fib (tree.height + 2) ≤ tree.size + 1 := by
  induction tree with
  | leaf => simp [Tree.size]
  | node left elem right value leftSize rightSize =>
    have leftBound := leftSize balanced.1
    have rightBound := rightSize balanced.2.1
    obtain ⟨_, _, stored, low, high⟩ := balanced
    simp only [height_node, Tree.size]
    -- One child is as high as the taller one and the other at most one lower.
    have step : Nat.fib (max left.height right.height + 1 + 2) =
        Nat.fib (max left.height right.height + 1) + Nat.fib (max left.height right.height + 2) :=
      Nat.fib_add_two
    by_cases taller : left.height ≤ right.height
    · rw [step, max_eq_right taller]
      have lower : Nat.fib (right.height + 1) ≤ Nat.fib (left.height + 2) :=
        Nat.fib_mono (by omega)
      omega
    · rw [step, max_eq_left (by omega)]
      have lower : Nat.fib (left.height + 1) ≤ Nat.fib (right.height + 2) :=
        Nat.fib_mono (by omega)
      omega

/-- A balanced tree with too few elements for a height is lower. -/
theorem height_lt_of_size {bound : Nat} (tree : Tree α) (balanced : tree.Balanced)
    (small : tree.size + 1 < Nat.fib (bound + 2)) : tree.height < bound := by
  by_contra high
  have least := fib_le_size tree balanced
  have mono : Nat.fib (bound + 2) ≤ Nat.fib (tree.height + 2) := Nat.fib_mono (by omega)
  omega

end AvlTree
