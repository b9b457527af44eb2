import PmDebugger.Library.AvlBalance
import PmDebugger.SetNodes

/-!
# Swings over the nodes of an ordered set

Memory holds a tree when every node of the tree stands at its address with the links, the balance
and the element that the tree gives it. The trees of this correspondence carry pairs of an address
and an element, so that the tree says where each node is.

A swing rewrites two or three nodes and leaves the rest of memory as it is. What it does to the tree
is the swing of the tree. The four ways in which an insertion or a removal restores the balance of a
node are then those of the trees, and none of them follows a null pointer where the node is
balanced. -/

namespace PmDebugger

open AvlTree
open AvlTree.Tree

variable {α : Type}

/-- The address of the root; null for the empty tree. This is what the pointer to the tree
holds. -/
def top : AvlTree.Tree (Nat × α) → Nat
  | .leaf => 0
  | .node _ here _ _ => here.1

/-- The addresses of the nodes in search order. They identify the nodes, whatever their
elements are. -/
def addresses (tree : AvlTree.Tree (Nat × α)) : List Nat := tree.toList.map Prod.fst

/-- No two nodes stand at one address. Without it a write to one node could change another. -/
def Distinct (tree : AvlTree.Tree (Nat × α)) : Prop := (addresses tree).Nodup

/-- Every node of the tree stands in memory at its address, with the addresses of its children,
its element, the magic number and its balance. -/
def Holds (heap : NodeHeap α) : AvlTree.Tree (Nat × α) → Prop
  | .leaf => True
  | .node left here right value =>
      heap.cell here.1 = some ⟨top left, top right, value, osetMagic, here.2⟩ ∧
        Holds heap left ∧ Holds heap right

/-- The part of a node that the tree does not rewrite. Insertions and removals only touch the
links and the balance. -/
def payload (node : OSetNode α) : Nat × α := (node.magic, node.elem)

/-- Memory is as before at all but some addresses, and even there only links and balances have
changed. -/
structure SameOutside (cells : List Nat) (heap changed : NodeHeap α) : Prop where
  outside : ∀ n, n ∉ cells → changed.cell n = heap.cell n
  payloads : ∀ n, (changed.cell n).map payload = (heap.cell n).map payload

/-- The empty tree hangs on the null pointer. -/
@[simp] theorem top_leaf : top (.leaf : AvlTree.Tree (Nat × α)) = 0 := rfl

/-- A tree hangs on the address of its root. -/
@[simp] theorem top_node (left right : AvlTree.Tree (Nat × α)) (here : Nat × α) (value : Int) :
    top (.node left here right value) = here.1 := rfl

/-- The empty tree has no addresses. -/
@[simp] theorem addresses_leaf : addresses (.leaf : AvlTree.Tree (Nat × α)) = [] := rfl

/-- The addresses of a tree, from the left to the right. -/
@[simp] theorem addresses_node (left right : AvlTree.Tree (Nat × α)) (here : Nat × α)
    (value : Int) :
    addresses (.node left here right value) = addresses left ++ here.1 :: addresses right := by
  simp [addresses, toList]

/-- Any memory holds the empty tree. -/
@[simp] theorem holds_leaf (heap : NodeHeap α) : Holds heap .leaf := trivial

/-- Memory holds a tree if it has the root with the addresses of its subtrees, and holds these. -/
@[simp] theorem holds_node {heap : NodeHeap α} {left right : AvlTree.Tree (Nat × α)}
    {here : Nat × α} {value : Int} :
    Holds heap (.node left here right value) ↔
      heap.cell here.1 = some ⟨top left, top right, value, osetMagic, here.2⟩ ∧
        Holds heap left ∧ Holds heap right := Iff.rfl

/-- An address of a tree is in a subtree, or it is the root's. -/
theorem mem_addresses_node {left right : AvlTree.Tree (Nat × α)} {here : Nat × α} {value : Int}
    {n : Nat} : n ∈ addresses (.node left here right value) ↔
      n ∈ addresses left ∨ n = here.1 ∨ n ∈ addresses right := by
  simp

/-- The addresses of a node are those of its children and its own, all different. -/
theorem distinct_node {left right : AvlTree.Tree (Nat × α)} {here : Nat × α} {value : Int} :
    Distinct (.node left here right value) ↔
      Distinct left ∧ Distinct right ∧ here.1 ∉ addresses left ∧ here.1 ∉ addresses right ∧
        ∀ n ∈ addresses left, n ∉ addresses right := by
  simp only [Distinct, addresses_node, List.nodup_append, List.nodup_cons, List.mem_cons]
  constructor
  · rintro ⟨leftDistinct, ⟨notRight, rightDistinct⟩, apart⟩
    refine ⟨leftDistinct, rightDistinct, ?_, notRight, ?_⟩
    · intro member
      exact apart _ member _ (.inl rfl) rfl
    · intro n member other
      exact apart _ member _ (.inr other) rfl
  · rintro ⟨leftDistinct, rightDistinct, notLeft, notRight, apart⟩
    refine ⟨leftDistinct, ⟨notRight, rightDistinct⟩, ?_⟩
    rintro n member other (rfl | inRight) rfl
    · exact notLeft member
    · exact apart n member inRight

section Memory

variable {heap changed final : NodeHeap α} {n other : Nat} {node : OSetNode α}

/-- A computation that has succeeded goes on with its value. -/
@[simp] theorem except_ok_bind {ε β γ : Type} (value : β) (rest : β → Except ε γ) :
    (Except.ok value >>= rest) = rest value := rfl

/-- A value is a computation that has succeeded. -/
@[simp] theorem except_pure {ε β : Type} (value : β) : (pure value : Except ε β) = .ok value := rfl

/-- A read where a node stands. -/
theorem read_node (stands : heap.cell n = some node) : heap.read n = .ok node := by
  simp [NodeHeap.read, stands]

/-- A write where a node stands. -/
theorem update_node (stands : heap.cell n = some node) (edit : OSetNode α → OSetNode α) :
    heap.update n edit = .ok (heap.modify n edit) := by
  simp [NodeHeap.update, read_node stands]

/-- The cell that is edited holds the edited node. -/
theorem modify_cell (stands : heap.cell n = some node) (edit : OSetNode α → OSetNode α) :
    (heap.modify n edit).cell n = some (edit node) := by
  simp [NodeHeap.modify, stands]

/-- The other cells keep theirs. -/
theorem modify_other (differs : other ≠ n) (edit : OSetNode α → OSetNode α) :
    (heap.modify n edit).cell other = heap.cell other := by
  simp [NodeHeap.modify, differs]

/-- Nothing is changed, inside or outside. -/
theorem sameOutside_refl (cells : List Nat) : SameOutside cells heap heap :=
  ⟨fun _ _ => rfl, fun _ => rfl⟩

/-- An edit that keeps magic number and element changes one cell, and that one only in its
links and balance. -/
theorem sameOutside_modify {edit : OSetNode α → OSetNode α}
    (keeps : ∀ node, payload (edit node) = payload node) :
    SameOutside [n] heap (heap.modify n edit) := by
  constructor
  · intro other outside
    exact modify_other (by simpa using outside) edit
  · intro other
    simp only [NodeHeap.modify]
    split
    · next here =>
      rw [here, Option.map_map]
      congr 1
      exact funext keeps
    · rfl

/-- Changes within some addresses are changes within more. -/
theorem SameOutside.mono {cells more : List Nat} (same : SameOutside cells heap changed)
    (within : cells ⊆ more) : SameOutside more heap changed :=
  ⟨fun n outside => same.outside n (fun member => outside (within member)), same.payloads⟩

/-- Two changes of the same cells are one. -/
theorem SameOutside.trans {cells : List Nat} (first : SameOutside cells heap changed)
    (second : SameOutside cells changed final) : SameOutside cells heap final :=
  ⟨fun n outside => (second.outside n outside).trans (first.outside n outside),
    fun n => (second.payloads n).trans (first.payloads n)⟩

/-- A tree is held wherever its nodes stand. -/
theorem Holds.congr {tree : AvlTree.Tree (Nat × α)} (held : Holds heap tree)
    (same : ∀ n ∈ addresses tree, changed.cell n = heap.cell n) : Holds changed tree := by
  induction tree with
  | leaf => trivial
  | node left here right value leftHeld rightHeld =>
    obtain ⟨stands, leftStands, rightStands⟩ := held
    simp only [mem_addresses_node] at same
    refine ⟨(same here.1 (.inr (.inl rfl))).trans stands, leftHeld leftStands ?_,
      rightHeld rightStands ?_⟩
    · intro n member
      exact same n (.inl member)
    · intro n member
      exact same n (.inr (.inr member))

/-- A tree stays held while none of its nodes is written. -/
theorem Holds.frame {tree : AvlTree.Tree (Nat × α)} {cells : List Nat} (held : Holds heap tree)
    (same : SameOutside cells heap changed) (apart : ∀ n ∈ addresses tree, n ∉ cells) :
    Holds changed tree :=
  held.congr (fun n member => same.outside n (apart n member))

/-- A node that memory holds is not at the null pointer. -/
theorem Holds.top_ne_zero {left right : AvlTree.Tree (Nat × α)} {here : Nat × α} {value : Int}
    (held : Holds heap (.node left here right value)) : here.1 ≠ 0 := by
  intro zero
  have stands := held.1
  rw [zero, heap.null] at stands
  cases stands

/-- The root of a held tree is null exactly for the empty tree. -/
theorem Holds.top_eq_zero {tree : AvlTree.Tree (Nat × α)} (held : Holds heap tree) :
    top tree = 0 ↔ tree = .leaf := by
  cases tree with
  | leaf => simp
  | node left here right value => simpa using held.top_ne_zero

end Memory

section Swings

variable {heap : NodeHeap α} {left right inner outer : AvlTree.Tree (Nat × α)} {a b : Nat × α}
  {value other : Int}

/-- A write to a node that brings its links and its balance to those of a tree. -/
theorem update_holds {stored : OSetNode α} {edit : OSetNode α → OSetNode α}
    (stands : heap.cell a.1 = some stored)
    (edited : edit stored = ⟨top left, top right, value, osetMagic, a.2⟩)
    (keeps : ∀ node, payload (edit node) = payload node)
    (leftHeld : Holds heap left) (rightHeld : Holds heap right)
    (notLeft : a.1 ∉ addresses left) (notRight : a.1 ∉ addresses right) :
    heap.update a.1 edit = .ok (heap.modify a.1 edit) ∧
      Holds (heap.modify a.1 edit) (.node left a right value) ∧
      SameOutside [a.1] heap (heap.modify a.1 edit) := by
  have same : SameOutside [a.1] heap (heap.modify a.1 edit) := sameOutside_modify keeps
  refine ⟨update_node stands edit, ⟨?_, leftHeld.frame same ?_, rightHeld.frame same ?_⟩, same⟩
  · rw [modify_cell stands, edited]
  · intro n member here
    rw [List.mem_singleton] at here
    exact notLeft (here ▸ member)
  · intro n member here
    rw [List.mem_singleton] at here
    exact notRight (here ▸ member)

/-- A swing to the left rewrites the two nodes at the top. -/
theorem avlSwl_holds (held : Holds heap (.node left a (.node inner b outer other) value))
    (distinct : Distinct (.node left a (.node inner b outer other) value)) :
    ∃ changed, avlSwl heap a.1 = .ok (changed, b.1) ∧
      Holds changed (.node (.node left a inner value) b outer other) ∧
      SameOutside [a.1, b.1] heap changed := by
  obtain ⟨standsA, leftHeld, standsB, innerHeld, outerHeld⟩ := held
  simp only [distinct_node, mem_addresses_node, not_or] at distinct
  obtain ⟨_, ⟨_, _, bInner, bOuter, innerOuter⟩, aLeft, ⟨aInner, differs, aOuter⟩, apart⟩ :=
      distinct
  -- The old root takes the inner subtree, then the new root takes the old one.
  obtain ⟨written, nodeHeld, same⟩ := @update_holds _ heap left inner a value _
    (fun node => { node with right := top inner }) standsA rfl (fun _ => rfl) leftHeld innerHeld
      aLeft aInner
  have standsB' := (same.outside b.1 (by simpa using Ne.symm differs)).trans standsB
  have outerHeld' := outerHeld.frame same (by rintro n member here; simp_all)
  obtain ⟨written', treeHeld, same'⟩ := @update_holds _ _ _ outer b other _
    (fun node => { node with left := a.1 }) standsB' rfl (fun _ => rfl) nodeHeld outerHeld'
    (by
      rw [mem_addresses_node, not_or, not_or]
      exact ⟨fun member => (apart b.1 member).2.1 rfl, Ne.symm differs, bInner⟩)
    bOuter
  refine ⟨_, ?_, treeHeld, ?_⟩
  · simp [avlSwl, read_node standsA, read_node standsB, NodeHeap.setRight, NodeHeap.setLeft,
      written, written']
  · exact (same.mono (by simp)).trans (same'.mono (by simp))

/-- A swing to the right likewise. -/
theorem avlSwr_holds (held : Holds heap (.node (.node outer b inner other) a right value))
    (distinct : Distinct (.node (.node outer b inner other) a right value)) :
    ∃ changed, avlSwr heap a.1 = .ok (changed, b.1) ∧
      Holds changed (.node outer b (.node inner a right value) other) ∧
      SameOutside [a.1, b.1] heap changed := by
  obtain ⟨standsA, ⟨standsB, outerHeld, innerHeld⟩, rightHeld⟩ := held
  simp only [distinct_node, mem_addresses_node, not_or] at distinct
  obtain ⟨⟨_, _, bOuter, bInner, outerInner⟩, _, ⟨aOuter, differs, aInner⟩, aRight, apart⟩ :=
      distinct
  obtain ⟨written, nodeHeld, same⟩ := @update_holds _ heap inner right a value _
    (fun node => { node with left := top inner }) standsA rfl (fun _ => rfl) innerHeld rightHeld
      aInner aRight
  have standsB' := (same.outside b.1 (by simpa using Ne.symm differs)).trans standsB
  have outerHeld' := outerHeld.frame same (by rintro n member here; simp_all)
  obtain ⟨written', treeHeld, same'⟩ := @update_holds _ _ outer _ b other _
    (fun node => { node with right := a.1 }) standsB' rfl (fun _ => rfl) outerHeld' nodeHeld bOuter
    (by
      rw [mem_addresses_node, not_or, not_or]
      exact ⟨bInner, Ne.symm differs, apart b.1 (.inr (.inl rfl))⟩)
  refine ⟨_, ?_, treeHeld, ?_⟩
  · simp [avlSwr, read_node standsA, read_node standsB, NodeHeap.setRight, NodeHeap.setLeft,
      written, written']
  · exact (same.mono (by simp)).trans (same'.mono (by simp))

/-- The balance of the root is written. -/
theorem setBalance_root (held : Holds heap (.node left a right value))
    (distinct : Distinct (.node left a right value)) (written : Int) :
    ∃ changed, heap.setBalance a.1 written = .ok changed ∧
      Holds changed (.node left a right written) ∧ SameOutside [a.1] heap changed := by
  obtain ⟨stands, leftHeld, rightHeld⟩ := held
  obtain ⟨_, _, notLeft, notRight, _⟩ := distinct_node.mp distinct
  exact ⟨_, @update_holds _ heap left right a written _
    (fun node => { node with balance := written }) stands rfl (fun _ => rfl) leftHeld rightHeld
      notLeft notRight⟩

/-- What lies in the left subtree or outside of the tree is neither the root nor in the right
subtree. -/
theorem apart_left {cells : List Nat} (distinct : Distinct (.node left a right value))
    (within : ∀ n ∈ cells, n ∈ addresses left ∨ n ∉ addresses (.node left a right value)) :
    a.1 ∉ cells ∧ ∀ n ∈ addresses right, n ∉ cells := by
  obtain ⟨_, _, notLeft, _, apart⟩ := distinct_node.mp distinct
  simp only [mem_addresses_node, not_or] at within
  constructor
  · intro member
    rcases within a.1 member with inside | outside
    · exact notLeft inside
    · exact outside.2.1 rfl
  · intro n member here
    rcases within n here with inside | outside
    · exact apart n inside member
    · exact outside.2.2 member

/-- Cells of the right subtree, or outside the tree, are neither the root's nor in the left
subtree. -/
theorem apart_right {cells : List Nat} (distinct : Distinct (.node left a right value))
    (within : ∀ n ∈ cells, n ∈ addresses right ∨ n ∉ addresses (.node left a right value)) :
    a.1 ∉ cells ∧ ∀ n ∈ addresses left, n ∉ cells := by
  obtain ⟨_, _, _, notRight, apart⟩ := distinct_node.mp distinct
  simp only [mem_addresses_node, not_or] at within
  constructor
  · intro member
    rcases within a.1 member with inside | outside
    · exact notRight inside
    · exact outside.2.1 rfl
  · intro n member here
    rcases within n here with inside | outside
    · exact apart n member inside
    · exact outside.1 member

/-- A node stays held while only its left subtree is written and keeps its root. -/
theorem Holds.inLeft {changed : NodeHeap α} {replaced : AvlTree.Tree (Nat × α)} {cells : List Nat}
    (held : Holds heap (.node left a right value)) (distinct : Distinct (.node left a right value))
    (replacedHeld : Holds changed replaced) (sameTop : top replaced = top left)
    (same : SameOutside cells heap changed)
    (within : ∀ n ∈ cells, n ∈ addresses left ∨ n ∉ addresses (.node left a right value)) :
    Holds changed (.node replaced a right value) := by
  obtain ⟨stands, _, rightHeld⟩ := held
  obtain ⟨notHere, notRight⟩ := apart_left distinct within
  refine ⟨?_, replacedHeld, rightHeld.frame same notRight⟩
  rw [same.outside a.1 notHere, sameTop]
  exact stands

/-- The right subtree may be rebuilt in its place: memory holds the tree with the new one, as
the root's link and the left subtree are not touched. -/
theorem Holds.inRight {changed : NodeHeap α} {replaced : AvlTree.Tree (Nat × α)} {cells : List Nat}
    (held : Holds heap (.node left a right value)) (distinct : Distinct (.node left a right value))
    (replacedHeld : Holds changed replaced) (sameTop : top replaced = top right)
    (same : SameOutside cells heap changed)
    (within : ∀ n ∈ cells, n ∈ addresses right ∨ n ∉ addresses (.node left a right value)) :
    Holds changed (.node left a replaced value) := by
  obtain ⟨stands, leftHeld, _⟩ := held
  obtain ⟨notHere, notLeft⟩ := apart_right distinct within
  refine ⟨?_, leftHeld.frame same notLeft, replacedHeld⟩
  rw [same.outside a.1 notHere, sameTop]
  exact stands

/-- The balance of the left child is written. -/
theorem setBalance_left (held : Holds heap (.node (.node outer b inner other) a right value))
    (distinct : Distinct (.node (.node outer b inner other) a right value)) (written : Int) :
    ∃ changed, heap.setBalance b.1 written = .ok changed ∧
      Holds changed (.node (.node outer b inner written) a right value) ∧
      SameOutside [b.1] heap changed := by
  obtain ⟨changed, done, childHeld, same⟩ :=
    setBalance_root held.2.1 (distinct_node.mp distinct).1 written
  exact ⟨changed, done, held.inLeft distinct childHeld rfl same (by simp), same⟩

/-- The balance of the right child is written. -/
theorem setBalance_right (held : Holds heap (.node left a (.node inner b outer other) value))
    (distinct : Distinct (.node left a (.node inner b outer other) value)) (written : Int) :
    ∃ changed, heap.setBalance b.1 written = .ok changed ∧
      Holds changed (.node left a (.node inner b outer written) value) ∧
      SameOutside [b.1] heap changed := by
  obtain ⟨changed, done, childHeld, same⟩ :=
    setBalance_root held.2.2 (distinct_node.mp distinct).2.1 written
  exact ⟨changed, done, held.inRight distinct childHeld rfl same (by simp), same⟩

/-- The addresses of a tree do not depend on its balances. -/
theorem Distinct.withBalance (distinct : Distinct (.node left a right value)) (written : Int) :
    Distinct (.node left a right written) := by
  simpa only [Distinct, addresses_node] using distinct

end Swings

section DoubleSwings

variable {heap : NodeHeap α} {far near far' near' : AvlTree.Tree (Nat × α)} {a b m : Nat × α}
  {leftValue rightValue value : Int}

/-- The maintenance after a double swing writes the three balances. -/
theorem avlNasty_holds
    (held : Holds heap (.node (.node far b near leftValue) m (.node near' a far' rightValue) value))
    (distinct : Distinct
      (.node (.node far b near leftValue) m (.node near' a far' rightValue) value))
    (bounds : value = -1 ∨ value = 0 ∨ value = 1) :
    ∃ changed, avlNasty heap m.1 = .ok changed ∧
      Holds changed
        (nasty (.node (.node far b near leftValue) m (.node near' a far' rightValue) value)) ∧
      SameOutside [m.1, b.1, a.1] heap changed := by
  obtain ⟨leftWritten, rightWritten, balances, maintained⟩ :
      ∃ leftWritten rightWritten, nastyBalances value = some (leftWritten, rightWritten) ∧
        nasty (.node (.node far b near leftValue) m (.node near' a far' rightValue) value) =
          .node (.node far b near leftWritten) m (.node near' a far' rightWritten) 0 := by
    rcases bounds with rfl | rfl | rfl
    · exact ⟨0, 1, rfl, rfl⟩
    · exact ⟨0, 0, rfl, rfl⟩
    · exact ⟨-1, 0, rfl, rfl⟩
  obtain ⟨first, firstDone, firstHeld, firstSame⟩ := setBalance_left held distinct leftWritten
  have firstDistinct :
      Distinct (.node (.node far b near leftWritten) m (.node near' a far' rightValue) value) := by
    simpa only [Distinct, addresses_node] using distinct
  obtain ⟨second, secondDone, secondHeld, secondSame⟩ :=
    setBalance_right firstHeld firstDistinct rightWritten
  have secondDistinct :
      Distinct (.node (.node far b near leftWritten) m (.node near' a far' rightWritten)
        value) := by
    simpa only [Distinct, addresses_node] using distinct
  obtain ⟨third, thirdDone, thirdHeld, thirdSame⟩ := setBalance_root secondHeld secondDistinct 0
  refine ⟨third, ?_, ?_, ?_⟩
  · simp [avlNasty, read_node held.1, balances, firstDone, secondDone, thirdDone]
  · rw [maintained]
    exact thirdHeld
  · exact ((firstSame.mono (by simp)).trans (secondSame.mono (by simp))).trans
      (thirdSame.mono (by simp))

end DoubleSwings

section Restored

variable {heap : NodeHeap α} {left right outer inner near far : AvlTree.Tree (Nat × α)}
  {a b m : Nat × α} {value other middle : Int}

/-- A single swing to the right, and the balances that are written after it. -/
theorem swingRight_holds (held : Holds heap (.node (.node outer b inner other) a right value))
    (distinct : Distinct (.node (.node outer b inner other) a right value))
    (rootValue childValue : Int) :
    ∃ swung rooted final, avlSwr heap a.1 = .ok (swung, b.1) ∧
      swung.setBalance b.1 rootValue = .ok rooted ∧ (∃ node, rooted.read b.1 = .ok node ∧
        node.right = a.1) ∧ rooted.setBalance a.1 childValue = .ok final ∧
      Holds final (.node outer b (.node inner a right childValue) rootValue) ∧
      SameOutside [a.1, b.1] heap final := by
  obtain ⟨swung, swings, swungHeld, swungSame⟩ := avlSwr_holds held distinct
  have swungDistinct : Distinct (.node outer b (.node inner a right value) other) := by
    simpa [Distinct] using distinct
  obtain ⟨rooted, rootDone, rootedHeld, rootedSame⟩ :=
    setBalance_root swungHeld swungDistinct rootValue
  obtain ⟨final, childDone, finalHeld, finalSame⟩ :=
    setBalance_right rootedHeld (swungDistinct.withBalance rootValue) childValue
  refine ⟨swung, rooted, final, swings, rootDone, ⟨_, read_node rootedHeld.1, rfl⟩, childDone,
    finalHeld, ?_⟩
  exact (swungSame.trans (rootedSame.mono (by simp))).trans (finalSame.mono (by simp))

/-- A single swing to the left, and the balances that are written after it. -/
theorem swingLeft_holds (held : Holds heap (.node left a (.node inner b outer other) value))
    (distinct : Distinct (.node left a (.node inner b outer other) value))
    (rootValue childValue : Int) :
    ∃ swung rooted final, avlSwl heap a.1 = .ok (swung, b.1) ∧
      swung.setBalance b.1 rootValue = .ok rooted ∧ (∃ node, rooted.read b.1 = .ok node ∧
        node.left = a.1) ∧ rooted.setBalance a.1 childValue = .ok final ∧
      Holds final (.node (.node left a inner childValue) b outer rootValue) ∧
      SameOutside [a.1, b.1] heap final := by
  obtain ⟨swung, swings, swungHeld, swungSame⟩ := avlSwl_holds held distinct
  have swungDistinct : Distinct (.node (.node left a inner value) b outer other) := by
    simpa [Distinct] using distinct
  obtain ⟨rooted, rootDone, rootedHeld, rootedSame⟩ :=
    setBalance_root swungHeld swungDistinct rootValue
  obtain ⟨final, childDone, finalHeld, finalSame⟩ :=
    setBalance_left rootedHeld (swungDistinct.withBalance rootValue) childValue
  refine ⟨swung, rooted, final, swings, rootDone, ⟨_, read_node rootedHeld.1, rfl⟩, childDone,
    finalHeld, ?_⟩
  exact (swungSame.trans (rootedSame.mono (by simp))).trans (finalSame.mono (by simp))

/-- A left subtree with another root is linked. -/
theorem setLeft_holds {changed : NodeHeap α} {replaced : AvlTree.Tree (Nat × α)}
    {cells : List Nat} (held : Holds heap (.node left a right value))
    (distinct : Distinct (.node left a right value)) (replacedHeld : Holds changed replaced)
    (same : SameOutside cells heap changed)
    (within : ∀ n ∈ cells, n ∈ addresses left ∨ n ∉ addresses (.node left a right value))
    (notReplaced : a.1 ∉ addresses replaced) :
    ∃ linked, changed.setLeft a.1 (top replaced) = .ok linked ∧
      Holds linked (.node replaced a right value) ∧ SameOutside [a.1] changed linked := by
  obtain ⟨stands, _, rightHeld⟩ := held
  obtain ⟨notHere, apart⟩ := apart_left distinct within
  have stands' := (same.outside a.1 notHere).trans stands
  exact ⟨_, @update_holds _ changed replaced right a value _
    (fun node => { node with left := top replaced }) stands' rfl (fun _ => rfl) replacedHeld
    (rightHeld.frame same apart) notReplaced (distinct_node.mp distinct).2.2.2.1⟩

/-- A right subtree with another root is linked. -/
theorem setRight_holds {changed : NodeHeap α} {replaced : AvlTree.Tree (Nat × α)}
    {cells : List Nat} (held : Holds heap (.node left a right value))
    (distinct : Distinct (.node left a right value)) (replacedHeld : Holds changed replaced)
    (same : SameOutside cells heap changed)
    (within : ∀ n ∈ cells, n ∈ addresses right ∨ n ∉ addresses (.node left a right value))
    (notReplaced : a.1 ∉ addresses replaced) :
    ∃ linked, changed.setRight a.1 (top replaced) = .ok linked ∧
      Holds linked (.node left a replaced value) ∧ SameOutside [a.1] changed linked := by
  obtain ⟨stands, leftHeld, _⟩ := held
  obtain ⟨notHere, apart⟩ := apart_right distinct within
  have stands' := (same.outside a.1 notHere).trans stands
  exact ⟨_, @update_holds _ changed left replaced a value _
    (fun node => { node with right := top replaced }) stands' rfl (fun _ => rfl)
    (leftHeld.frame same apart) replacedHeld (distinct_node.mp distinct).2.2.1 notReplaced⟩

/-- A double swing that ends to the right. -/
theorem doubleRight_holds
    (held : Holds heap (.node (.node outer b (.node near m far middle) other) a right value))
    (distinct : Distinct (.node (.node outer b (.node near m far middle) other) a right value))
    (bounds : middle = -1 ∨ middle = 0 ∨ middle = 1) :
    ∃ first linked swung final, avlSwl heap b.1 = .ok (first, m.1) ∧
      first.setLeft a.1 m.1 = .ok linked ∧ avlSwr linked a.1 = .ok (swung, m.1) ∧
      avlNasty swung m.1 = .ok final ∧
      Holds final (nasty (.node (.node outer b near other) m (.node far a right value) middle)) ∧
      SameOutside [a.1, b.1, m.1] heap final := by
  have parts := distinct
  simp only [distinct_node, mem_addresses_node, not_or] at parts
  obtain ⟨_, _, ⟨aOuter, aNotB, aNear, aNotM, aFar⟩, _, apart⟩ := parts
  obtain ⟨first, swings, firstHeld, firstSame⟩ :=
      avlSwl_holds held.2.1 (distinct_node.mp distinct).1
  obtain ⟨linked, links, linkedHeld, linkedSame⟩ := setLeft_holds held distinct firstHeld firstSame
    (by simp) (by simp [aOuter, aNotB, aNear, aNotM, aFar])
  have linkedDistinct :
      Distinct (.node (.node (.node outer b near other) m far middle) a right value) := by
    simpa [Distinct] using distinct
  obtain ⟨swung, swings', swungHeld, swungSame⟩ := avlSwr_holds linkedHeld linkedDistinct
  have swungDistinct :
      Distinct (.node (.node outer b near other) m (.node far a right value) middle) := by
    simpa [Distinct] using distinct
  obtain ⟨final, maintains, finalHeld, finalSame⟩ := avlNasty_holds swungHeld swungDistinct bounds
  refine ⟨first, linked, swung, final, swings, links, swings', maintains, finalHeld, ?_⟩
  exact (((firstSame.mono (by simp)).trans (linkedSame.mono (by simp))).trans
    (swungSame.mono (by simp))).trans (finalSame.mono (by simp))

/-- A double swing that ends to the left. -/
theorem doubleLeft_holds
    (held : Holds heap (.node left a (.node (.node far m near middle) b outer other) value))
    (distinct : Distinct (.node left a (.node (.node far m near middle) b outer other) value))
    (bounds : middle = -1 ∨ middle = 0 ∨ middle = 1) :
    ∃ first linked swung final, avlSwr heap b.1 = .ok (first, m.1) ∧
      first.setRight a.1 m.1 = .ok linked ∧ avlSwl linked a.1 = .ok (swung, m.1) ∧
      avlNasty swung m.1 = .ok final ∧
      Holds final (nasty (.node (.node left a far value) m (.node near b outer other) middle)) ∧
      SameOutside [a.1, b.1, m.1] heap final := by
  have parts := distinct
  simp only [distinct_node, mem_addresses_node, not_or] at parts
  obtain ⟨_, _, _, ⟨⟨aFar, aNotM, aNear⟩, aNotB, aOuter⟩, apart⟩ := parts
  obtain ⟨first, swings, firstHeld, firstSame⟩ :=
    avlSwr_holds held.2.2 (distinct_node.mp distinct).2.1
  obtain ⟨linked, links, linkedHeld, linkedSame⟩ := setRight_holds held distinct firstHeld firstSame
    (by simp) (by simp [aOuter, aNotB, aNear, aNotM, aFar])
  have linkedDistinct :
      Distinct (.node left a (.node far m (.node near b outer other) middle) value) := by
    simpa [Distinct] using distinct
  obtain ⟨swung, swings', swungHeld, swungSame⟩ := avlSwl_holds linkedHeld linkedDistinct
  have swungDistinct :
      Distinct (.node (.node left a far value) m (.node near b outer other) middle) := by
    simpa [Distinct] using distinct
  obtain ⟨final, maintains, finalHeld, finalSame⟩ := avlNasty_holds swungHeld swungDistinct bounds
  refine ⟨first, linked, swung, final, swings, links, swings', maintains, finalHeld, ?_⟩
  exact (((firstSame.mono (by simp)).trans (linkedSame.mono (by simp))).trans
    (swungSame.mono (by simp))).trans (finalSame.mono (by simp))

end Restored

/-- An operation ends with memory that holds a tree, hands back its root and a flag, and has written
only some nodes. -/
def Rebuilds (heap : NodeHeap α) (cells : List Nat)
    (outcome : Except Fault (NodeHeap α × Nat × Bool)) (result : AvlTree.Tree (Nat × α) × Bool) :
    Prop :=
  ∃ changed, outcome = .ok (changed, top result.1, result.2) ∧ Holds changed result.1 ∧
    SameOutside cells heap changed

section Rebalanced

variable {heap : NodeHeap α} {left right : AvlTree.Tree (Nat × α)} {a : Nat × α} {value : Int}
  {old : Nat}

/-- The balance of the middle node of a balanced chain. -/
theorem middle_bounds {near far : AvlTree.Tree (Nat × α)} {m : Nat × α} {middle : Int}
    (balanced : (AvlTree.Tree.node near m far middle).Balanced) :
    middle = -1 ∨ middle = 0 ∨ middle = 1 := by
  obtain ⟨_, _, _, low, high⟩ := balanced
  omega

/-- A node whose left subtree has grown is restored as the tree is. -/
theorem leftGrown_rebuilds (held : Holds heap (.node left a right value))
    (distinct : Distinct (.node left a right value)) (grown : GrownLeft left right value old) :
    Rebuilds heap (addresses (.node left a right value)) (leftGrown heap a.1)
      (grownLeft left a right value) := by
  rcases grown.cases with rfl | rfl | ⟨rfl, outer, b, inner, other, rfl, shape⟩
  · obtain ⟨counted, done, countedHeld, same⟩ := setBalance_root held distinct 0
    refine ⟨counted, ?_, countedHeld, same.mono (by simp)⟩
    simp [leftGrown, read_node held.1, done, grownLeft]
  · obtain ⟨counted, done, countedHeld, same⟩ := setBalance_root held distinct (-1)
    refine ⟨counted, ?_, countedHeld, same.mono (by simp)⟩
    simp [leftGrown, read_node held.1, done, grownLeft]
  · obtain ⟨counted, done, countedHeld, countedSame⟩ := setBalance_root held distinct (-2)
    have countedDistinct := distinct.withBalance (-2)
    have readRoot := read_node countedHeld.1
    have readChild := read_node countedHeld.2.1.1
    rcases shape with rfl | ⟨rfl, near, m, far, middle, rfl⟩
    · obtain ⟨swung, rooted, final, swings, roots, ⟨node, reads, child⟩, writes, finalHeld, same⟩ :=
        swingRight_holds countedHeld countedDistinct 0 0
      refine ⟨final, ?_, ?_, (countedSame.mono (by simp)).trans (same.mono (by simp))⟩
      · simp [leftGrown, read_node held.1, done, readRoot, readChild, swings, roots, reads, child,
          writes, grownLeft, swr, setBalances]
      · simpa [grownLeft, swr, setBalances] using finalHeld
    · have bounds := middle_bounds grown.leftBalanced.2.1
      obtain ⟨first, linked, swung, final, swings, links, swings', maintains, finalHeld, same⟩ :=
        doubleRight_holds countedHeld countedDistinct bounds
      refine ⟨final, ?_, ?_, (countedSame.mono (by simp)).trans (same.mono (by simp))⟩
      · have rooted : top (grownLeft (.node outer b (.node near m far middle) 1) a right (-1)).1 =
            m.1 := by
          rcases bounds with rfl | rfl | rfl <;> rfl
        rw [rooted]
        simp [leftGrown, read_node held.1, done, readRoot, readChild, swings, links, swings',
          maintains, grownLeft]
      · rcases bounds with rfl | rfl | rfl <;> exact finalHeld

/-- A node whose right subtree has grown is restored as the tree is. -/
theorem rightGrown_rebuilds (held : Holds heap (.node left a right value))
    (distinct : Distinct (.node left a right value)) (grown : GrownRight left right value old) :
    Rebuilds heap (addresses (.node left a right value)) (rightGrown heap a.1)
      (grownRight left a right value) := by
  rcases grown.cases with rfl | rfl | ⟨rfl, inner, b, outer, other, rfl, shape⟩
  · obtain ⟨counted, done, countedHeld, same⟩ := setBalance_root held distinct 0
    refine ⟨counted, ?_, countedHeld, same.mono (by simp)⟩
    simp [rightGrown, read_node held.1, done, grownRight]
  · obtain ⟨counted, done, countedHeld, same⟩ := setBalance_root held distinct 1
    refine ⟨counted, ?_, countedHeld, same.mono (by simp)⟩
    simp [rightGrown, read_node held.1, done, grownRight]
  · obtain ⟨counted, done, countedHeld, countedSame⟩ := setBalance_root held distinct 2
    have countedDistinct := distinct.withBalance 2
    have readRoot := read_node countedHeld.1
    have readChild := read_node countedHeld.2.2.1
    rcases shape with rfl | ⟨rfl, far, m, near, middle, rfl⟩
    · obtain ⟨swung, rooted, final, swings, roots, ⟨node, reads, child⟩, writes, finalHeld, same⟩ :=
        swingLeft_holds countedHeld countedDistinct 0 0
      refine ⟨final, ?_, ?_, (countedSame.mono (by simp)).trans (same.mono (by simp))⟩
      · simp [rightGrown, read_node held.1, done, readRoot, readChild, swings, roots, reads, child,
          writes, grownRight, swl, setBalances]
      · simpa [grownRight, swl, setBalances] using finalHeld
    · have bounds := middle_bounds grown.rightBalanced.1
      obtain ⟨first, linked, swung, final, swings, links, swings', maintains, finalHeld, same⟩ :=
        doubleLeft_holds countedHeld countedDistinct bounds
      refine ⟨final, ?_, ?_, (countedSame.mono (by simp)).trans (same.mono (by simp))⟩
      · have rooted : top (grownRight left a (.node (.node far m near middle) b outer (-1)) 1).1 =
            m.1 := by
          rcases bounds with rfl | rfl | rfl <;> rfl
        rw [rooted]
        simp [rightGrown, read_node held.1, done, readRoot, readChild, swings, links, swings',
          maintains, grownRight]
      · rcases bounds with rfl | rfl | rfl <;> exact finalHeld

/-- A node whose left subtree has shrunk is restored as the tree is. -/
theorem leftShrunk_rebuilds (held : Holds heap (.node left a right value))
    (distinct : Distinct (.node left a right value)) (shrunk : ShrunkLeft left right value old) :
    Rebuilds heap (addresses (.node left a right value)) (leftShrunk heap a.1)
      (shrunkLeft left a right value) := by
  rcases shrunk.cases with rfl | rfl | ⟨rfl, inner, b, outer, other, rfl, shape⟩
  · obtain ⟨counted, done, countedHeld, same⟩ := setBalance_root held distinct 0
    refine ⟨counted, ?_, countedHeld, same.mono (by simp)⟩
    simp [leftShrunk, read_node held.1, done, shrunkLeft]
  · obtain ⟨counted, done, countedHeld, same⟩ := setBalance_root held distinct 1
    refine ⟨counted, ?_, countedHeld, same.mono (by simp)⟩
    simp [leftShrunk, read_node held.1, done, shrunkLeft]
  · obtain ⟨counted, done, countedHeld, countedSame⟩ := setBalance_root held distinct 2
    have countedDistinct := distinct.withBalance 2
    have readRoot := read_node countedHeld.1
    have readChild := read_node countedHeld.2.2.1
    rcases shape with rfl | rfl | ⟨rfl, far, m, near, middle, rfl⟩
    · obtain ⟨swung, rooted, final, swings, roots, ⟨node, reads, child⟩, writes, finalHeld, same⟩ :=
        swingLeft_holds countedHeld countedDistinct (-1) 1
      refine ⟨final, ?_, ?_, (countedSame.mono (by simp)).trans (same.mono (by simp))⟩
      · simp [leftShrunk, read_node held.1, done, readRoot, readChild, swings, roots, reads, child,
          writes, shrunkLeft, swl, setBalances]
      · simpa [shrunkLeft, swl, setBalances] using finalHeld
    · obtain ⟨swung, rooted, final, swings, roots, ⟨node, reads, child⟩, writes, finalHeld, same⟩ :=
        swingLeft_holds countedHeld countedDistinct 0 0
      refine ⟨final, ?_, ?_, (countedSame.mono (by simp)).trans (same.mono (by simp))⟩
      · simp [leftShrunk, read_node held.1, done, readRoot, readChild, swings, roots, reads, child,
          writes, shrunkLeft, swl, setBalances]
      · simpa [shrunkLeft, swl, setBalances] using finalHeld
    · have bounds := middle_bounds shrunk.rightBalanced.1
      obtain ⟨first, linked, swung, final, swings, links, swings', maintains, finalHeld, same⟩ :=
        doubleLeft_holds countedHeld countedDistinct bounds
      refine ⟨final, ?_, ?_, (countedSame.mono (by simp)).trans (same.mono (by simp))⟩
      · have rooted : top (shrunkLeft left a (.node (.node far m near middle) b outer (-1)) 1).1 =
            m.1 := by
          rcases bounds with rfl | rfl | rfl <;> rfl
        rw [rooted]
        simp [leftShrunk, read_node held.1, done, readRoot, readChild, swings, links, swings',
          maintains, shrunkLeft]
      · rcases bounds with rfl | rfl | rfl <;> exact finalHeld

/-- A node whose right subtree has shrunk is restored as the tree is. -/
theorem rightShrunk_rebuilds (held : Holds heap (.node left a right value))
    (distinct : Distinct (.node left a right value)) (shrunk : ShrunkRight left right value old) :
    Rebuilds heap (addresses (.node left a right value)) (rightShrunk heap a.1)
      (shrunkRight left a right value) := by
  rcases shrunk.cases with rfl | rfl | ⟨rfl, outer, b, inner, other, rfl, shape⟩
  · obtain ⟨counted, done, countedHeld, same⟩ := setBalance_root held distinct 0
    refine ⟨counted, ?_, countedHeld, same.mono (by simp)⟩
    simp [rightShrunk, read_node held.1, done, shrunkRight]
  · obtain ⟨counted, done, countedHeld, same⟩ := setBalance_root held distinct (-1)
    refine ⟨counted, ?_, countedHeld, same.mono (by simp)⟩
    simp [rightShrunk, read_node held.1, done, shrunkRight]
  · obtain ⟨counted, done, countedHeld, countedSame⟩ := setBalance_root held distinct (-2)
    have countedDistinct := distinct.withBalance (-2)
    have readRoot := read_node countedHeld.1
    have readChild := read_node countedHeld.2.1.1
    rcases shape with rfl | rfl | ⟨rfl, near, m, far, middle, rfl⟩
    · obtain ⟨swung, rooted, final, swings, roots, ⟨node, reads, child⟩, writes, finalHeld, same⟩ :=
        swingRight_holds countedHeld countedDistinct 1 (-1)
      refine ⟨final, ?_, ?_, (countedSame.mono (by simp)).trans (same.mono (by simp))⟩
      · simp [rightShrunk, read_node held.1, done, readRoot, readChild, swings, roots, reads, child,
          writes, shrunkRight, swr, setBalances]
      · simpa [shrunkRight, swr, setBalances] using finalHeld
    · obtain ⟨swung, rooted, final, swings, roots, ⟨node, reads, child⟩, writes, finalHeld, same⟩ :=
        swingRight_holds countedHeld countedDistinct 0 0
      refine ⟨final, ?_, ?_, (countedSame.mono (by simp)).trans (same.mono (by simp))⟩
      · simp [rightShrunk, read_node held.1, done, readRoot, readChild, swings, roots, reads, child,
          writes, shrunkRight, swr, setBalances]
      · simpa [shrunkRight, swr, setBalances] using finalHeld
    · have bounds := middle_bounds shrunk.leftBalanced.2.1
      obtain ⟨first, linked, swung, final, swings, links, swings', maintains, finalHeld, same⟩ :=
        doubleRight_holds countedHeld countedDistinct bounds
      refine ⟨final, ?_, ?_, (countedSame.mono (by simp)).trans (same.mono (by simp))⟩
      · have rooted : top (shrunkRight (.node outer b (.node near m far middle) 1) a right (-1)).1 =
            m.1 := by
          rcases bounds with rfl | rfl | rfl <;> rfl
        rw [rooted]
        simp [rightShrunk, read_node held.1, done, readRoot, readChild, swings, links, swings',
          maintains, shrunkRight]
      · rcases bounds with rfl | rfl | rfl <;> exact finalHeld

end Rebalanced

end PmDebugger
