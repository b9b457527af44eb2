import PmDebugger.SetSwings
import PmDebugger.Library.OrderedSet

/-!
# Insertion and removal over the nodes of an ordered set

The recursions of `m_oset.c` over nodes do to the tree that memory holds what insertion and removal
do to trees.

An insertion does not write the link to a subtree that has grown. This loses nothing: a subtree that
has grown keeps its root. A removal of a node with two children first removes its replacement from
the whole tree, by searching it, and then gives it the links of the node. The search finds the
replacement since it is the greatest or the least of a child, and the root does not move under it.
-/

namespace PmDebugger

open AvlTree
open AvlTree.Tree
open OrderedSet

variable {κ α : Type}

/-- The order of a key and the node of an element. Only the element is compared. -/
def OSetCmp.toNode (cmp : OSetCmp κ α) (k : κ) (node : Nat × α) : Ordering := cmp.compare k node.2

/-- The order of two nodes, by the key of the first. The addresses have no part in it. -/
def OSetCmp.ofNodes (cmp : OSetCmp κ α) (node other : Nat × α) : Ordering :=
  cmp.compare (cmp.keyOf node.2) other.2

section Search

variable {heap : NodeHeap α} {left right tree : AvlTree.Tree (Nat × α)} {a : Nat × α} {value : Int}

/-- The element of a held node. -/
theorem elemOfNode_held (held : Holds heap (.node left a right value)) :
    elemOfNode heap a.1 = .ok a.2 := by
  simp [elemOfNode, read_node held.1]

/-- A key is compared with the element of a held node. -/
theorem slowCmp_held (cmp : OSetCmp κ α) (k : κ) (held : Holds heap (.node left a right value)) :
    slowCmp cmp heap k a.1 = .ok (cmp.toNode k a) := by
  simp [slowCmp, elemOfNode_held held, OSetCmp.toNode]

/-- A node is compared with a held node. -/
theorem cmpKeyRoot_held (cmp : OSetCmp κ α) {n : Nat × α}
    (stands : (heap.cell n.1).map payload = some (osetMagic, n.2))
    (held : Holds heap (.node left a right value)) :
    cmpKeyRoot cmp heap a.1 n.1 = .ok (cmp.ofNodes n a) := by
  obtain ⟨node, here, same⟩ := Option.map_eq_some_iff.mp stands
  obtain ⟨magic, elem⟩ := Prod.mk.inj same
  have read : elemOfNode heap n.1 = .ok n.2 := by
    simp [elemOfNode, read_node here, magic, elem]
  simp [cmpKeyRoot, read, slowCmp_held cmp _ held, OSetCmp.ofNodes, OSetCmp.toNode]

/-- The search over nodes is the search of the tree. -/
theorem avlLookup_held (cmp : OSetCmp κ α) (k : κ) (turns : Nat) (held : Holds heap tree)
    (enough : tree.height < turns) :
    avlLookup cmp heap k turns (top tree) =
      .ok (((tree.lookup (cmp.toNode k)).map (fun found => found.2.1)).getD 0) := by
  induction tree generalizing turns with
  | leaf =>
    obtain ⟨rest, rfl⟩ : ∃ rest, turns = rest + 1 := ⟨turns - 1, by omega⟩
    simp [avlLookup, AvlTree.Tree.lookup]
  | node left here right value leftSearch rightSearch =>
    obtain ⟨rest, rfl⟩ : ∃ rest, turns = rest + 1 := ⟨turns - 1, by omega⟩
    simp only [height_node] at enough
    simp only [top_node, avlLookup, held.top_ne_zero, if_false, slowCmp_held cmp k held,
      except_ok_bind, AvlTree.Tree.lookup, read_node held.1]
    cases compared : cmp.toNode k here with
    | lt => exact leftSearch rest held.2.1 (by omega)
    | gt =>
      simp only [Option.map_map]
      exact rightSearch rest held.2.2 (by omega)
    | eq => rfl

end Search

section Insertion

variable {heap : NodeHeap α} {left right tree : AvlTree.Tree (Nat × α)} {a n : Nat × α}
  {value : Int}

/-- An insertion that meets no match keeps the addresses apart. -/
theorem insert_distinct {key : Nat × α → Ordering} (distinct : Distinct tree)
    (fresh : n.1 ∉ addresses tree) (absent : tree.lookup key = none) :
    (addresses (tree.insert key n).1).Perm (n.1 :: addresses tree) ∧
      Distinct (tree.insert key n).1 := by
  have listed : (addresses (tree.insert key n).1).Perm (n.1 :: addresses tree) :=
    (insert_perm key n tree absent).map Prod.fst
  exact ⟨listed, listed.nodup_iff.mpr (List.nodup_cons.mpr ⟨fresh, distinct⟩)⟩

/-- A subtree that has grown has the root it had. -/
theorem insert_top {key : Nat × α → Ordering} (nonempty : tree ≠ .leaf)
    (taller : (tree.insert key n).2 = true) : top (tree.insert key n).1 = top tree := by
  cases tree with
  | leaf => exact absurd rfl nonempty
  | node left here right value =>
    obtain ⟨left', right', value', shape⟩ := insert_taller taller
    rw [shape, top_node, top_node]

/-- A missing left subtree becomes the new node. -/
theorem avlInsert_left_leaf (cmp : OSetCmp κ α) (turns : Nat)
    (held : Holds heap (.node .leaf a right value))
      (distinct : Distinct (.node .leaf a right value))
    (balanced : (AvlTree.Tree.node .leaf a right value).Balanced)
    (stands : heap.cell n.1 = some ⟨0, 0, 0, osetMagic, n.2⟩)
    (fresh : n.1 ∉ addresses (.node .leaf a right value)) (below : cmp.ofNodes n a = .lt) :
    Rebuilds heap (n.1 :: addresses (.node .leaf a right value))
      (avlInsert cmp n.1 (turns + 1) heap a.1)
      ((AvlTree.Tree.node .leaf a right value).insert (cmp.ofNodes n) n) := by
  have compares := cmpKeyRoot_held cmp (by rw [stands]; rfl) held
  have added : Holds heap (.node .leaf n .leaf 0) := ⟨stands, trivial, trivial⟩
  simp only [mem_addresses_node, not_or] at fresh
  obtain ⟨linked, links, linkedHeld, linkedSame⟩ := setLeft_holds held distinct added
    (sameOutside_refl []) (by simp) (by simpa using Ne.symm fresh.2.1)
  have linkedDistinct : Distinct (.node (.node .leaf n .leaf 0) a right value) := by
    obtain ⟨_, rightDistinct, _, notRight, _⟩ := distinct_node.mp distinct
    refine distinct_node.mpr ⟨by simp [Distinct], rightDistinct, by simpa using Ne.symm fresh.2.1,
      notRight, ?_⟩
    simpa using fresh.2.2
  obtain ⟨final, counts, finalHeld, finalSame⟩ :=
    setBalance_root linkedHeld linkedDistinct (value - 1)
  -- The node is level or leans to the right, so it needs no swing.
  have shape : (AvlTree.Tree.node .leaf a right value).insert (cmp.ofNodes n) n =
      (.node (.node .leaf n .leaf 0) a right (value - 1), decide (value = 0)) := by
    obtain ⟨_, _, stored, low, high⟩ := balanced
    simp only [height_leaf] at stored
    have bounds : value = 0 ∨ value = 1 := by omega
    rcases bounds with rfl | rfl <;> simp [AvlTree.Tree.insert, below, grownLeft]
  rw [shape]
  refine ⟨final, ?_, finalHeld, (linkedSame.mono (by simp)).trans (finalSame.mono (by simp))⟩
  rw [top_node] at links
  simp [avlInsert, compares, below, read_node held.1, links, read_node linkedHeld.1, counts]

/-- A missing right subtree likewise. -/
theorem avlInsert_right_leaf (cmp : OSetCmp κ α) (turns : Nat)
    (held : Holds heap (.node left a .leaf value)) (distinct : Distinct (.node left a .leaf value))
    (balanced : (AvlTree.Tree.node left a .leaf value).Balanced)
    (stands : heap.cell n.1 = some ⟨0, 0, 0, osetMagic, n.2⟩)
    (fresh : n.1 ∉ addresses (.node left a .leaf value)) (above : cmp.ofNodes n a = .gt) :
    Rebuilds heap (n.1 :: addresses (.node left a .leaf value))
      (avlInsert cmp n.1 (turns + 1) heap a.1)
      ((AvlTree.Tree.node left a .leaf value).insert (cmp.ofNodes n) n) := by
  have compares := cmpKeyRoot_held cmp (by rw [stands]; rfl) held
  have added : Holds heap (.node .leaf n .leaf 0) := ⟨stands, trivial, trivial⟩
  simp only [mem_addresses_node, not_or] at fresh
  obtain ⟨linked, links, linkedHeld, linkedSame⟩ := setRight_holds held distinct added
    (sameOutside_refl []) (by simp) (by simpa using Ne.symm fresh.2.1)
  have linkedDistinct : Distinct (.node left a (.node .leaf n .leaf 0) value) := by
    obtain ⟨leftDistinct, _, notLeft, _, _⟩ := distinct_node.mp distinct
    refine distinct_node.mpr ⟨leftDistinct, by simp [Distinct], notLeft,
      by simpa using Ne.symm fresh.2.1, ?_⟩
    intro other member
    have differs : other ≠ n.1 := fun same => fresh.1 (same ▸ member)
    simpa using differs
  obtain ⟨final, counts, finalHeld, finalSame⟩ :=
    setBalance_root linkedHeld linkedDistinct (value + 1)
  have shape : (AvlTree.Tree.node left a .leaf value).insert (cmp.ofNodes n) n =
      (.node left a (.node .leaf n .leaf 0) (value + 1), decide (value = 0)) := by
    obtain ⟨_, _, stored, low, high⟩ := balanced
    simp only [height_leaf] at stored
    have bounds : value = 0 ∨ value = -1 := by omega
    rcases bounds with rfl | rfl <;> simp [AvlTree.Tree.insert, above, grownRight]
  rw [shape]
  refine ⟨final, ?_, finalHeld, (linkedSame.mono (by simp)).trans (finalSame.mono (by simp))⟩
  rw [top_node] at links
  simp [avlInsert, compares, above, read_node held.1, links, read_node linkedHeld.1, counts]

/-- What a subtree becomes by an insertion has no node in common with the rest of the tree. -/
theorem insert_apart {key : Nat × α → Ordering} {rest : List Nat} (distinct : Distinct tree)
    (fresh : n.1 ∉ addresses tree) (absent : tree.lookup key = none) (freshRest : n.1 ∉ rest)
    (apart : ∀ other ∈ addresses tree, other ∉ rest) :
    ∀ other ∈ addresses (tree.insert key n).1, other ∉ rest := by
  intro other member
  have listed := (insert_distinct distinct fresh absent).1
  rcases List.mem_cons.mp (listed.mem_iff.mp member) with rfl | inside
  · exact freshRest
  · exact apart other inside

/-- An insertion to the left, from the insertion into the left subtree. -/
theorem avlInsert_left (cmp : OSetCmp κ α) (turns : Nat)
    (held : Holds heap (.node left a right value)) (distinct : Distinct (.node left a right value))
    (balanced : (AvlTree.Tree.node left a right value).Balanced) (nonempty : left ≠ .leaf)
    (stands : heap.cell n.1 = some ⟨0, 0, 0, osetMagic, n.2⟩)
    (fresh : n.1 ∉ addresses (.node left a right value)) (below : cmp.ofNodes n a = .lt)
    (absent : left.lookup (cmp.ofNodes n) = none)
    (rebuilds : Rebuilds heap (n.1 :: addresses left) (avlInsert cmp n.1 turns heap (top left))
      (left.insert (cmp.ofNodes n) n)) :
    Rebuilds heap (n.1 :: addresses (.node left a right value))
      (avlInsert cmp n.1 (turns + 1) heap a.1)
      ((AvlTree.Tree.node left a right value).insert (cmp.ofNodes n) n) := by
  have compares := cmpKeyRoot_held cmp (by rw [stands]; rfl) held
  have link : top left ≠ 0 := fun zero => nonempty (held.2.1.top_eq_zero.mp zero)
  obtain ⟨leftDistinct, rightDistinct, notLeft, notRight, apart⟩ := distinct_node.mp distinct
  have within : ∀ other ∈ n.1 :: addresses left,
      other ∈ addresses left ∨ other ∉ addresses (.node left a right value) := by
    intro other member
    rcases List.mem_cons.mp member with rfl | inside
    · exact .inr fresh
    · exact .inl inside
  simp only [mem_addresses_node, not_or] at fresh
  obtain ⟨changed, inserts, changedHeld, same⟩ := rebuilds
  obtain ⟨listed, changedDistinct⟩ := insert_distinct leftDistinct fresh.1 absent
  have notChanged : a.1 ∉ addresses (left.insert (cmp.ofNodes n) n).1 := by
    rw [listed.mem_iff, List.mem_cons, not_or]
    exact ⟨Ne.symm fresh.2.1, notLeft⟩
  have wide : n.1 :: addresses left ⊆ n.1 :: addresses (.node left a right value) := by
    intro other member
    simp only [List.mem_cons, mem_addresses_node] at member ⊢
    tauto
  have grew := insert_grew (cmp.ofNodes n) n left balanced.1
  cases taller : (left.insert (cmp.ofNodes n) n).2 with
  | true =>
    rw [taller] at grew inserts
    -- The link to the subtree is right without a write.
    have grownHeld := held.inLeft distinct changedHeld (insert_top nonempty taller) same within
    have grownDistinct : Distinct (.node (left.insert (cmp.ofNodes n) n).1 a right value) :=
      distinct_node.mpr ⟨changedDistinct, rightDistinct, notChanged, notRight,
        insert_apart leftDistinct fresh.1 absent fresh.2.2 apart⟩
    obtain ⟨final, restores, finalHeld, finalSame⟩ :=
      leftGrown_rebuilds grownHeld grownDistinct (grew.onLeft balanced)
    have shape : (AvlTree.Tree.node left a right value).insert (cmp.ofNodes n) n =
        grownLeft (left.insert (cmp.ofNodes n) n).1 a right value := by
      simp [AvlTree.Tree.insert, below, taller]
    rw [shape]
    refine ⟨final, ?_, finalHeld, (same.mono wide).trans (finalSame.mono ?_)⟩
    · simp [avlInsert, compares, below, read_node held.1, link, inserts, restores]
    · intro other member
      simp only [List.mem_cons, mem_addresses_node, listed.mem_iff] at member ⊢
      tauto
  | false =>
    rw [taller] at inserts
    obtain ⟨linked, links, linkedHeld, linkedSame⟩ :=
      setLeft_holds held distinct changedHeld same within notChanged
    have shape : (AvlTree.Tree.node left a right value).insert (cmp.ofNodes n) n =
        (.node (left.insert (cmp.ofNodes n) n).1 a right value, false) := by
      simp [AvlTree.Tree.insert, below, taller]
    rw [shape]
    refine ⟨linked, ?_, linkedHeld, (same.mono wide).trans (linkedSame.mono (by simp))⟩
    simp [avlInsert, compares, below, read_node held.1, link, inserts, links]

/-- An insertion to the right, from the insertion into the right subtree. -/
theorem avlInsert_right (cmp : OSetCmp κ α) (turns : Nat)
    (held : Holds heap (.node left a right value)) (distinct : Distinct (.node left a right value))
    (balanced : (AvlTree.Tree.node left a right value).Balanced) (nonempty : right ≠ .leaf)
    (stands : heap.cell n.1 = some ⟨0, 0, 0, osetMagic, n.2⟩)
    (fresh : n.1 ∉ addresses (.node left a right value)) (above : cmp.ofNodes n a = .gt)
    (absent : right.lookup (cmp.ofNodes n) = none)
    (rebuilds : Rebuilds heap (n.1 :: addresses right) (avlInsert cmp n.1 turns heap (top right))
      (right.insert (cmp.ofNodes n) n)) :
    Rebuilds heap (n.1 :: addresses (.node left a right value))
      (avlInsert cmp n.1 (turns + 1) heap a.1)
      ((AvlTree.Tree.node left a right value).insert (cmp.ofNodes n) n) := by
  have compares := cmpKeyRoot_held cmp (by rw [stands]; rfl) held
  have link : top right ≠ 0 := fun zero => nonempty (held.2.2.top_eq_zero.mp zero)
  obtain ⟨leftDistinct, rightDistinct, notLeft, notRight, apart⟩ := distinct_node.mp distinct
  have within : ∀ other ∈ n.1 :: addresses right,
      other ∈ addresses right ∨ other ∉ addresses (.node left a right value) := by
    intro other member
    rcases List.mem_cons.mp member with rfl | inside
    · exact .inr fresh
    · exact .inl inside
  simp only [mem_addresses_node, not_or] at fresh
  obtain ⟨changed, inserts, changedHeld, same⟩ := rebuilds
  obtain ⟨listed, changedDistinct⟩ := insert_distinct rightDistinct fresh.2.2 absent
  have notChanged : a.1 ∉ addresses (right.insert (cmp.ofNodes n) n).1 := by
    rw [listed.mem_iff, List.mem_cons, not_or]
    exact ⟨Ne.symm fresh.2.1, notRight⟩
  have wide : n.1 :: addresses right ⊆ n.1 :: addresses (.node left a right value) := by
    intro other member
    simp only [List.mem_cons, mem_addresses_node] at member ⊢
    tauto
  have grew := insert_grew (cmp.ofNodes n) n right balanced.2.1
  cases taller : (right.insert (cmp.ofNodes n) n).2 with
  | true =>
    rw [taller] at grew inserts
    have grownHeld := held.inRight distinct changedHeld (insert_top nonempty taller) same within
    have changedApart := insert_apart rightDistinct fresh.2.2 absent fresh.1
      (fun other inside member => apart other member inside)
    have grownDistinct : Distinct (.node left a (right.insert (cmp.ofNodes n) n).1 value) :=
      distinct_node.mpr ⟨leftDistinct, changedDistinct, notLeft, notChanged,
        fun other inside member => changedApart other member inside⟩
    obtain ⟨final, restores, finalHeld, finalSame⟩ :=
      rightGrown_rebuilds grownHeld grownDistinct (grew.onRight balanced)
    have shape : (AvlTree.Tree.node left a right value).insert (cmp.ofNodes n) n =
        grownRight left a (right.insert (cmp.ofNodes n) n).1 value := by
      simp [AvlTree.Tree.insert, above, taller]
    rw [shape]
    refine ⟨final, ?_, finalHeld, (same.mono wide).trans (finalSame.mono ?_)⟩
    · simp [avlInsert, compares, above, read_node held.1, link, inserts, restores]
    · intro other member
      simp only [List.mem_cons, mem_addresses_node, listed.mem_iff] at member ⊢
      tauto
  | false =>
    rw [taller] at inserts
    obtain ⟨linked, links, linkedHeld, linkedSame⟩ :=
      setRight_holds held distinct changedHeld same within notChanged
    have shape : (AvlTree.Tree.node left a right value).insert (cmp.ofNodes n) n =
        (.node left a (right.insert (cmp.ofNodes n) n).1 value, false) := by
      simp [AvlTree.Tree.insert, above, taller]
    rw [shape]
    refine ⟨linked, ?_, linkedHeld, (same.mono wide).trans (linkedSame.mono (by simp))⟩
    simp [avlInsert, compares, above, read_node held.1, link, inserts, links]

/-- An insertion over the nodes of a nonempty tree is that of the tree. -/
theorem avlInsert_rebuilds (cmp : OSetCmp κ α) (turns : Nat) (held : Holds heap tree)
    (distinct : Distinct tree) (balanced : tree.Balanced) (nonempty : tree ≠ .leaf)
    (stands : heap.cell n.1 = some ⟨0, 0, 0, osetMagic, n.2⟩) (fresh : n.1 ∉ addresses tree)
    (absent : tree.lookup (cmp.ofNodes n) = none) (enough : tree.height ≤ turns) :
    Rebuilds heap (n.1 :: addresses tree) (avlInsert cmp n.1 turns heap (top tree))
      (tree.insert (cmp.ofNodes n) n) := by
  induction tree generalizing turns with
  | leaf => exact absurd rfl nonempty
  | node left a right value leftInsert rightInsert =>
    simp only [height_node] at enough
    obtain ⟨rest, rfl⟩ : ∃ rest, turns = rest + 1 := ⟨turns - 1, by omega⟩
    obtain ⟨leftDistinct, rightDistinct, _⟩ := distinct_node.mp distinct
    have freshParts := fresh
    simp only [mem_addresses_node, not_or] at freshParts
    cases compared : cmp.ofNodes n a with
    | lt =>
      simp only [AvlTree.Tree.lookup, compared] at absent
      by_cases empty : left = .leaf
      · subst empty
        exact avlInsert_left_leaf cmp rest held distinct balanced stands fresh compared
      · exact avlInsert_left cmp rest held distinct balanced empty stands fresh compared absent
          (leftInsert rest held.2.1 leftDistinct balanced.1 empty freshParts.1 absent (by omega))
    | gt =>
      simp only [AvlTree.Tree.lookup, compared, Option.map_eq_none_iff] at absent
      by_cases empty : right = .leaf
      · subst empty
        exact avlInsert_right_leaf cmp rest held distinct balanced stands fresh compared
      · exact avlInsert_right cmp rest held distinct balanced empty stands fresh compared absent
          (rightInsert rest held.2.2 rightDistinct balanced.2.1 empty freshParts.2.2 absent
            (by omega))
    | eq => simp [AvlTree.Tree.lookup, compared] at absent

/-- Nor is a match on the way down passed over: the assertion against duplicates fails. -/
theorem avlInsert_duplicate (cmp : OSetCmp κ α) (turns : Nat) (held : Holds heap tree)
    (stands : (heap.cell n.1).map payload = some (osetMagic, n.2))
    (present : tree.lookup (cmp.ofNodes n) ≠ none) (enough : tree.height ≤ turns) :
    avlInsert cmp n.1 turns heap (top tree) = .error .duplicateElement := by
  induction tree generalizing turns with
  | leaf => simp [AvlTree.Tree.lookup] at present
  | node left a right value leftInsert rightInsert =>
    simp only [height_node] at enough
    obtain ⟨rest, rfl⟩ : ∃ rest, turns = rest + 1 := ⟨turns - 1, by omega⟩
    have compares := cmpKeyRoot_held cmp stands held
    cases compared : cmp.ofNodes n a with
    | lt =>
      simp only [AvlTree.Tree.lookup, compared] at present
      have link : top left ≠ 0 := by
        rw [ne_eq, held.2.1.top_eq_zero]
        rintro rfl
        simp [AvlTree.Tree.lookup] at present
      have fails := leftInsert rest held.2.1 present (by omega)
      simp [avlInsert, compares, compared, read_node held.1, link, fails]
      rfl
    | gt =>
      simp only [AvlTree.Tree.lookup, compared, ne_eq, Option.map_eq_none_iff] at present
      have link : top right ≠ 0 := by
        rw [ne_eq, held.2.2.top_eq_zero]
        rintro rfl
        simp [AvlTree.Tree.lookup] at present
      have fails := rightInsert rest held.2.2 present (by omega)
      simp [avlInsert, compares, compared, read_node held.1, link, fails]
      rfl
    | eq =>
      simp [avlInsert, compares, compared]
      rfl

end Insertion

section Removal

variable {heap : NodeHeap α} {left right tree rest : AvlTree.Tree (Nat × α)} {a n : Nat × α}
  {value : Int} {shorter : Bool}

/-- A node of a held tree stands in memory with its element. -/
theorem Holds.payload_mem (held : Holds heap tree) (member : n ∈ tree.toList) :
    (heap.cell n.1).map payload = some (osetMagic, n.2) := by
  induction tree with
  | leaf => simp [toList] at member
  | node left a right value leftMem rightMem =>
    simp only [toList, List.mem_append, List.mem_cons] at member
    rcases member with inLeft | rfl | inRight
    · exact leftMem held.2.1 inLeft
    · rw [held.1]
      rfl
    · exact rightMem held.2.2 inRight

/-- Fewer nodes are still apart. -/
theorem Distinct.sublist (distinct : Distinct tree) (sub : rest.toList.Sublist tree.toList) :
    Distinct rest ∧ addresses rest ⊆ addresses tree :=
  ⟨(sub.map Prod.fst).nodup distinct, (sub.map Prod.fst).subset⟩

/-- A removal to the left, from the removal from the left subtree. -/
theorem avlRemove_left (cmp : OSetCmp κ α) (turns : Nat)
    (held : Holds heap (.node left a right value)) (distinct : Distinct (.node left a right value))
    (balanced : (AvlTree.Tree.node left a right value).Balanced)
    (stands : (heap.cell n.1).map payload = some (osetMagic, n.2)) (nonempty : left ≠ .leaf)
    (below : cmp.ofNodes n a = .lt)
    (rebuilds : Rebuilds heap (addresses left) (avlRemove cmp n.1 turns heap (top left))
      (rest, shorter))
    (sub : rest.toList.Sublist left.toList) (shrank : Shrank rest left.height shorter) :
    Rebuilds heap (addresses (.node left a right value)) (avlRemove cmp n.1 (turns + 1) heap a.1)
      (if shorter then shrunkLeft rest a right value else (.node rest a right value, false)) := by
  have compares := cmpKeyRoot_held cmp stands held
  have link : top left ≠ 0 := fun zero => nonempty (held.2.1.top_eq_zero.mp zero)
  obtain ⟨leftDistinct, rightDistinct, notLeft, notRight, apart⟩ := distinct_node.mp distinct
  obtain ⟨restDistinct, within⟩ := leftDistinct.sublist sub
  obtain ⟨changed, removes, changedHeld, same⟩ := rebuilds
  obtain ⟨linked, links, linkedHeld, linkedSame⟩ := setLeft_holds held distinct changedHeld same
    (fun _ member => .inl member) (fun member => notLeft (within member))
  have linkedDistinct : Distinct (.node rest a right value) :=
    distinct_node.mpr ⟨restDistinct, rightDistinct, fun member => notLeft (within member), notRight,
      fun other member => apart other (within member)⟩
  have sofar : SameOutside (addresses (.node left a right value)) heap linked :=
    (same.mono (by simp)).trans (linkedSame.mono (by simp))
  cases shorter with
  | true =>
    obtain ⟨final, restores, finalHeld, finalSame⟩ :=
      leftShrunk_rebuilds linkedHeld linkedDistinct (shrank.onLeft balanced)
    refine ⟨final, ?_, finalHeld, sofar.trans (finalSame.mono ?_)⟩
    · simp [avlRemove, compares, below, read_node held.1, link, removes, links, restores]
    · intro other member
      simp only [mem_addresses_node] at member ⊢
      exact member.imp_left (fun inside => within inside)
  | false =>
    refine ⟨linked, ?_, linkedHeld, sofar⟩
    simp [avlRemove, compares, below, read_node held.1, link, removes, links]

/-- A removal to the right, from the removal from the right subtree. -/
theorem avlRemove_right (cmp : OSetCmp κ α) (turns : Nat)
    (held : Holds heap (.node left a right value)) (distinct : Distinct (.node left a right value))
    (balanced : (AvlTree.Tree.node left a right value).Balanced)
    (stands : (heap.cell n.1).map payload = some (osetMagic, n.2)) (nonempty : right ≠ .leaf)
    (above : cmp.ofNodes n a = .gt)
    (rebuilds : Rebuilds heap (addresses right) (avlRemove cmp n.1 turns heap (top right))
      (rest, shorter))
    (sub : rest.toList.Sublist right.toList) (shrank : Shrank rest right.height shorter) :
    Rebuilds heap (addresses (.node left a right value)) (avlRemove cmp n.1 (turns + 1) heap a.1)
      (if shorter then shrunkRight left a rest value else (.node left a rest value, false)) := by
  have compares := cmpKeyRoot_held cmp stands held
  have link : top right ≠ 0 := fun zero => nonempty (held.2.2.top_eq_zero.mp zero)
  obtain ⟨leftDistinct, rightDistinct, notLeft, notRight, apart⟩ := distinct_node.mp distinct
  obtain ⟨restDistinct, within⟩ := rightDistinct.sublist sub
  obtain ⟨changed, removes, changedHeld, same⟩ := rebuilds
  obtain ⟨linked, links, linkedHeld, linkedSame⟩ := setRight_holds held distinct changedHeld same
    (fun _ member => .inl member) (fun member => notRight (within member))
  have linkedDistinct : Distinct (.node left a rest value) :=
    distinct_node.mpr ⟨leftDistinct, restDistinct, notLeft, fun member => notRight (within member),
      fun other member inside => apart other member (within inside)⟩
  have sofar : SameOutside (addresses (.node left a right value)) heap linked :=
    (same.mono (by simp)).trans (linkedSame.mono (by simp))
  cases shorter with
  | true =>
    obtain ⟨final, restores, finalHeld, finalSame⟩ :=
      rightShrunk_rebuilds linkedHeld linkedDistinct (shrank.onRight balanced)
    refine ⟨final, ?_, finalHeld, sofar.trans (finalSame.mono ?_)⟩
    · simp [avlRemove, compares, above, read_node held.1, link, removes, links, restores]
    · intro other member
      simp only [mem_addresses_node] at member ⊢
      exact member.imp_right (fun inside => inside.imp_right (fun behind => within behind))
  | false =>
    refine ⟨linked, ?_, linkedHeld, sofar⟩
    simp [avlRemove, compares, above, read_node held.1, link, removes, links]

/-- An ordered tree has ordered children, with its element between them. -/
theorem ordered_node {cmp : Nat × α → Nat × α → Ordering}
    (ordered : Ordered cmp (AvlTree.Tree.node left a right value).toList) :
    Ordered cmp left.toList ∧ Ordered cmp right.toList ∧ (∀ n ∈ left.toList, cmp n a = .lt) ∧
      ∀ n ∈ right.toList, cmp n a = .gt := by
  obtain ⟨leftOrdered, rest, across⟩ := List.pairwise_append.mp ordered
  obtain ⟨fromRoot, rightOrdered⟩ := List.pairwise_cons.mp rest
  exact ⟨leftOrdered, rightOrdered, fun n member => (across n member a (by simp)).1,
    fun n member => (fromRoot n member).2⟩

/-- The greatest node is found along the right links. -/
theorem rightmost_held (turns : Nat) (held : Holds heap tree)
    (detached : detachMax tree = some (n, rest, shorter)) (enough : tree.height ≤ turns) :
    rightmost heap turns (top tree) = .ok n.1 := by
  induction tree generalizing turns rest shorter with
  | leaf => simp [detachMax] at detached
  | node left a right value _ rightFound =>
    simp only [height_node] at enough
    obtain ⟨few, rfl⟩ : ∃ few, turns = few + 1 := ⟨turns - 1, by omega⟩
    rcases detachMax_toList right with ⟨none, rfl⟩ | ⟨greatest, behind, lower, some, _⟩
    · simp only [detachMax, Option.some.injEq, Prod.mk.injEq] at detached
      obtain ⟨rfl, _⟩ := detached
      simp [rightmost, read_node held.1]
    · have link : top right ≠ 0 := by
        rw [ne_eq, held.2.2.top_eq_zero]
        rintro rfl
        simp [detachMax] at some
      simp only [detachMax, some, Option.some.injEq, Prod.mk.injEq] at detached
      obtain ⟨rfl, _⟩ := detached
      simp only [top_node, rightmost, read_node held.1, except_ok_bind, link, ne_eq,
        not_false_eq_true, if_true]
      exact rightFound few held.2.2 some (by omega)

/-- The least node is found along the left links. -/
theorem leftmost_held (turns : Nat) (held : Holds heap tree)
    (detached : detachMin tree = some (n, rest, shorter)) (enough : tree.height ≤ turns) :
    leftmost heap turns (top tree) = .ok n.1 := by
  induction tree generalizing turns rest shorter with
  | leaf => simp [detachMin] at detached
  | node left a right value leftFound _ =>
    simp only [height_node] at enough
    obtain ⟨few, rfl⟩ : ∃ few, turns = few + 1 := ⟨turns - 1, by omega⟩
    rcases detachMin_toList left with ⟨none, rfl⟩ | ⟨least, behind, lower, some, _⟩
    · simp only [detachMin, Option.some.injEq, Prod.mk.injEq] at detached
      obtain ⟨rfl, _⟩ := detached
      simp [leftmost, read_node held.1]
    · have link : top left ≠ 0 := by
        rw [ne_eq, held.2.1.top_eq_zero]
        rintro rfl
        simp [detachMin] at some
      simp only [detachMin, some, Option.some.injEq, Prod.mk.injEq] at detached
      obtain ⟨rfl, _⟩ := detached
      simp only [top_node, leftmost, read_node held.1, except_ok_bind, link, ne_eq,
        not_false_eq_true, if_true]
      exact leftFound few held.2.1 some (by omega)

/-- A root without a left child is replaced by its right child. -/
theorem avlRemoveroot_noLeft (cmp : OSetCmp κ α) (turns : Nat)
    (held : Holds heap (.node .leaf a right value)) :
    Rebuilds heap [] (avlRemoveroot cmp (turns + 1) heap a.1) (right, true) := by
  refine ⟨heap, ?_, held.2.2, sameOutside_refl []⟩
  simp only [avlRemoveroot, read_node held.1, except_ok_bind, top_leaf, if_true, except_pure]
  split
  · next zero => rw [zero]
  · rfl

/-- A root without a right child is replaced by its left child. -/
theorem avlRemoveroot_noRight (cmp : OSetCmp κ α) (turns : Nat)
    (held : Holds heap (.node left a .leaf value)) :
    Rebuilds heap [] (avlRemoveroot cmp (turns + 1) heap a.1) (left, true) := by
  refine ⟨heap, ?_, held.2.1, sameOutside_refl []⟩
  simp only [avlRemoveroot, read_node held.1, except_ok_bind, top_leaf, if_true, except_pure]
  split
  · next zero => rw [zero]
  · rfl

/-- A search for the greatest node removes it. -/
theorem avlRemove_greatest (cmp : OSetCmp κ α) (turns : Nat) (held : Holds heap tree)
    (distinct : Distinct tree) (balanced : tree.Balanced)
    (ordered : Ordered cmp.ofNodes tree.toList)
    (reflexive : ∀ node ∈ tree.toList, cmp.ofNodes node node = .eq)
    (detached : detachMax tree = some (n, rest, shorter)) (enough : tree.height < turns) :
    Rebuilds heap (addresses tree) (avlRemove cmp n.1 turns heap (top tree)) (rest, shorter) := by
  induction tree generalizing turns rest shorter with
  | leaf => simp [detachMax] at detached
  | node left a right value _ rightRemove =>
    simp only [height_node] at enough
    obtain ⟨few, rfl⟩ : ∃ few, turns = few + 2 := ⟨turns - 2, by omega⟩
    rcases detachMax_toList right with ⟨none, rfl⟩ | ⟨greatest, behind, lower, some, listed⟩
    · simp only [detachMax, Option.some.injEq, Prod.mk.injEq] at detached
      obtain ⟨rfl, rfl, rfl⟩ := detached
      have itself := reflexive a (by simp [toList])
      have stands : (heap.cell a.1).map payload = some (osetMagic, a.2) :=
        held.payload_mem (by simp [toList])
      have compares := cmpKeyRoot_held cmp stands held
      obtain ⟨final, removes, finalHeld, same⟩ := avlRemoveroot_noRight cmp few held
      refine ⟨final, ?_, finalHeld, same.mono (by simp)⟩
      simp [avlRemove, compares, itself, removes]
    · simp only [detachMax, some, Option.some.injEq, Prod.mk.injEq] at detached
      obtain ⟨rfl, shape, flag⟩ := detached
      have inside : greatest ∈ right.toList := by simp [listed]
      obtain ⟨_, rightOrdered, _, above⟩ := ordered_node ordered
      have nonempty : right ≠ .leaf := by
        rintro rfl
        simp [detachMax] at some
      have rebuilds := rightRemove (few + 1) held.2.2 (distinct_node.mp distinct).2.1 balanced.2.1
        rightOrdered (fun node member => reflexive node (by simp [toList, member])) some (by omega)
      have whole := avlRemove_right cmp (few + 1) held distinct balanced
        (held.payload_mem (by simp [toList, inside])) nonempty (above greatest inside) rebuilds
        (by simp [listed]) (detachMax_shrank balanced.2.1 some)
      have result : (if lower then shrunkRight left a behind value
          else (.node left a behind value, false)) = (rest, shorter) := Prod.ext shape flag
      rw [result] at whole
      exact whole

/-- A search for the least node removes it. -/
theorem avlRemove_least (cmp : OSetCmp κ α) (turns : Nat) (held : Holds heap tree)
    (distinct : Distinct tree) (balanced : tree.Balanced)
    (ordered : Ordered cmp.ofNodes tree.toList)
    (reflexive : ∀ node ∈ tree.toList, cmp.ofNodes node node = .eq)
    (detached : detachMin tree = some (n, rest, shorter)) (enough : tree.height < turns) :
    Rebuilds heap (addresses tree) (avlRemove cmp n.1 turns heap (top tree)) (rest, shorter) := by
  induction tree generalizing turns rest shorter with
  | leaf => simp [detachMin] at detached
  | node left a right value leftRemove _ =>
    simp only [height_node] at enough
    obtain ⟨few, rfl⟩ : ∃ few, turns = few + 2 := ⟨turns - 2, by omega⟩
    rcases detachMin_toList left with ⟨none, rfl⟩ | ⟨least, behind, lower, some, listed⟩
    · simp only [detachMin, Option.some.injEq, Prod.mk.injEq] at detached
      obtain ⟨rfl, rfl, rfl⟩ := detached
      have itself := reflexive a (by simp [toList])
      have stands : (heap.cell a.1).map payload = some (osetMagic, a.2) :=
        held.payload_mem (by simp [toList])
      have compares := cmpKeyRoot_held cmp stands held
      obtain ⟨final, removes, finalHeld, same⟩ := avlRemoveroot_noLeft cmp few held
      refine ⟨final, ?_, finalHeld, same.mono (by simp)⟩
      simp [avlRemove, compares, itself, removes]
    · simp only [detachMin, some, Option.some.injEq, Prod.mk.injEq] at detached
      obtain ⟨rfl, shape, flag⟩ := detached
      have inside : least ∈ left.toList := by simp [listed]
      obtain ⟨leftOrdered, _, below, _⟩ := ordered_node ordered
      have nonempty : left ≠ .leaf := by
        rintro rfl
        simp [detachMin] at some
      have rebuilds := leftRemove (few + 1) held.2.1 (distinct_node.mp distinct).1 balanced.1
        leftOrdered (fun node member => reflexive node (by simp [toList, member])) some (by omega)
      have whole := avlRemove_left cmp (few + 1) held distinct balanced
        (held.payload_mem (by simp [toList, inside])) nonempty (below least inside) rebuilds
        (by simp [listed]) (detachMin_shrank balanced.1 some)
      have result : (if lower then shrunkLeft behind a right value
          else (.node behind a right value, false)) = (rest, shorter) := Prod.ext shape flag
      rw [result] at whole
      exact whole

/-- The replacement takes the place of the root. -/
theorem replace_root {final : NodeHeap α} {leftRest rightRest : AvlTree.Tree (Nat × α)}
    {written : Int} (finalHeld : Holds final (.node leftRest a rightRest written))
    (stands : (final.cell n.1).map payload = some (osetMagic, n.2))
    (notLeft : n.1 ∉ addresses leftRest) (notRight : n.1 ∉ addresses rightRest) :
    ∃ first second third, final.setLeft n.1 (top leftRest) = .ok first ∧
      first.setRight n.1 (top rightRest) = .ok second ∧
      second.setBalance n.1 written = .ok third ∧
      Holds third (.node leftRest n rightRest written) ∧ SameOutside [n.1] final third := by
  obtain ⟨node, here, same⟩ := Option.map_eq_some_iff.mp stands
  obtain ⟨magic, elem⟩ := Prod.mk.inj same
  obtain ⟨_, leftHeld, rightHeld⟩ := finalHeld
  let relink : OSetNode α → OSetNode α := fun node => { node with left := top leftRest }
  let relink' : OSetNode α → OSetNode α := fun node => { node with right := top rightRest }
  have firstCell := modify_cell here relink
  have firstSame : SameOutside [n.1] final (final.modify n.1 relink) :=
    sameOutside_modify (fun _ => rfl)
  have secondCell := modify_cell firstCell relink'
  have secondSame : SameOutside [n.1] (final.modify n.1 relink)
      ((final.modify n.1 relink).modify n.1 relink') := sameOutside_modify (fun _ => rfl)
  have apartLeft : ∀ other ∈ addresses leftRest, other ∉ [n.1] := by
    intro other member here
    rw [List.mem_singleton] at here
    exact notLeft (here ▸ member)
  have apartRight : ∀ other ∈ addresses rightRest, other ∉ [n.1] := by
    intro other member here
    rw [List.mem_singleton] at here
    exact notRight (here ▸ member)
  have both := firstSame.trans secondSame
  obtain ⟨counts, thirdHeld, thirdSame⟩ := @update_holds _ _ leftRest rightRest n written _
    (fun node => { node with balance := written }) secondCell
    (by simp only [relink, relink', magic, elem]) (fun _ => rfl) (leftHeld.frame both apartLeft)
    (rightHeld.frame both apartRight) notLeft notRight
  exact ⟨_, _, _, update_node here relink, update_node firstCell relink', counts, thirdHeld,
    both.trans thirdSame⟩

/-- A root with two children gives way to a node that is removed from one of them without a swing at
the root. -/
theorem avlRemoveroot_replaces (cmp : OSetCmp κ α) (turns : Nat)
    {leftRest rightRest : AvlTree.Tree (Nat × α)} {written : Int}
    (held : Holds heap (.node left a right value)) (leftNonempty : left ≠ .leaf)
    (rightNonempty : right ≠ .leaf) (member : n ∈ (AvlTree.Tree.node left a right value).toList)
    (selected : (if value < 0 then rightmost heap turns (top left)
      else leftmost heap turns (top right)) = .ok n.1)
    (removed : Rebuilds heap (addresses (.node left a right value))
      (avlRemove cmp n.1 turns heap a.1) (.node leftRest a rightRest written, shorter))
    (notLeft : n.1 ∉ addresses leftRest) (notRight : n.1 ∉ addresses rightRest) :
    Rebuilds heap (addresses (.node left a right value)) (avlRemoveroot cmp (turns + 1) heap a.1)
      (.node leftRest n rightRest written, if written = 0 then shorter else false) := by
  have leftLink : top left ≠ 0 := fun zero => leftNonempty (held.2.1.top_eq_zero.mp zero)
  have rightLink : top right ≠ 0 := fun zero => rightNonempty (held.2.2.top_eq_zero.mp zero)
  obtain ⟨final, removes, finalHeld, same⟩ := removed
  have stands : (final.cell n.1).map payload = some (osetMagic, n.2) :=
    (same.payloads n.1).trans (held.payload_mem member)
  obtain ⟨first, second, third, links, links', counts, thirdHeld, thirdSame⟩ :=
    replace_root finalHeld stands notLeft notRight
  refine ⟨third, ?_, thirdHeld, same.trans (thirdSame.mono ?_)⟩
  · simp only [top_node] at removes
    split at selected
    · next lean =>
      simp only [avlRemoveroot, read_node held.1, except_ok_bind, leftLink, rightLink,
        if_false, lean,
        if_true, selected, removes, read_node finalHeld.1, links, links', counts, except_pure,
        top_node]
      split <;> rfl
    · next lean =>
      simp only [avlRemoveroot, read_node held.1, except_ok_bind, leftLink, rightLink,
        if_false, lean,
        selected, removes, read_node finalHeld.1, links, links', counts, except_pure, top_node]
      split <;> rfl
  · intro other here
    rw [List.mem_singleton.mp here]
    exact List.mem_map_of_mem member

/-- A root with two children gives way to the node next to it, taken from the higher side. -/
theorem avlRemoveroot_rebuilds (cmp : OSetCmp κ α) (turns : Nat)
    (held : Holds heap (.node left a right value)) (distinct : Distinct (.node left a right value))
    (balanced : (AvlTree.Tree.node left a right value).Balanced)
    (ordered : Ordered cmp.ofNodes (AvlTree.Tree.node left a right value).toList)
    (reflexive : ∀ node ∈ (AvlTree.Tree.node left a right value).toList,
      cmp.ofNodes node node = .eq)
    (enough : (AvlTree.Tree.node left a right value).height + 2 ≤ turns) :
    Rebuilds heap (addresses (.node left a right value)) (avlRemoveroot cmp turns heap a.1)
      (removeRoot left right value) := by
  simp only [height_node] at enough
  obtain ⟨few, rfl⟩ : ∃ few, turns = few + 2 := ⟨turns - 2, by omega⟩
  obtain ⟨leftOrdered, rightOrdered, below, above⟩ := ordered_node ordered
  obtain ⟨leftDistinct, rightDistinct, notLeft, notRight, apart⟩ := distinct_node.mp distinct
  rcases detachMax_toList left with ⟨none, rfl⟩ | ⟨greatest, leftRest, leftLower, most, leftListed⟩
  · obtain ⟨final, removes, finalHeld, same⟩ := avlRemoveroot_noLeft cmp (few + 1) held
    simp only [removeRoot, none]
    exact ⟨final, removes, finalHeld, same.mono (by simp)⟩
  rcases detachMin_toList right with ⟨none, rfl⟩ | ⟨least, rightRest, rightLower, first,
      rightListed⟩
  · obtain ⟨final, removes, finalHeld, same⟩ := avlRemoveroot_noRight cmp (few + 1) held
    simp only [removeRoot, most, none]
    exact ⟨final, removes, finalHeld, same.mono (by simp)⟩
  have leftNonempty : left ≠ .leaf := by
    rintro rfl
    simp [detachMax] at most
  have rightNonempty : right ≠ .leaf := by
    rintro rfl
    simp [detachMin] at first
  simp only [removeRoot, most, first]
  have low : -1 ≤ value := balanced.2.2.2.1
  have high : value ≤ 1 := balanced.2.2.2.2
  by_cases lean : value < 0
  · have inside : greatest ∈ left.toList := by simp [leftListed]
    have member : greatest ∈ (AvlTree.Tree.node left a right
        value).toList := by simp [toList, inside]
    have address : greatest.1 ∈ addresses left := List.mem_map_of_mem inside
    have gone : greatest.1 ∉ addresses leftRest := by
      have listed : addresses left = addresses leftRest ++ [greatest.1] := by
        simp [addresses, leftListed]
      rw [Distinct, listed, List.nodup_append] at leftDistinct
      intro again
      exact leftDistinct.2.2 _ again _ (List.mem_singleton.mpr rfl) rfl
    have taken := avlRemove_greatest cmp few held.2.1 leftDistinct balanced.1 leftOrdered
      (fun node member => reflexive node (by simp [toList, member])) most (by omega)
    have whole := avlRemove_left cmp few held distinct balanced (held.payload_mem member)
      leftNonempty (below greatest inside) taken (by simp [leftListed])
      (detachMax_shrank balanced.1 most)
    obtain rfl : value = -1 := by omega
    rw [if_pos lean]
    have selected := rightmost_held (few + 1) held.2.1 most (by omega)
    cases leftLower with
    | true =>
      exact avlRemoveroot_replaces cmp (few + 1) held leftNonempty rightNonempty member
        (by rw [if_pos lean, selected]) whole gone (apart greatest.1 address)
    | false =>
      exact avlRemoveroot_replaces cmp (few + 1) held leftNonempty rightNonempty member
        (by rw [if_pos lean, selected]) whole gone (apart greatest.1 address)
  · have inside : least ∈ right.toList := by simp [rightListed]
    have member : least ∈ (AvlTree.Tree.node left a right value).toList := by simp [toList, inside]
    have address : least.1 ∈ addresses right := List.mem_map_of_mem inside
    have gone : least.1 ∉ addresses rightRest := by
      have listed : addresses right = least.1 :: addresses rightRest := by
        simp [addresses, rightListed]
      rw [Distinct, listed, List.nodup_cons] at rightDistinct
      exact rightDistinct.1
    have taken := avlRemove_least cmp few held.2.2 rightDistinct balanced.2.1 rightOrdered
      (fun node member => reflexive node (by simp [toList, member])) first (by omega)
    have whole := avlRemove_right cmp few held distinct balanced (held.payload_mem member)
      rightNonempty (above least inside) taken (by simp [rightListed])
      (detachMin_shrank balanced.2.1 first)
    rw [if_neg lean]
    have selected := leftmost_held (few + 1) held.2.2 first (by omega)
    have bounds : value = 0 ∨ value = 1 := by omega
    rcases bounds with rfl | rfl
    all_goals
      cases rightLower with
      | true =>
        exact avlRemoveroot_replaces cmp (few + 1) held leftNonempty rightNonempty member
          (by rw [if_neg lean, selected]) whole (fun again => apart least.1 again address) gone
      | false =>
        exact avlRemoveroot_replaces cmp (few + 1) held leftNonempty rightNonempty member
          (by rw [if_neg lean, selected]) whole (fun again => apart least.1 again address) gone

/-- What is left by a removal stands in the order in which it stood. -/
theorem remove_sublist (key : Nat × α → Ordering) (tree : AvlTree.Tree (Nat × α)) :
    (tree.remove key).1.toList.Sublist tree.toList := by
  induction tree with
  | leaf => exact List.Sublist.refl _
  | node left a right value leftRemove rightRemove =>
    cases compared : key a with
    | lt =>
      have listed : ((AvlTree.Tree.node left a right value).remove key).1.toList =
          (left.remove key).1.toList ++ a :: right.toList := by
        simp only [AvlTree.Tree.remove, compared]
        split <;> simp [toList]
      rw [listed]
      exact leftRemove.append_right _
    | gt =>
      have listed : ((AvlTree.Tree.node left a right value).remove key).1.toList =
          left.toList ++ a :: (right.remove key).1.toList := by
        simp only [AvlTree.Tree.remove, compared]
        split <;> simp [toList]
      rw [listed]
      exact (rightRemove.cons_cons a).append_left _
    | eq =>
      simp only [AvlTree.Tree.remove, compared, removeRoot_toList, toList]
      exact (List.sublist_cons_self a _).append_left _

/-- A removal over the nodes of an ordered tree is that of the tree. -/
theorem avlRemove_rebuilds (cmp : OSetCmp κ α) (turns : Nat) (held : Holds heap tree)
    (distinct : Distinct tree) (balanced : tree.Balanced)
    (ordered : Ordered cmp.ofNodes tree.toList)
    (reflexive : ∀ node ∈ tree.toList, cmp.ofNodes node node = .eq) (member : n ∈ tree.toList)
    (enough : tree.height + 3 ≤ turns) :
    Rebuilds heap (addresses tree) (avlRemove cmp n.1 turns heap (top tree))
      (tree.remove (cmp.ofNodes n)) := by
  induction tree generalizing turns with
  | leaf => simp [toList] at member
  | node left a right value leftRemove rightRemove =>
    simp only [height_node] at enough
    obtain ⟨few, rfl⟩ : ∃ few, turns = few + 1 := ⟨turns - 1, by omega⟩
    obtain ⟨leftOrdered, rightOrdered, below, above⟩ := ordered_node ordered
    obtain ⟨leftDistinct, rightDistinct, _⟩ := distinct_node.mp distinct
    have stands := held.payload_mem member
    simp only [toList, List.mem_append, List.mem_cons] at member
    rcases member with inLeft | rfl | inRight
    · have rebuilds := leftRemove few held.2.1 leftDistinct balanced.1 leftOrdered
        (fun node member => reflexive node (by simp [toList, member])) inLeft (by omega)
      have nonempty : left ≠ .leaf := by
        rintro rfl
        simp [toList] at inLeft
      have whole := avlRemove_left cmp few held distinct balanced stands nonempty (below n inLeft)
        rebuilds (remove_sublist _ left) (remove_shrank _ left balanced.1)
      simpa only [AvlTree.Tree.remove, below n inLeft, top_node] using whole
    · have itself := reflexive n (by simp [toList])
      have compares := cmpKeyRoot_held cmp stands held
      obtain ⟨final, removes, finalHeld, same⟩ := avlRemoveroot_rebuilds cmp few held distinct
        balanced ordered reflexive (by simp only [height_node]; omega)
      simp only [AvlTree.Tree.remove, itself]
      refine ⟨final, ?_, finalHeld, same⟩
      simp [avlRemove, compares, itself, removes]
    · have rebuilds := rightRemove few held.2.2 rightDistinct balanced.2.1 rightOrdered
        (fun node member => reflexive node (by simp [toList, member])) inRight (by omega)
      have nonempty : right ≠ .leaf := by
        rintro rfl
        simp [toList] at inRight
      have whole := avlRemove_right cmp few held distinct balanced stands nonempty (above n inRight)
        rebuilds (remove_sublist _ right) (remove_shrank _ right balanced.2.1)
      simpa only [AvlTree.Tree.remove, above n inRight, top_node] using whole

end Removal

end PmDebugger
