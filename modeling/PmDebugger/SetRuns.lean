import PmDebugger.Records
import PmDebugger.SetWalks

/-!
# Runs of an ordered set

The functions of `m_oset.c` in any order, on a set that starts empty. As long as its callers keep to
the contract of the header, no assertion of the source fails and no null or dangling pointer is
followed. Every answer is that of an ordered set, and memory holds a balanced tree all along.

The contract: a node that is inserted is not in the set and matches none of its elements; an element
is edited only so that the order of the set stays. One bound is the model's to find: the stack of a
walk has room for 32 nodes, which is enough for fewer than 9227464 elements.
-/

namespace PmDebugger

open AvlTree
open AvlTree.Tree
open OrderedSet

variable {κ α : Type}

/-- Fewer elements than a balanced tree that is higher than the stack. An insertion has to keep
the set below it. -/
def walkLimit : Nat := 9227464

/-- The limit is one less than a number of Fibonacci: a balanced tree of that height has no
fewer elements. -/
theorem walkLimit_fib : walkLimit + 1 = Nat.fib (stackMax + 1 + 2) := by decide +kernel

/-- What a comparison of elements has to satisfy, for the elements that a set may hold. -/
structure LawfulCmp (cmp : OSetCmp κ α) (valid : α → Prop) : Prop where
  reflexive : ∀ elem, valid elem → cmp.compare (cmp.keyOf elem) elem = .eq
  swap : ∀ elem other, valid elem → valid other →
    (cmp.compare (cmp.keyOf elem) other = .lt ↔ cmp.compare (cmp.keyOf other) elem = .gt)
  trans : ∀ first second third, valid first → valid second → valid third →
    cmp.compare (cmp.keyOf first) second = .lt → cmp.compare (cmp.keyOf second) third = .lt →
      cmp.compare (cmp.keyOf first) third = .lt

/-- What is left of the walk of a set: the elements from its position on, or nothing if it has
ended or was discarded. -/
def restOfWalk (set : OSet (Nat × α)) : List (Nat × α) :=
  match set.iter with
  | none => []
  | some position => set.toList.drop position

/-- The nodes in memory and the record of a set stand for an ordered set of nodes. -/
structure Represents (cmp : OSetCmp κ α) (valid : α → Prop) (heap : NodeHeap α) (set : NodeSet)
    (model : OSet (Nat × α)) : Prop where
  held : Holds heap model.root
  only : ∀ n, n ∉ addresses model.root → heap.cell n = none
  root : set.root = top model.root
  distinct : Distinct model.root
  balanced : model.root.Balanced
  count : set.nElems = model.size
  small : model.size < walkLimit
  ordered : Ordered cmp.ofNodes model.toList
  valid : ∀ node ∈ model.toList, valid node.2
  unique : model.duplicate = false
  walk : Stacked heap model.root.height set.stack (restOfWalk model) 0

section Sets

variable {cmp : OSetCmp κ α} {valid : α → Prop} {heap : NodeHeap α} {set : NodeSet}
  {model : OSet (Nat × α)}

/-- An empty set. -/
theorem create_represents : Represents cmp valid NodeHeap.empty osetGenCreate OSet.create where
  held := trivial
  only := fun _ _ => rfl
  root := rfl
  distinct := List.nodup_nil
  balanced := trivial
  count := rfl
  small := by
    change 0 < walkLimit
    decide
  ordered := List.Pairwise.nil
  valid := by simp
  unique := rfl
  walk := .done (Nat.zero_le _)

/-- The tree fits on the stack. -/
theorem Represents.fits (represents : Represents cmp valid heap set model) :
    model.root.height ≤ stackMax := by
  have small := represents.small
  have limit := walkLimit_fib
  have few : model.root.size + 1 < Nat.fib (stackMax + 1 + 2) := by
    rw [size_eq_length]
    unfold OSet.size OSet.toList at small
    omega
  exact Nat.lt_succ_iff.mp (height_lt_of_size model.root represents.balanced few)

/-- The tree is no higher than the count. -/
theorem Represents.low (represents : Represents cmp valid heap set model) :
    model.root.height ≤ set.nElems := by
  have bound := height_le_size model.root
  rw [size_eq_length] at bound
  rw [represents.count]
  exact bound

/-- A node of the set can be read. -/
theorem Holds.elem_mem {tree : AvlTree.Tree (Nat × α)} {node : Nat × α} (held : Holds heap tree)
    (member : node ∈ tree.toList) : elemOfNode heap node.1 = .ok node.2 := by
  obtain ⟨cell, stands, same⟩ := Option.map_eq_some_iff.mp (held.payload_mem member)
  obtain ⟨magic, elem⟩ := Prod.mk.inj same
  simp [elemOfNode, read_node stands, magic, elem]

/-- A node of the set is not null. -/
theorem Holds.ne_zero {tree : AvlTree.Tree (Nat × α)} {node : Nat × α} (held : Holds heap tree)
    (member : node ∈ tree.toList) : node.1 ≠ 0 := by
  intro zero
  have stands := held.payload_mem member
  rw [zero, heap.null] at stands
  cases stands

/-- The search for a key. -/
theorem Represents.avlLookup (represents : Represents cmp valid heap set model) (k : κ) :
    PmDebugger.avlLookup cmp heap k (set.nElems + 1) set.root =
      .ok (((model.lookup (cmp.toNode k)).map Prod.fst).getD 0) := by
  rw [represents.root, avlLookup_held cmp k _ represents.held (Nat.lt_succ_of_le represents.low)]
  simp only [OSet.lookup, OSet.locate, Option.map_map]
  rfl

/-- `OSetGen_Lookup` finds what the set finds. -/
theorem osetGenLookup_represents (represents : Represents cmp valid heap set model) (k : κ) :
    osetGenLookup cmp heap set k = .ok (((model.lookup (cmp.toNode k)).map Prod.fst).getD 0) := by
  simp only [osetGenLookup, represents.avlLookup k, except_ok_bind]
  cases found : model.lookup (cmp.toNode k) with
  | none => rfl
  | some node =>
    have member := (lookup_sound found).1
    simp only [Option.map_some, Option.getD_some, represents.held.ne_zero member, if_false,
      represents.held.elem_mem member, except_ok_bind, except_pure]

/-- `OSetGen_ResetIter` starts the walk at the first node. -/
theorem osetGenResetIter_represents (represents : Represents cmp valid heap set model) :
    ∃ set', osetGenResetIter set = .ok set' ∧ Represents cmp valid heap set' model.resetIter := by
  have fits := represents.fits
  obtain ⟨held, only, root, distinct, balanced, count, small, ordered, valids, unique, _⟩ :=
      represents
  cases tree : model.root with
  | leaf =>
    have empty : set.root = 0 := by rw [root, tree, top_leaf]
    refine ⟨stackClear set, by simp [osetGenResetIter, stackClear, empty], held, only, root,
      distinct, balanced, count, small, ordered, valids, unique, ?_⟩
    have nothing : restOfWalk model.resetIter = [] := by
      simp [restOfWalk, OSet.resetIter, OSet.toList, tree, toList]
    rw [nothing]
    exact .done (Nat.zero_le _)
  | node left here right value =>
    rw [tree] at held
    have present : set.root = here.1 := by rw [root, tree, top_node]
    have start : Stacked heap model.root.height (stackClear set).stack [] model.root.height :=
      .done le_rfl
    obtain ⟨pushes, pushed⟩ := stackPush_stacked start fits held (by rw [tree])
      (by decide : 1 ≤ 1 ∧ 1 ≤ 3)
    refine ⟨{ set with stack := [(here.1, 1)] }, ?_, ?_⟩
    · have started : osetGenResetIter set = stackPush (stackClear set) here.1 1 := by
        simp [osetGenResetIter, stackClear, present, held.top_ne_zero]
      exact started.trans pushes
    · refine ⟨tree ▸ held, only, root, distinct, balanced, count, small, ordered, valids,
        unique, ?_⟩
      have everything : restOfWalk model.resetIter = covered 1 here left right ++ [] := by
        simp [restOfWalk, OSet.resetIter, OSet.toList, tree, toList, covered]
      rw [everything]
      exact pushed.lower (Nat.zero_le _)

/-- `OSetGen_ResetIterAt` starts it at a key. -/
theorem osetGenResetIterAt_represents (represents : Represents cmp valid heap set model) (k : κ) :
    ∃ set', osetGenResetIterAt cmp heap set k = .ok set' ∧
      Represents cmp valid heap set' (model.resetIterAt (cmp.toNode k)) := by
  have fits := represents.fits
  have low := represents.low
  obtain ⟨held, only, root, distinct, balanced, count, small, ordered, valids, unique, _⟩ :=
      represents
  have start : Stacked heap model.root.height (stackClear set).stack [] model.root.height :=
    .done le_rfl
  obtain ⟨stack', seeks, result⟩ :=
    seekLoop_stacked cmp k (set.nElems + 1) start fits held le_rfl (Nat.lt_succ_of_le low)
  rw [List.append_nil] at result
  refine ⟨{ set with stack := stack' }, ?_, held, only, root, distinct, balanced, count, small,
    ordered, valids, unique, result⟩
  simp only [osetGenResetIterAt]
  split
  · next empty =>
    have leaf : model.root = .leaf := held.top_eq_zero.mp (root ▸ empty)
    rw [leaf] at seeks
    exact seeks
  · rw [← root] at seeks
    exact seeks

/-- `OSetGen_Next` hands out the next node of the walk. -/
theorem osetGenNext_represents (represents : Represents cmp valid heap set model) :
    (model.next = none ∧ ∃ set', osetGenNext heap set = .ok (set', 0) ∧
        Represents cmp valid heap set' model) ∨
      ∃ position node model' set', model.next = some (position, node, model') ∧
        node ∈ model.toList ∧ osetGenNext heap set = .ok (set', node.1) ∧
        Represents cmp valid heap set' model' := by
  have fits := represents.fits
  have low := represents.low
  obtain ⟨held, only, root, distinct, balanced, count, small, ordered, valids, unique, walk⟩ :=
      represents
  have step := nextLoop_stacked (set.stack.length + 2) walk fits (Nat.le_succ_of_le low) le_rfl
  cases started : model.iter with
  | none =>
    have nothing : restOfWalk model = [] := by simp [restOfWalk, started]
    rcases step with ⟨_, ends⟩ | ⟨node, later, stack', split, _, _⟩
    · refine .inl
        ⟨by simp [OSet.next, started], { set with stack := [] }, ends, held, only, root, distinct,
        balanced, count, small, ordered, valids, unique, ?_⟩
      rw [nothing]
      exact .done (Nat.zero_le _)
    · rw [nothing] at split
      cases split
  | some position =>
    have rest : restOfWalk model = model.toList.drop position := by simp [restOfWalk, started]
    rcases step with ⟨none, ends⟩ | ⟨node, later, stack', split, yields, after⟩
    · refine .inl ⟨?_, { set with stack := [] }, ends, held, only, root, distinct, balanced,
        count, small, ordered, valids, unique, ?_⟩
      · rw [rest, List.drop_eq_nil_iff] at none
        simp [OSet.next, started, List.getElem?_eq_none none]
      · rw [none]
        exact .done (Nat.zero_le _)
    · rw [rest] at split
      have here : model.toList[position]? = some node := by
        rw [← List.head?_drop, split]
        rfl
      refine .inr ⟨position, node, { model with iter := some (position + 1) },
        { set with stack := stack' }, by simp [OSet.next, started, here],
        List.mem_of_getElem? here, yields, held, only, root, distinct, balanced, count, small,
          ordered,
        valids, unique, ?_⟩
      have advanced : restOfWalk { model with iter := some (position + 1) } = later := by
        simp only [restOfWalk, toList_withIter]
        rw [← List.drop_drop, split]
        rfl
      rw [advanced]
      exact after

/-- A valid element guides a search through an ordered set of valid elements. -/
theorem Represents.guides (laws : LawfulCmp cmp valid)
    (represents : Represents cmp valid heap set model) {node : Nat × α} (validNode : valid node.2) :
    Guides (cmp.ofNodes node) model.toList := by
  refine List.Pairwise.imp_of_mem ?_ represents.ordered
  intro first second firstMember secondMember order
  have firstValid := represents.valid first firstMember
  have secondValid := represents.valid second secondMember
  constructor
  · intro before
    exact laws.trans _ _ _ validNode firstValid secondValid before order.1
  · intro after
    have below := (laws.swap _ _ secondValid validNode).mpr after
    exact (laws.swap _ _ firstValid validNode).mp
      (laws.trans _ _ _ firstValid secondValid validNode order.1 below)

/-- An element that matches none is inserted in order. -/
theorem insert_ordered (laws : LawfulCmp cmp valid)
    (represents : Represents cmp valid heap set model) {node : Nat × α} (validNode : valid node.2)
    (absent : ∀ other ∈ model.toList, cmp.ofNodes node other ≠ .eq) :
    Ordered cmp.ofNodes (model.insert (cmp.ofNodes node) node).toList ∧
      (∀ other ∈ (model.insert (cmp.ofNodes node) node).toList, valid other.2) ∧
      (model.insert (cmp.ofNodes node) node).size = model.size + 1 := by
  obtain ⟨before, after, listed, above, below⟩ :=
    exists_split (represents.guides laws validNode) absent
  obtain ⟨inserted, _⟩ := insert_split node listed above below
  have valids := represents.valid
  have ordered := represents.ordered
  rw [listed] at valids ordered
  obtain ⟨beforeOrdered, afterOrdered, across⟩ := List.pairwise_append.mp ordered
  have earlier : ∀ other ∈ before, cmp.ofNodes other node = .lt ∧ cmp.ofNodes node other = .gt := by
    intro other member
    have otherValid := valids other (by simp [member])
    exact ⟨(laws.swap _ _ otherValid validNode).mpr (above other member), above other member⟩
  have later : ∀ other ∈ after, cmp.ofNodes node other = .lt ∧ cmp.ofNodes other node = .gt := by
    intro other member
    have otherValid := valids other (by simp [member])
    exact ⟨below other member, (laws.swap _ _ validNode otherValid).mp (below other member)⟩
  refine ⟨?_, ?_, ?_⟩
  · rw [inserted]
    refine List.pairwise_append.mpr ⟨beforeOrdered,
      List.pairwise_cons.mpr ⟨later, afterOrdered⟩, ?_⟩
    intro first firstMember second secondMember
    rcases List.mem_cons.mp secondMember with rfl | inAfter
    · exact earlier first firstMember
    · exact across first firstMember second inAfter
  · intro other member
    rw [inserted, List.mem_append, List.mem_cons] at member
    rcases member with inBefore | rfl | inAfter
    · exact valids other (by simp [inBefore])
    · exact validNode
    · exact valids other (by simp [inAfter])
  · simp only [OSet.size, inserted, listed, List.length_append, List.length_cons]
    omega

/-- `OSetGen_Insert` clears the links of the node first. -/
theorem clear_links {n : Nat} {elem : α} (stands : heap.cell n = some ⟨0, 0, 0, osetMagic, elem⟩) :
    ∃ first second third, heap.setLeft n 0 = .ok first ∧ first.setRight n 0 = .ok second ∧
      second.setBalance n 0 = .ok third ∧ third.cell n = some ⟨0, 0, 0, osetMagic, elem⟩ ∧
      SameOutside [n] heap third := by
  have single : Holds heap (.node .leaf (n, elem) .leaf 0) := ⟨stands, trivial, trivial⟩
  have distinct : Distinct (.node .leaf (n, elem) .leaf 0) := by simp [Distinct]
  obtain ⟨first, links, firstHeld, firstSame⟩ :=
    @setLeft_holds _ heap .leaf .leaf (n, elem) 0 heap .leaf [] single distinct trivial
      (sameOutside_refl []) (by simp) (by simp)
  obtain ⟨second, links', secondHeld, secondSame⟩ :=
    @setRight_holds _ first .leaf .leaf (n, elem) 0 first .leaf [] firstHeld distinct trivial
      (sameOutside_refl []) (by simp) (by simp)
  obtain ⟨third, counts, thirdHeld, thirdSame⟩ := setBalance_root secondHeld distinct 0
  exact ⟨first, second, third, links, links', counts, thirdHeld.1,
    (firstSame.trans secondSame).trans thirdSame⟩

/-- A new node is allocated and its links are cleared, beside the tree of the set. -/
theorem Represents.cleared (represents : Represents cmp valid heap set model) {n : Nat}
    (nonNull : n ≠ 0) (elem : α) (fresh : n ∉ addresses model.root) :
    ∃ first second third, nodeOfElem (osetGenAllocNode heap n nonNull elem) n = .ok n ∧
      (osetGenAllocNode heap n nonNull elem).setLeft n 0 = .ok first ∧
      first.setRight n 0 = .ok second ∧ second.setBalance n 0 = .ok third ∧
      third.cell n = some ⟨0, 0, 0, osetMagic, elem⟩ ∧ Holds third model.root ∧
      ∀ m, m ≠ n → third.cell m = heap.cell m := by
  have placed : (osetGenAllocNode heap n nonNull elem).cell n =
      some ⟨0, 0, 0, osetMagic, elem⟩ := by
    simp [osetGenAllocNode, NodeHeap.place]
  have placedHeld : Holds (osetGenAllocNode heap n nonNull elem) model.root := by
    refine represents.held.congr ?_
    intro m member
    have differs : m ≠ n := fun same => fresh (same ▸ member)
    simp [osetGenAllocNode, NodeHeap.place, differs]
  obtain ⟨first, second, third, links, links', counts, stands, same⟩ := clear_links placed
  refine ⟨first, second,
    third, by simp [nodeOfElem, read_node placed], links, links', counts, stands,
    placedHeld.frame same ?_, ?_⟩
  · intro m member here
    rw [List.mem_singleton] at here
    exact fresh (here ▸ member)
  · intro m differs
    rw [same.outside m (by simpa using differs)]
    simp [osetGenAllocNode, NodeHeap.place, differs]

/-- `OSetGen_Insert` of a new node that matches none adds it. -/
theorem osetGenInsert_represents (laws : LawfulCmp cmp valid)
    (represents : Represents cmp valid heap set model) {n : Nat} (nonNull : n ≠ 0) {elem : α}
    (validElem : valid elem) (fresh : n ∉ addresses model.root)
    (absent : model.contains (cmp.ofNodes (n, elem)) = false) (room : model.size + 1 < walkLimit) :
    ∃ heap' set', osetGenInsert cmp (osetGenAllocNode heap n nonNull elem) set n =
      .ok (heap', set') ∧
      Represents cmp valid heap' set' (model.insert (cmp.ofNodes (n, elem)) (n, elem)) := by
  have low := represents.low
  have lookedUp : model.lookup (cmp.ofNodes (n, elem)) = none := by
    simpa [OSet.contains] using absent
  have missing := (lookup_none (represents.guides laws validElem)).mp lookedUp
  obtain ⟨ordered, valids, grown⟩ := insert_ordered laws represents validElem missing
  have searched : model.root.lookup (cmp.ofNodes (n, elem)) = none := by
    simpa [OSet.lookup, OSet.locate] using lookedUp
  have shape : model.insert (cmp.ofNodes (n, elem)) (n, elem) =
      { model with root := (model.root.insert (cmp.ofNodes (n, elem)) (n, elem)).1, iter :=
        none } := by
    simp [OSet.insert, absent]
  obtain ⟨first, second, third, magic, links, links', counts, stands, thirdHeld, others⟩ :=
    represents.cleared nonNull elem fresh
  have counted : (set.nElems + 1) % UInt32.size = model.size + 1 := by
    have limit : walkLimit = 9227464 := rfl
    have word : UInt32.size = 4294967296 := rfl
    rw [represents.count, word]
    omega
  -- The first node of a set becomes its root; every other one is inserted into the tree.
  obtain ⟨final, inserts, finalHeld, outside⟩ : ∃ final,
      osetGenInsert cmp (osetGenAllocNode heap n nonNull elem) set n =
        .ok (final, { set with
          root := top (model.root.insert (cmp.ofNodes (n, elem)) (n, elem)).1
          nElems := (set.nElems + 1) % UInt32.size
          stack := [] }) ∧
      Holds final (model.root.insert (cmp.ofNodes (n, elem)) (n, elem)).1 ∧
      SameOutside (n :: addresses model.root) third final := by
    by_cases empty : model.root = .leaf
    · have root : set.root = 0 := by rw [represents.root, empty, top_leaf]
      rw [empty]
      refine ⟨third, ?_, ⟨stands, trivial, trivial⟩, sameOutside_refl _⟩
      simp [osetGenInsert, magic, links, links', counts, root, AvlTree.Tree.insert]
    · have root : set.root ≠ 0 := by
        rw [represents.root]
        exact fun zero => empty (represents.held.top_eq_zero.mp zero)
      obtain ⟨final, inserts, finalHeld, outside⟩ :=
          @avlInsert_rebuilds _ _ third model.root (n, elem) cmp
        (set.nElems + 1) thirdHeld represents.distinct represents.balanced empty stands fresh
          searched
        (Nat.le_succ_of_le low)
      rw [← represents.root] at inserts
      refine ⟨final, ?_, finalHeld, outside⟩
      simp [osetGenInsert, magic, links, links', counts, root, inserts]
  refine ⟨final, _, inserts, ?_⟩
  rw [shape] at ordered valids grown ⊢
  obtain ⟨listed, distinct⟩ :=
    @insert_distinct _ model.root (n, elem) _ represents.distinct fresh searched
  exact {
    held := finalHeld
    only := by
      intro m absent
      rw [listed.mem_iff, List.mem_cons, not_or] at absent
      rw [outside.outside m (by simpa using absent), others m absent.1]
      exact represents.only m absent.2
    root := rfl
    distinct := distinct
    balanced := (insert_grew _ _ model.root represents.balanced).balanced
    count := counted.trans grown.symm
    small := grown ▸ room
    ordered := ordered
    valid := valids
    unique := represents.unique
    walk := .done (Nat.zero_le _) }

/-- `OSetGen_Insert` of a node that matches one of the set fails its assertion. -/
theorem osetGenInsert_duplicate (represents : Represents cmp valid heap set model) {n : Nat}
    (nonNull : n ≠ 0) {elem : α} (fresh : n ∉ addresses model.root)
    (present : model.contains (cmp.ofNodes (n, elem)) = true) :
    osetGenInsert cmp (osetGenAllocNode heap n nonNull elem) set n = .error .duplicateElement := by
  obtain ⟨first, second, third, magic, links, links', counts, stands, thirdHeld, _⟩ :=
    represents.cleared nonNull elem fresh
  have searched : model.root.lookup (cmp.ofNodes (n, elem)) ≠ none := by
    intro missing
    simp [OSet.contains, OSet.lookup, OSet.locate, missing] at present
  have root : set.root ≠ 0 := by
    rw [represents.root, ne_eq, represents.held.top_eq_zero]
    intro empty
    rw [empty] at searched
    exact searched rfl
  have fails := @avlInsert_duplicate _ _ third model.root (n, elem) cmp (set.nElems + 1) thirdHeld
    (by rw [stands]; rfl) searched (Nat.le_succ_of_le represents.low)
  rw [← represents.root] at fails
  simp [osetGenInsert, magic, links, links', counts, root, fails]
  rfl

/-- `OSetGen_Remove` without a match changes nothing. -/
theorem osetGenRemove_absent (represents : Represents cmp valid heap set model) {k : κ}
    (absent : model.lookup (cmp.toNode k) = none) :
    osetGenRemove cmp heap set k = .ok (heap, set, 0) := by
  simp [osetGenRemove, represents.avlLookup k, absent]

/-- `OSetGen_Remove` of a match takes its node out of the set, and the node can be given back. -/
theorem osetGenRemove_represents (laws : LawfulCmp cmp valid)
    (represents : Represents cmp valid heap set model) {k : κ} {node : Nat × α}
    (found : model.lookup (cmp.toNode k) = some node) :
    ∃ heap' set', osetGenRemove cmp heap set k = .ok (heap', set', node.1) ∧
      elemOfNode heap' node.1 = .ok node.2 ∧
      Represents cmp valid (heap'.release node.1) set'
        (model.remove cmp.ofNodes (cmp.toNode k)) := by
  have member : node ∈ model.root.toList := (lookup_sound found).1
  have reflexive : ∀ other ∈ model.root.toList, cmp.ofNodes other other = .eq :=
    fun other inside => laws.reflexive _ (represents.valid other inside)
  have low := represents.low
  have positive : 0 < model.size := List.length_pos_of_mem member
  have enough : model.root.height + 3 ≤ 2 * set.nElems + 2 := by
    have counted := represents.count
    omega
  obtain ⟨changed, removes, changedHeld, same⟩ := avlRemove_rebuilds cmp (2 * set.nElems + 2)
    represents.held represents.distinct represents.balanced represents.ordered reflexive
      member enough
  rw [← represents.root] at removes
  have shape : model.remove cmp.ofNodes (cmp.toNode k) =
      { model with root := (model.root.remove (cmp.ofNodes node)).1, iter := none } := by
    simp [OSet.remove, found]
  obtain ⟨before, after, listed, left, _⟩ :=
    remove_found represents.ordered (reflexive node member) found
  have stands := (same.payloads node.1).trans (represents.held.payload_mem member)
  obtain ⟨cell, here, parts⟩ := Option.map_eq_some_iff.mp stands
  obtain ⟨magic, elem⟩ := Prod.mk.inj parts
  have reads : elemOfNode changed node.1 = .ok node.2 := by
    simp [elemOfNode, read_node here, magic, elem]
  have nonzero := represents.held.ne_zero member
  refine ⟨changed, { set with
    root := top (model.root.remove (cmp.ofNodes node)).1
    nElems := (set.nElems + (UInt32.size - 1)) % UInt32.size
    stack := [] }, ?_, reads, ?_⟩
  · simp [osetGenRemove, represents.avlLookup k, found, nonzero, removes, reads]
  · have sub := remove_sublist (cmp.ofNodes node) model.root
    obtain ⟨distinct, within⟩ := represents.distinct.sublist sub
    have remaining : (model.root.remove (cmp.ofNodes node)).1.toList = before ++ after := by
      rw [shape] at left
      exact left
    have all : addresses model.root = before.map Prod.fst ++ node.1 :: after.map Prod.fst := by
      have whole : model.root.toList = before ++ node :: after := listed
      simp [addresses, whole]
    have gone : node.1 ∉ addresses (model.root.remove (cmp.ofNodes node)).1 := by
      have unique := represents.distinct
      rw [Distinct, all, List.nodup_middle, List.nodup_cons] at unique
      rw [addresses, remaining, List.map_append]
      exact unique.1
    have sizes : (model.root.remove (cmp.ofNodes node)).1.toList.length + 1 = model.size := by
      rw [remaining, OSet.size, listed]
      simp only [List.length_append, List.length_cons]
      omega
    have small := represents.small
    have limit : walkLimit = 9227464 := rfl
    have word : UInt32.size = 4294967296 := rfl
    rw [shape]
    exact {
      held := changedHeld.release gone
      only := by
        intro m absent
        simp only [NodeHeap.release]
        split
        · rfl
        · next differs =>
          have outside : m ∉ addresses model.root := by
            rw [addresses, remaining, List.map_append] at absent
            rw [all]
            simp only [List.mem_append, List.mem_cons, not_or] at absent ⊢
            exact ⟨absent.1, differs, absent.2⟩
          rw [same.outside m outside]
          exact represents.only m outside
      root := rfl
      distinct := distinct
      balanced := (remove_shrank _ model.root represents.balanced).balanced
      count := by
        rw [represents.count, word]
        simp only [OSet.size, OSet.toList] at sizes small ⊢
        omega
      small := by
        simp only [OSet.size, OSet.toList] at sizes small ⊢
        omega
      ordered := represents.ordered.sublist sub
      valid := fun other inside => represents.valid other (sub.subset inside)
      unique := represents.unique
      walk := .done (Nat.zero_le _) }

end Sets

/-- The edit of the element at one address. The address itself stays, since an edit writes
through a pointer. -/
def editAt (n : Nat) (edit : α → α) (node : Nat × α) : Nat × α :=
  if node.1 = n then (node.1, edit node.2) else node

section Edits

variable {cmp : OSetCmp κ α} {valid : α → Prop} {heap : NodeHeap α} {set : NodeSet}
  {model : OSet (Nat × α)} {n : Nat} {edit : α → α}

/-- An edit of an element does not move it. -/
@[simp] theorem editAt_fst (node : Nat × α) : (editAt n edit node).1 = node.1 := by
  unfold editAt
  split <;> rfl

/-- The tree hangs on the same address after the edit. -/
@[simp] theorem top_map_editAt (tree : AvlTree.Tree (Nat × α)) :
    top (tree.map (editAt n edit)) = top tree := by
  cases tree <;> simp [AvlTree.Tree.map]

/-- The tree has the same addresses after the edit. -/
theorem addresses_map_editAt (tree : AvlTree.Tree (Nat × α)) :
    addresses (tree.map (editAt n edit)) = addresses tree := by
  simp [addresses]

/-- A write through a pointer to an element edits the element at that address. -/
theorem Holds.edited {tree : AvlTree.Tree (Nat × α)} (held : Holds heap tree) :
    Holds (heap.modify n (fun node => { node with elem := edit node.elem }))
      (tree.map (editAt n edit)) := by
  induction tree with
  | leaf => trivial
  | node left here right value leftEdit rightEdit =>
    refine ⟨?_, leftEdit held.2.1, rightEdit held.2.2⟩
    rw [editAt_fst, top_map_editAt, top_map_editAt]
    by_cases same : here.1 = n
    · have stands := held.1
      rw [same] at stands ⊢
      rw [modify_cell stands]
      simp [editAt, same]
    · rw [modify_other same, held.1]
      simp [editAt, same]

/-- The walk goes on over the edited elements. -/
theorem Stacked.edited {high low : Nat} {stack : List (Nat × Nat)} {rest : List (Nat × α)}
    (walk : Stacked heap high stack rest low) :
    Stacked (heap.modify n (fun node => { node with elem := edit node.elem })) high stack
      (rest.map (editAt n edit)) low := by
  induction walk with
  | done bound => exact .done bound
  | @entry stack rest low number left right here value below held valid higher
    inductionHypothesis =>
    have edited : Holds _ (AvlTree.Tree.node (left.map (editAt n edit)) (editAt n edit here)
      (right.map (editAt n edit)) value) := held.edited
    have heights : (AvlTree.Tree.node (left.map (editAt n edit)) (editAt n edit here)
        (right.map (editAt n edit)) value).height =
          (AvlTree.Tree.node left here right value).height := by
      simp
    have listed : (covered number here left right ++ rest).map (editAt n edit) =
        covered number (editAt n edit here) (left.map (editAt n edit))
          (right.map (editAt n edit)) ++ rest.map (editAt n edit) := by
      unfold covered
      split
      · simp
      · split <;> simp
    rw [listed, ← @editAt_fst _ n edit here]
    exact .entry (heights ▸ inductionHypothesis) edited valid (heights ▸ higher)

/-- An edit that keeps the order of a set is an edit of the set. -/
theorem edit_represents (represents : Represents cmp valid heap set model)
    (ordered : Ordered cmp.ofNodes (model.map (editAt n edit)).toList)
    (valids : ∀ node ∈ (model.map (editAt n edit)).toList, valid node.2) :
    Represents cmp valid (heap.modify n (fun node => { node with elem := edit node.elem })) set
      (model.map (editAt n edit)) where
  held := represents.held.edited
  only := by
    intro m absent
    rw [OSet.map, addresses_map_editAt] at absent
    have empty := represents.only m absent
    simp only [NodeHeap.modify]
    split
    · next same =>
      rw [← same, empty]
      rfl
    · exact empty
  root := by
    rw [represents.root]
    exact (top_map_editAt _).symm
  distinct := by
    rw [Distinct, OSet.map, addresses_map_editAt]
    exact represents.distinct
  balanced := map_balanced _ _ represents.balanced
  count := by
    rw [represents.count]
    simp [OSet.size]
  small := by
    have small := represents.small
    simpa [OSet.size] using small
  ordered := ordered
  valid := valids
  unique := represents.unique
  walk := by
    have walk := @Stacked.edited _ heap n edit _ _ _ _ represents.walk
    have rest : restOfWalk (model.map (editAt n edit)) =
        (restOfWalk model).map (editAt n edit) := by
      unfold restOfWalk
      simp only [OSet.map]
      cases model.iter with
      | none => rfl
      | some position => simp [OSet.toList, List.map_drop]
    rw [rest]
    simpa [OSet.map] using walk

end Edits

section Comparisons

/-- The comparison of the tree of stores, of the mappings and of the regions of a transaction. -/
def storeCmp : OSetCmp PmemSt PmemSt := { keyOf := id, compare := cmpPmemSt }

/-- Ranges that name a byte are compared lawfully. -/
theorem storeCmp_lawful : LawfulCmp storeCmp PmemSt.Proper where
  reflexive elem proper := by
    have nonempty := proper.nonempty
    exact (cmpPmemSt_eq_iff proper.nonWrapping proper.nonWrapping).mpr
      (by constructor <;> simp <;> omega)
  swap elem other proper proper' := by
    have nonempty := proper.nonempty
    simp only [storeCmp, id_eq, cmpPmemSt_lt_iff proper.nonWrapping,
      cmpPmemSt_gt_iff proper'.nonWrapping proper.nonWrapping]
    omega
  trans first second third proper proper' proper'' := by
    simp only [storeCmp, id_eq, cmpPmemSt_lt_iff proper.nonWrapping,
      cmpPmemSt_lt_iff proper'.nonWrapping]
    omega

/-- Leading words are compared lawfully. -/
theorem fastCmp_lawful {α : Type} (firstWord : α → Nat) :
    LawfulCmp (fastCmp firstWord) (fun _ => True) where
  reflexive elem _ := by simp [fastCmp]
  swap elem other _ _ := by simp [fastCmp, Nat.compare_eq_lt, Nat.compare_eq_gt]
  trans first second third _ _ _ := by
    simp only [fastCmp, Nat.compare_eq_lt]
    omega

end Comparisons

/-- A call of the interface, with the pointer or the key that its caller passes. A new node is
allocated and filled before it is inserted, and a removed one is given back. -/
inductive SetCall (κ α : Type) where
  | insert (n : Nat) (elem : α)
  | remove (k : κ)
  | lookup (k : κ)
  | contains (k : κ)
  | size
  | resetIter
  | resetIterAt (k : κ)
  | next
  | write (n : Nat) (edit : α → α)

/-- What a caller gets back: a pointer with the element that it points to, or the element alone; a
truth value; a count. -/
inductive SetAnswer (β : Type) where
  | done
  | element (found : Option β)
  | truth (value : Bool)
  | count (value : Nat)
deriving DecidableEq, Repr

/-- The element behind a pointer that may be null. A null pointer is an answer, not a fault. -/
def readElement (heap : NodeHeap α) (n : Nat) : Except Fault (SetAnswer (Nat × α)) :=
  if n = 0 then .ok (.element none)
  else do
    return .element (some (n, ← elemOfNode heap n))

/-- A call as the source serves it, on memory and the head of the set. A removed node is read
and then given back, as the callers of the interface do. -/
def SetCall.serve (cmp : OSetCmp κ α) (heap : NodeHeap α) (set : NodeSet) :
    SetCall κ α → Except Fault (NodeHeap α × NodeSet × SetAnswer (Nat × α))
  | .insert n elem =>
      if nonNull : n ≠ 0 then do
        let (heap, set) ← osetGenInsert cmp (osetGenAllocNode heap n nonNull elem) set n
        return (heap, set, .done)
      else throw .noNode
  | .remove k => do
      let (heap, set, n) ← osetGenRemove cmp heap set k
      let answer ← readElement heap n
      if n = 0 then return (heap, set, answer)
      let heap ← osetGenFreeNode heap n
      return (heap, set, answer)
  | .lookup k => do
      let n ← osetGenLookup cmp heap set k
      return (heap, set, ← readElement heap n)
  | .contains k => do
      return (heap, set, .truth (← osetGenContains cmp heap set k))
  | .size => .ok (heap, set, .count (osetGenSize set))
  | .resetIter => do
      return (heap, ← osetGenResetIter set, .done)
  | .resetIterAt k => do
      return (heap, ← osetGenResetIterAt cmp heap set k, .done)
  | .next => do
      let (set, n) ← osetGenNext heap set
      return (heap, set, ← readElement heap n)
  | .write n edit => do
      return (← heap.update n (fun node => { node with elem := edit node.elem }), set, .done)

/-- The same call on an ordered set of nodes. The address is part of an element there, and the
comparison does not look at it. -/
def SetCall.answer (cmp : OSetCmp κ α) (model : OSet (Nat × α)) :
    SetCall κ α → OSet (Nat × α) × SetAnswer (Nat × α)
  | .insert n elem => (model.insert (cmp.ofNodes (n, elem)) (n, elem), .done)
  | .remove k =>
      (model.remove cmp.ofNodes (cmp.toNode k), .element (model.lookup (cmp.toNode k)))
  | .lookup k => (model, .element (model.lookup (cmp.toNode k)))
  | .contains k => (model, .truth (model.contains (cmp.toNode k)))
  | .size => (model, .count model.size)
  | .resetIter => (model.resetIter, .done)
  | .resetIterAt k => (model.resetIterAt (cmp.toNode k), .done)
  | .next =>
      match model.next with
      | none => (model, .element none)
      | some (_, found, model) => (model, .element (some found))
  | .write n edit => (model.map (editAt n edit), .done)

/-- What the interface asks of its callers: a node is inserted once, at an address of its own,
and an edit keeps the order of the elements. -/
def SetCall.Proper (cmp : OSetCmp κ α) (valid : α → Prop) (model : OSet (Nat × α)) :
    SetCall κ α → Prop
  | .insert n elem =>
      n ≠ 0 ∧ n ∉ addresses model.root ∧ valid elem ∧ model.size + 1 < walkLimit
  | .write n edit =>
      n ∈ addresses model.root ∧ Ordered cmp.ofNodes (model.map (editAt n edit)).toList ∧
        ∀ node ∈ (model.map (editAt n edit)).toList, valid node.2
  | _ => True

/-- The calls of a run, served one after the other, with the list of their answers. The first
fault ends the run. -/
def serveAll (cmp : OSetCmp κ α) :
    List (SetCall κ α) → NodeHeap α → NodeSet →
      Except Fault (NodeHeap α × NodeSet × List (SetAnswer (Nat × α)))
  | [], heap, set => .ok (heap, set, [])
  | call :: calls, heap, set => do
      let (heap, set, answer) ← call.serve cmp heap set
      let (heap, set, answers) ← serveAll cmp calls heap set
      return (heap, set, answer :: answers)

/-- The calls of a run on an ordered set, with the list of their answers. Nothing can fail
here. -/
def answerAll (cmp : OSetCmp κ α) :
    List (SetCall κ α) → OSet (Nat × α) → OSet (Nat × α) × List (SetAnswer (Nat × α))
  | [], model => (model, [])
  | call :: calls, model =>
      let (model, answer) := call.answer cmp model
      let (model, answers) := answerAll cmp calls model
      (model, answer :: answers)

/-- Every call of a run is proper when it is made. Nothing is asked of a caller after an insertion
has failed. -/
def ProperRun (cmp : OSetCmp κ α) (valid : α → Prop) : List (SetCall κ α) → OSet (Nat × α) → Prop
  | [], _ => True
  | call :: calls, model =>
      call.Proper cmp valid model ∧
        ((call.answer cmp model).1.duplicate = false →
          ProperRun cmp valid calls (call.answer cmp model).1)

section Decisions

variable {cmp : OSetCmp κ α} {valid : α → Prop} [DecidablePred valid]

instance {β : Type} (order : β → β → Ordering) (elems : List β) : Decidable (Ordered order elems) :=
  inferInstanceAs (Decidable (List.Pairwise _ _))

instance (model : OSet (Nat × α)) (call : SetCall κ α) : Decidable (call.Proper cmp valid model) :=
  match call with
  | .insert _ _ => inferInstanceAs (Decidable (_ ∧ _ ∧ _ ∧ _))
  | .write _ _ => inferInstanceAs (Decidable (_ ∧ _ ∧ _))
  | .remove _ | .lookup _ | .contains _ | .size | .resetIter | .resetIterAt _ | .next =>
    .isTrue trivial

/-- Whether a run keeps to the contract can be computed. -/
def decideProperRun : (calls : List (SetCall κ α)) → (model : OSet (Nat × α)) →
    Decidable (ProperRun cmp valid calls model)
  | [], _ => .isTrue trivial
  | call :: calls, model =>
      have := decideProperRun calls (call.answer cmp model).1
      inferInstanceAs (Decidable (_ ∧ (_ → _)))

instance (calls : List (SetCall κ α)) (model : OSet (Nat × α)) :
    Decidable (ProperRun cmp valid calls model) := decideProperRun calls model

end Decisions

section Runs

variable {cmp : OSetCmp κ α} {valid : α → Prop} {heap : NodeHeap α} {set : NodeSet}
  {model : OSet (Nat × α)}

/-- A null pointer has no element. -/
theorem readElement_null : readElement heap 0 = .ok (.element none) := rfl

/-- The element behind the pointer to a node of the set. -/
theorem readElement_node {tree : AvlTree.Tree (Nat × α)} {node : Nat × α} (held : Holds heap tree)
    (member : node ∈ tree.toList) : readElement heap node.1 = .ok (.element (some node)) := by
  simp [readElement, held.ne_zero member, held.elem_mem member]

/-- A node whose element can be read can be given back. -/
theorem nodeOfElem_of_elem {n : Nat} {elem : α} (reads : elemOfNode heap n = .ok elem) :
    nodeOfElem heap n = .ok n := by
  unfold elemOfNode at reads
  unfold nodeOfElem
  cases cell : heap.read n with
  | error fault =>
    rw [cell] at reads
    cases reads
  | ok node =>
    rw [cell] at reads
    simp only [except_ok_bind] at reads ⊢
    split
    · rfl
    · next bad =>
      rw [if_neg bad] at reads
      cases reads

/-- A failed insertion is recorded for good. -/
theorem answer_duplicate (call : SetCall κ α) (failed : model.duplicate = true) :
    (call.answer cmp model).1.duplicate = true := by
  cases call with
  | insert n elem => exact insert_flagged _ _ failed
  | remove k =>
    simp only [SetCall.answer, remove_duplicate]
    exact failed
  | next =>
    simp only [SetCall.answer]
    cases step : model.next with
    | none => exact failed
    | some result =>
      obtain ⟨position, node, walked⟩ := result
      obtain ⟨_, _, _, _, rfl⟩ := next_listed step
      exact failed
  | _ => exact failed

/-- A duplicate that was met stays on record through the rest of the run. -/
theorem answerAll_duplicate (calls : List (SetCall κ α)) (failed : model.duplicate = true) :
    (answerAll cmp calls model).1.duplicate = true := by
  induction calls generalizing model with
  | nil => exact failed
  | cons call calls inductionHypothesis => exact inductionHypothesis (answer_duplicate call failed)

/-- A call that its caller may make is answered as by the ordered set; an insertion that meets a
match fails. -/
theorem serve_represents (laws : LawfulCmp cmp valid)
    (represents : Represents cmp valid heap set model) (call : SetCall κ α)
    (proper : call.Proper cmp valid model) :
    ((call.answer cmp model).1.duplicate = true ∧
        call.serve cmp heap set = .error .duplicateElement) ∨
      ((call.answer cmp model).1.duplicate = false ∧ ∃ heap' set',
        call.serve cmp heap set = .ok (heap', set', (call.answer cmp model).2) ∧
        Represents cmp valid heap' set' (call.answer cmp model).1) := by
  cases call with
  | insert n elem =>
    obtain ⟨nonNull, fresh, validElem, room⟩ := proper
    cases present : model.contains (cmp.ofNodes (n, elem)) with
    | true =>
      refine .inl ⟨by simp [SetCall.answer, OSet.insert, present], ?_⟩
      have fails := osetGenInsert_duplicate represents nonNull fresh present
      simp only [SetCall.serve, nonNull, ne_eq, not_false_eq_true, dite_true, fails]
      rfl
    | false =>
      obtain ⟨heap', set', inserts, after⟩ :=
        osetGenInsert_represents laws represents nonNull validElem fresh present room
      refine .inr ⟨after.unique, heap', set', ?_, after⟩
      simp [SetCall.serve, nonNull, inserts, SetCall.answer]
  | remove k =>
    right
    cases found : model.lookup (cmp.toNode k) with
    | none =>
      have same : model.remove cmp.ofNodes (cmp.toNode k) = model := by simp [OSet.remove, found]
      simp only [SetCall.answer, same, found]
      refine ⟨represents.unique, heap, set, ?_, represents⟩
      simp [SetCall.serve, osetGenRemove_absent represents found, readElement_null]
    | some node =>
      obtain ⟨heap', set', removes, reads, after⟩ := osetGenRemove_represents laws represents found
      have nonzero := represents.held.ne_zero (lookup_sound found).1
      simp only [SetCall.answer, found]
      refine ⟨after.unique, heap'.release node.1, set', ?_, after⟩
      simp [SetCall.serve, removes, readElement, nonzero, reads, osetGenFreeNode,
        nodeOfElem_of_elem reads]
  | lookup k =>
    right
    simp only [SetCall.answer]
    refine ⟨represents.unique, heap, set, ?_, represents⟩
    simp only [SetCall.serve, osetGenLookup_represents represents k, except_ok_bind]
    cases found : model.lookup (cmp.toNode k) with
    | none => simp [readElement_null]
    | some node => simp [readElement_node represents.held (lookup_sound found).1]
  | contains k =>
    right
    refine ⟨represents.unique, heap, set, ?_, represents⟩
    simp only [SetCall.serve, osetGenContains, osetGenLookup_represents represents k,
      except_ok_bind, SetCall.answer, OSet.contains]
    cases found : model.lookup (cmp.toNode k) with
    | none => simp
    | some node => simp [represents.held.ne_zero (lookup_sound found).1]
  | size =>
    right
    refine ⟨represents.unique, heap, set, ?_, represents⟩
    simp [SetCall.serve, osetGenSize, represents.count, SetCall.answer]
  | resetIter =>
    right
    obtain ⟨set', resets, after⟩ := osetGenResetIter_represents represents
    refine ⟨after.unique, heap, set', ?_, after⟩
    simp [SetCall.serve, resets, SetCall.answer]
  | resetIterAt k =>
    right
    obtain ⟨set', resets, after⟩ := osetGenResetIterAt_represents represents k
    refine ⟨after.unique, heap, set', ?_, after⟩
    simp [SetCall.serve, resets, SetCall.answer]
  | next =>
    right
    rcases osetGenNext_represents represents with ⟨none, set', ends, after⟩ |
      ⟨position, node, model', set', step, member, yields, after⟩
    · simp only [SetCall.answer, none]
      refine ⟨after.unique, heap, set', ?_, after⟩
      simp [SetCall.serve, ends, readElement_null]
    · simp only [SetCall.answer, step]
      refine ⟨after.unique, heap, set', ?_, after⟩
      simp [SetCall.serve, yields, readElement_node represents.held member]
  | write n edit =>
    right
    obtain ⟨here, ordered, valids⟩ := proper
    have after := edit_represents represents ordered valids
    refine ⟨after.unique, _, set, ?_, after⟩
    obtain ⟨node, member, rfl⟩ := List.mem_map.mp here
    obtain ⟨cell, stands, _⟩ := Option.map_eq_some_iff.mp (represents.held.payload_mem member)
    simp [SetCall.serve, update_node stands, SetCall.answer]

/-- Every run that keeps to the contract is answered as by an ordered set, until an insertion meets
a match and the assertion against duplicates ends the run. -/
theorem serveAll_represents (laws : LawfulCmp cmp valid) (calls : List (SetCall κ α))
    (represents : Represents cmp valid heap set model) (proper : ProperRun cmp valid calls model) :
    ((answerAll cmp calls model).1.duplicate = true ∧
        serveAll cmp calls heap set = .error .duplicateElement) ∨
      ((answerAll cmp calls model).1.duplicate = false ∧ ∃ heap' set',
        serveAll cmp calls heap set = .ok (heap', set', (answerAll cmp calls model).2) ∧
        Represents cmp valid heap' set' (answerAll cmp calls model).1) := by
  induction calls generalizing heap set model with
  | nil => exact .inr ⟨represents.unique, heap, set, rfl, represents⟩
  | cons call calls inductionHypothesis =>
    obtain ⟨callProper, restProper⟩ := proper
    rcases serve_represents laws represents call callProper with
      ⟨failed, fails⟩ | ⟨unique, heap', set', serves, after⟩
    · refine .inl ⟨answerAll_duplicate calls failed, ?_⟩
      simp only [serveAll, fails]
      rfl
    · rcases inductionHypothesis after (restProper unique) with
        ⟨failed, fails⟩ | ⟨unique', heap'', set'', ends, final⟩
      · refine .inl ⟨failed, ?_⟩
        simp only [serveAll, serves, except_ok_bind, fails]
        rfl
      · refine .inr ⟨unique', heap'', set'', ?_, final⟩
        simp only [serveAll, serves, except_ok_bind, ends]
        rfl

/-- What is given back is gone, and nothing else. -/
theorem releaseAll_cell (cells : List Nat) (heap : NodeHeap α) (n : Nat) :
    (releaseAll cells heap).cell n = if n ∈ cells then none else heap.cell n := by
  induction cells generalizing heap with
  | nil => simp [releaseAll]
  | cons first rest inductionHypothesis =>
    have step : releaseAll (first :: rest) heap = releaseAll rest (heap.release first) := rfl
    rw [step, inductionHypothesis]
    by_cases later : n ∈ rest
    · simp [later]
    · by_cases here : n = first
      · simp [here, NodeHeap.release]
      · simp [later, here, NodeHeap.release]

/-- `OSetGen_Destroy` gives back every node of the set, so that no node is left. -/
theorem osetGenDestroy_represents (represents : Represents cmp valid heap set model) :
    ∃ heap', osetGenDestroy heap set = .ok heap' ∧ ∀ n, heap'.cell n = none := by
  have fits := represents.fits
  have counted : set.nElems = model.root.size := by
    rw [represents.count, size_eq_length]
    rfl
  have start : Doomed heap model.root.height [] [] model.root.height 0 := .done le_rfl
  obtain ⟨stack', shape, doomed⟩ := start.push represents.held le_rfl
  rw [List.append_nil] at doomed
  have listed := postorder_perm model.root
  have ends := @destroyLoop_doomed _ _ _ _ _ _ { set with stack := stack' } 0 doomed fits
    (listed.nodup_iff.mpr represents.distinct)
  have length : 0 + (postorder model.root).length = set.nElems := by
    rw [Nat.zero_add, listed.length_eq, represents.count]
    simp [addresses, OSet.size, OSet.toList]
  rw [length, Nat.add_zero, ← counted] at ends
  refine ⟨releaseAll (postorder model.root) heap, ?_, ?_⟩
  · by_cases empty : top model.root = 0
    · have root : (stackClear set).root = 0 := represents.root.trans empty
      simp only [empty, ne_eq, not_true_eq_false, if_false] at shape
      rw [shape] at ends
      have ended : destroyLoop (3 * (stackClear set).nElems + 1) heap (stackClear set) 0 = _ := ends
      simp only [osetGenDestroy, root, ne_eq, not_true_eq_false, if_false, except_pure,
        except_ok_bind, ended]
      simp [stackClear]
    · have root : (stackClear set).root = top model.root := represents.root
      simp only [empty, ne_eq, not_false_eq_true, if_true] at shape
      rw [shape] at ends
      have pushes : stackPush (stackClear set) (top model.root) 1 =
          .ok { set with stack := [(top model.root, 1)] } :=
        stackPush_room (by simp [stackClear, stackMax]) (by decide)
      simp only [osetGenDestroy, root, empty, ne_eq, not_false_eq_true, if_true, pushes,
        except_ok_bind, ends]
      simp
  · intro n
    rw [releaseAll_cell]
    split
    · rfl
    · next outside =>
      rw [listed.mem_iff] at outside
      exact represents.only n outside

/-- Every run of calls on a new set that keeps to the contract of the interface is answered as
by an ordered set, and memory holds that set as a balanced tree. No pointer to nothing is
followed and no assertion fails but the one against duplicates, and that one exactly when an
insertion meets a match.

Proof: induction on the calls, with one lemma for each function of the source. Each takes a
memory that represents a set to one that represents the set after the call, and reads only
nodes of the set on the way. -/
theorem node_sets_answer (laws : LawfulCmp cmp valid) (calls : List (SetCall κ α))
    (proper : ProperRun cmp valid calls OSet.create) :
    ((answerAll cmp calls OSet.create).1.duplicate = true ∧
        serveAll cmp calls NodeHeap.empty osetGenCreate = .error .duplicateElement) ∨
      ((answerAll cmp calls OSet.create).1.duplicate = false ∧ ∃ heap set,
        serveAll cmp calls NodeHeap.empty osetGenCreate =
          .ok (heap, set, (answerAll cmp calls OSet.create).2) ∧
        Represents cmp valid heap set (answerAll cmp calls OSet.create).1) :=
  serveAll_represents laws calls create_represents proper

/-- Two stores are tracked and walked; the first is cut short on the way and the second is removed.
-/
def storeCalls : List (SetCall PmemSt PmemSt) :=
  [.insert 200 (.range 64 8), .insert 100 (.range 0 8), .lookup (.range 4 1), .resetIter, .next,
    .write 100 (fun store => { store with size := 4 }), .next, .next, .lookup (.range 4 1),
    .resetIterAt (.range 4 1), .next, .remove (.range 60 8), .size, .next]

/-- A run on records of stores, answered as it should be. -/
theorem node_sets_answer_stores :
    ∃ heap set, serveAll storeCmp storeCalls NodeHeap.empty osetGenCreate =
      .ok (heap, set, [.done, .done, .element (some (100, .range 0 8)), .done,
        .element (some (100, .range 0 8)), .done, .element (some (200, .range 64 8)), .element none,
        .element none, .done, .element (some (200, .range 64 8)),
        .element (some (200, .range 64 8)), .count 1, .element none]) := by
  have proper : ProperRun storeCmp PmemSt.Proper storeCalls OSet.create := by decide +kernel
  have answers : (answerAll storeCmp storeCalls OSet.create).2 =
      [.done, .done, .element (some (100, .range 0 8)), .done,
        .element (some (100, .range 0 8)), .done, .element (some (200, .range 64 8)), .element none,
        .element none, .done, .element (some (200, .range 64 8)),
        .element (some (200, .range 64 8)), .count 1, .element none] := by decide +kernel
  rcases node_sets_answer storeCmp_lawful storeCalls proper with
    ⟨failed, _⟩ | ⟨_, heap, set, serves, _⟩
  · have unique : (answerAll storeCmp storeCalls OSet.create).1.duplicate = false := by
      decide +kernel
    rw [unique] at failed
    cases failed
  · exact ⟨heap, set, answers ▸ serves⟩

/-- After every such run the destruction of the set gives back all nodes that the run has
allocated and not given back before. It follows no node after it was given back, and its count
agrees.

Proof: the run leaves a balanced tree in memory. The destruction walks it in postorder over a
stack of subtrees, on which a node is given back after its children; the height of a balanced
tree keeps the stack within its bound. -/
theorem node_sets_destroyed (laws : LawfulCmp cmp valid) (calls : List (SetCall κ α))
    (proper : ProperRun cmp valid calls OSet.create)
    (unique : (answerAll cmp calls OSet.create).1.duplicate = false) :
    ∃ heap set answers heap',
      serveAll cmp calls NodeHeap.empty osetGenCreate = .ok (heap, set, answers) ∧
      osetGenDestroy heap set = .ok heap' ∧ ∀ n, heap'.cell n = none := by
  rcases serveAll_represents laws calls create_represents proper with
    ⟨failed, _⟩ | ⟨_, heap, set, serves, represents⟩
  · rw [unique] at failed
    cases failed
  · obtain ⟨heap', destroys, nothing⟩ := osetGenDestroy_represents represents
    exact ⟨heap, set, _, heap', serves, destroys, nothing⟩

/-- Words are inserted in an order that makes the tree swing, and the root is removed. -/
def wordCalls : List (SetCall Nat Nat) :=
  [.insert 1 30, .insert 2 10, .insert 3 20, .insert 4 40, .insert 5 50, .remove 20, .contains 20]

/-- A run on machine words, with its destruction. -/
theorem node_sets_destroyed_words :
    ∃ heap set answers heap',
      serveAll (fastCmp id) wordCalls NodeHeap.empty osetGenCreate = .ok (heap, set, answers) ∧
      osetGenDestroy heap set = .ok heap' ∧ ∀ n, heap'.cell n = none :=
  node_sets_destroyed (fastCmp_lawful id) wordCalls (by decide +kernel) (by decide +kernel)

end Runs

end PmDebugger
