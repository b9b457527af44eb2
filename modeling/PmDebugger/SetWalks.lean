import PmDebugger.SetUpdates

/-!
# Walks over the nodes of an ordered set

The walk keeps a stack of nodes. An entry says how much of the subtree of its node is still to come:
all of it, all but the left child, or the right child alone. What the entries say together, from the
top down, is the rest of the walk.

The nodes of the stack are on one way down the tree, so each subtree is lower than the one below it
on the stack. A stack is therefore never longer than the tree is high, and a tree that is no higher
than the stack is long can be walked without an overflow. -/

namespace PmDebugger

open AvlTree
open AvlTree.Tree
open OrderedSet

variable {κ α : Type}

/-- What an entry with its number still covers of the tree at its node: the whole tree, the
node and its right part, or the right part alone. -/
def covered (number : Nat) (here : Nat × α) (left right : AvlTree.Tree (Nat × α)) :
    List (Nat × α) :=
  if number = 1 then left.toList ++ here :: right.toList
  else if number = 2 then here :: right.toList
  else right.toList

/-- A stack and the rest of its walk. The subtrees of its entries are higher than the first bound,
grow from the top down and stay within the second bound. -/
inductive Stacked (heap : NodeHeap α) (high : Nat) :
    List (Nat × Nat) → List (Nat × α) → Nat → Prop where
  | done {low : Nat} (bound : low ≤ high) : Stacked heap high [] [] low
  | entry {stack : List (Nat × Nat)} {rest : List (Nat × α)} {low number : Nat}
      {left right : AvlTree.Tree (Nat × α)} {here : Nat × α} {value : Int}
      (below : Stacked heap high stack rest (AvlTree.Tree.node left here right value).height)
      (held : Holds heap (.node left here right value))
      (valid : 1 ≤ number ∧ number ≤ 3) (higher : low <
        (AvlTree.Tree.node left here right value).height) :
      Stacked heap high ((here.1, number) :: stack) (covered number here left right ++ rest) low

/-- A push of a valid number onto a stack with room. -/
theorem stackPush_room {set : NodeSet} {n number : Nat} (room : set.stack.length < stackMax)
    (valid : 1 ≤ number ∧ number ≤ 3) :
    stackPush set n number = .ok { set with stack := (n, number) :: set.stack } := by
  simp only [stackPush]
  rw [if_pos room, if_pos valid]

/-- A pop of a valid number. -/
theorem stackPop_room {set : NodeSet} {stack : List (Nat × Nat)} {n number : Nat}
    (stacked : set.stack = (n, number) :: stack) (room : set.stack.length ≤ stackMax)
    (valid : 1 ≤ number ∧ number ≤ 3) :
    stackPop set = .ok (some (n, number), { set with stack := stack }) := by
  simp only [stackPop]
  rw [if_pos room, stacked]
  simp only
  rw [if_pos valid]

section Stacks

variable {heap : NodeHeap α} {high low : Nat} {stack : List (Nat × Nat)} {rest : List (Nat × α)}

/-- The stack fits between its bounds. -/
theorem Stacked.length_le (walk : Stacked heap high stack rest low) :
    stack.length + low ≤ high := by
  induction walk with
  | done bound => simpa using bound
  | entry below held valid higher inductionHypothesis =>
    simp only [List.length_cons]
    omega

/-- The lower bound may be lowered. -/
theorem Stacked.lower {less : Nat} (walk : Stacked heap high stack rest low)
    (bound : less ≤ low) : Stacked heap high stack rest less := by
  cases walk with
  | done bound' => exact .done (by omega)
  | entry below held valid higher => exact .entry below held valid (by omega)

variable {left right tree : AvlTree.Tree (Nat × α)} {here : Nat × α} {value : Int} {set : NodeSet}

/-- A node that is lower than the stack allows is pushed. -/
theorem stackPush_stacked (walk : Stacked heap high set.stack rest low) (fits : high ≤ stackMax)
    (held : Holds heap (.node left here right value))
    (bound : (AvlTree.Tree.node left here right value).height ≤ low) {number : Nat}
    (valid : 1 ≤ number ∧ number ≤ 3) :
    stackPush set here.1 number = .ok { set with stack := (here.1, number) :: set.stack } ∧
      Stacked heap high ((here.1, number) :: set.stack) (covered number here left right ++ rest)
        (max left.height right.height) := by
  have short := walk.length_le
  simp only [height_node] at bound
  exact ⟨stackPush_room (by omega) valid, .entry (walk.lower bound) held valid (by simp)⟩

/-- Going down to the left stacks the whole subtree, and its least node is on top. -/
theorem pushLeft_stacked (turns : Nat) (walk : Stacked heap high set.stack rest low)
    (fits : high ≤ stackMax) (held : Holds heap tree) (nonempty : tree ≠ .leaf)
    (bound : tree.height ≤ low) (enough : tree.height ≤ turns) :
    ∃ n stack', pushLeft heap turns set (top tree) = .ok { set with stack := (n, 2) :: stack' } ∧
      Stacked heap high ((n, 2) :: stack') (tree.toList ++ rest) 0 := by
  induction tree generalizing turns set rest low with
  | leaf => exact absurd rfl nonempty
  | node left here right value leftPushed _ =>
    obtain ⟨pushes, pushed⟩ := stackPush_stacked walk fits held bound (by decide : 1 ≤ 2 ∧ 2 ≤ 3)
    simp only [height_node] at enough
    obtain ⟨few, rfl⟩ : ∃ few, turns = few + 1 := ⟨turns - 1, by omega⟩
    by_cases empty : left = .leaf
    · subst empty
      refine ⟨here.1, set.stack, ?_, ?_⟩
      · simp [pushLeft, pushes, read_node held.1]
      · simpa [toList, covered] using pushed.lower (Nat.zero_le _)
    · have link : top left ≠ 0 := fun zero => empty (held.2.1.top_eq_zero.mp zero)
      obtain ⟨n, stack', continues, result⟩ := @leftPushed _ _
        { set with stack := (here.1, 2) :: set.stack } few pushed held.2.1 empty (by omega)
          (by omega)
      refine ⟨n, stack', ?_, ?_⟩
      · simp [pushLeft, pushes, read_node held.1, link, continues]
      · simpa [toList, covered] using result

/-- A node that is due is handed out, and its right child is left. -/
theorem nextLoop_due {n : Nat} (turns : Nat) (stacked : set.stack = (n, 2) :: stack)
    (walk : Stacked heap high ((n, 2) :: stack) rest low) (fits : high ≤ stackMax) :
    ∃ here later, rest = here :: later ∧
      nextLoop heap (turns + 1) set = .ok ({ set with stack := (n, 3) :: stack }, here.1) ∧
      Stacked heap high ((n, 3) :: stack) later low := by
  have room := walk.length_le
  have popped := stackPop_room stacked (by rw [stacked]; omega) (by decide)
  cases walk with
  | @entry _ others _ _ left right here value below held valid higher =>
    have due : covered 2 here left right ++ others = here :: (right.toList ++ others) := rfl
    obtain ⟨pushes, _⟩ := @stackPush_stacked _ _ _ _ _ _ _ _ _ { set with stack := stack }
        below fits held le_rfl 3 (by decide)
    refine ⟨here, right.toList ++ others, due, ?_, ?_⟩
    · simp [nextLoop, popped, pushes, elemOfNode_held held]
    · exact .entry below held (by decide) higher

/-- One step of the walk hands out the first node that is left of it. -/
theorem nextLoop_stacked (turns : Nat) (walk : Stacked heap high set.stack rest low)
    (fits : high ≤ stackMax) (deep : high ≤ set.nElems + 1)
    (enough : set.stack.length + 2 ≤ turns) :
    (rest = [] ∧ nextLoop heap turns set = .ok ({ set with stack := [] }, 0)) ∨
      ∃ here later stack', rest = here :: later ∧
        nextLoop heap turns set = .ok ({ set with stack := stack' }, here.1) ∧
        Stacked heap high stack' later 0 := by
  obtain ⟨few, rfl⟩ : ∃ few, turns = few + 2 := ⟨turns - 2, by omega⟩
  generalize stacked : set.stack = stack at walk enough
  induction walk generalizing set few with
  | done bound =>
    left
    have same : { set with stack := [] } = set := by
      rw [← stacked]
    simp [nextLoop, stackPop, stacked, same]
  | @entry stack others low number left right here value below held valid higher
    inductionHypothesis =>
    have whole : Stacked heap high ((here.1, number) :: stack)
        (covered number here left right ++ others) low := .entry below held valid higher
    have room := below.length_le
    have popped := stackPop_room stacked (by rw [stacked]; have := whole.length_le; omega) valid
    simp only [List.length_cons] at enough
    have numbers : number = 1 ∨ number = 2 ∨ number = 3 := by omega
    rcases numbers with rfl | rfl | rfl
    · right
      obtain ⟨n, stack', pushes, pushed⟩ := @pushLeft_stacked _ _ _ _ _ _
          { set with stack := stack } (set.nElems + 1) below fits held (by simp) le_rfl (by omega)
      obtain ⟨first, later, split, yields, after⟩ := @nextLoop_due _ _ _ _ _ _
        { set with stack := (n, 2) :: stack' } n few rfl pushed fits
      refine ⟨first, later, (n, 3) :: stack', split, ?_, after⟩
      rw [top_node] at pushes
      rw [nextLoop]
      simp [popped, pushes, yields]
    · right
      obtain ⟨first, later, split, yields, after⟩ := nextLoop_due (few + 1) stacked whole fits
      exact ⟨first, later, (here.1, 3) :: stack, split, yields, after.lower (Nat.zero_le _)⟩
    · by_cases empty : right = .leaf
      · subst empty
        obtain ⟨more, rfl⟩ : ∃ more, few = more + 1 := ⟨few - 1, by omega⟩
        have continues : nextLoop heap (more + 1 + 2) set =
            nextLoop heap (more + 2) { set with stack := stack } := by
          rw [nextLoop]
          simp [popped, read_node held.1]
        rw [continues]
        exact @inductionHypothesis { set with stack := stack } deep more rfl (by omega)
      · right
        have link : top right ≠ 0 := fun zero => empty (held.2.2.top_eq_zero.mp zero)
        simp only [height_node] at room
        obtain ⟨n, stack', pushes, pushed⟩ :=
            @pushLeft_stacked _ _ _ _ _ _ { set with stack := stack }
          (set.nElems + 1) below fits held.2.2 empty (by simp only [height_node]; omega) (by omega)
        obtain ⟨first, later, split, yields, after⟩ := @nextLoop_due _ _ _ _ _ _
          { set with stack := (n, 2) :: stack' } n few rfl pushed fits
        refine ⟨first, later, (n, 3) :: stack', split, ?_, after⟩
        rw [nextLoop]
        simp [popped, read_node held.1, link, pushes, yields]

/-- A search for a key does not pass the end of the listing. -/
theorem seek_le_length (key : Nat × α → Ordering) (tree : AvlTree.Tree (Nat × α)) :
    tree.seek key ≤ tree.toList.length := by
  induction tree with
  | leaf => simp [AvlTree.Tree.seek]
  | node left here right value leftSeek rightSeek =>
    simp only [AvlTree.Tree.seek, toList, List.length_append, List.length_cons, size_eq_length]
    split <;> omega

/-- The search for a key stacks what is not below it. -/
theorem seekLoop_stacked (cmp : OSetCmp κ α) (k : κ) (turns : Nat)
    (walk : Stacked heap high set.stack rest low) (fits : high ≤ stackMax) (held : Holds heap tree)
    (bound : tree.height ≤ low) (enough : tree.height < turns) :
    ∃ stack', seekLoop cmp heap k turns set (top tree) = .ok { set with stack := stack' } ∧
      Stacked heap high stack' (tree.toList.drop (tree.seek (cmp.toNode k)) ++ rest) 0 := by
  induction tree generalizing turns set rest low with
  | leaf =>
    obtain ⟨few, rfl⟩ : ∃ few, turns = few + 1 := ⟨turns - 1, by omega⟩
    refine ⟨set.stack, by simp [seekLoop], ?_⟩
    simpa [toList] using walk.lower (Nat.zero_le _)
  | node left here right value leftSeek rightSeek =>
    obtain ⟨few, rfl⟩ : ∃ few, turns = few + 1 := ⟨turns - 1, by omega⟩
    obtain ⟨pushes, pushed⟩ := stackPush_stacked walk fits held bound (by decide : 1 ≤ 2 ∧ 2 ≤ 3)
    have compares := slowCmp_held cmp k held
    have present := held.top_ne_zero
    simp only [height_node] at enough bound
    cases compared : cmp.toNode k here with
    | lt =>
      obtain ⟨stack', seeks, result⟩ := @leftSeek _ _
          { set with stack := (here.1, 2) :: set.stack } few pushed held.2.1 (by omega) (by omega)
      refine ⟨stack', ?_, ?_⟩
      · simp [seekLoop, present, compares, compared, pushes, read_node held.1, seeks]
      · have within := seek_le_length (cmp.toNode k) left
        simp only [AvlTree.Tree.seek, compared, toList]
        rw [List.drop_append_of_le_length within, List.append_assoc]
        exact result
    | gt =>
      obtain ⟨stack', seeks, result⟩ := rightSeek few walk held.2.2 (by omega) (by omega)
      refine ⟨stack', ?_, ?_⟩
      · simp [seekLoop, present, compares, compared, read_node held.1, seeks]
      · have skipped : (left.toList ++ here :: right.toList).drop
            (left.size + 1 + right.seek (cmp.toNode k)) =
              right.toList.drop (right.seek (cmp.toNode k)) := by
          rw [size_eq_length, Nat.add_assoc, List.drop_length_add_append, Nat.add_comm 1,
            List.drop_succ_cons]
        simpa only [AvlTree.Tree.seek, compared, toList, skipped] using result
    | eq =>
      refine ⟨(here.1, 2) :: set.stack, ?_, ?_⟩
      · simp [seekLoop, present, compares, compared, pushes]
      · simpa [AvlTree.Tree.seek, compared, toList, size_eq_length, covered] using
          pushed.lower (Nat.zero_le _)

end Stacks

/-- The addresses of a tree, children before their parent. This is the order in which the set
is destroyed. -/
def postorder : AvlTree.Tree (Nat × α) → List Nat
  | .leaf => []
  | .node left here right _ => postorder left ++ (postorder right ++ [here.1])

/-- Memory after some nodes have been given back one after the other. -/
def releaseAll (cells : List Nat) (heap : NodeHeap α) : NodeHeap α :=
  cells.foldl NodeHeap.release heap

/-- A stack of a destruction, the nodes that it still gives back, in their order, and the turns that
this takes. Of a node whose left child is gone only the link to the right is followed. -/
inductive Doomed (heap : NodeHeap α) (high : Nat) :
    List (Nat × Nat) → List Nat → Nat → Nat → Prop where
  | done {low : Nat} (bound : low ≤ high) : Doomed heap high [] [] low 0
  | both {stack : List (Nat × Nat)} {cells : List Nat} {low turns : Nat}
      {left right : AvlTree.Tree (Nat × α)} {here : Nat × α} {value : Int}
      (below : Doomed heap high stack cells (AvlTree.Tree.node left here right value).height turns)
      (held : Holds heap (.node left here right value))
      (higher : low < (AvlTree.Tree.node left here right value).height) :
      Doomed heap high ((here.1, 1) :: stack)
        (postorder left ++ (postorder right ++ here.1 :: cells)) low
        (3 * (AvlTree.Tree.node left here right value).size + turns)
  | one {stack : List (Nat × Nat)} {cells : List Nat} {low level turns n : Nat}
      {right : AvlTree.Tree (Nat × α)} {node : OSetNode α}
      (below : Doomed heap high stack cells level turns) (stands : heap.cell n = some node)
      (link : node.right = top right) (held : Holds heap right) (lower : right.height < level)
      (higher : low < level) :
      Doomed heap high ((n, 2) :: stack) (postorder right ++ n :: cells) low
        (3 * right.size + 2 + turns)
  | last {stack : List (Nat × Nat)} {cells : List Nat} {low level turns n : Nat}
      {node : OSetNode α} (below : Doomed heap high stack cells level turns)
      (stands : heap.cell n = some node) (higher : low < level) :
      Doomed heap high ((n, 3) :: stack) (n :: cells) low (1 + turns)

section Destruction

variable {heap : NodeHeap α} {high low turns : Nat} {stack : List (Nat × Nat)} {cells : List Nat}
  {tree : AvlTree.Tree (Nat × α)}

/-- The postorder has every address of the tree once. -/
theorem postorder_perm (tree : AvlTree.Tree (Nat × α)) :
    (postorder tree).Perm (addresses tree) := by
  induction tree with
  | leaf => exact List.Perm.refl _
  | node left here right value leftPerm rightPerm =>
    simp only [postorder, addresses_node]
    exact leftPerm.append ((List.perm_append_singleton _ _).trans (rightPerm.cons here.1))

/-- The stack has no more entries than there are heights to go down. -/
theorem Doomed.length_le (doomed : Doomed heap high stack cells low turns) :
    stack.length + low ≤ high := by
  induction doomed with
  | done bound => simpa using bound
  | both below held higher inductionHypothesis =>
    simp only [List.length_cons]
    omega
  | one below stands link held lower higher inductionHypothesis =>
    simp only [List.length_cons]
    omega
  | last below stands higher inductionHypothesis =>
    simp only [List.length_cons]
    omega

/-- The bound of the heights may be lowered. -/
theorem Doomed.lower {less : Nat} (doomed : Doomed heap high stack cells low turns)
    (bound : less ≤ low) : Doomed heap high stack cells less turns := by
  cases doomed with
  | done bound' => exact .done (by omega)
  | both below held higher => exact .both below held (by omega)
  | one below stands link held lower higher => exact .one below stands link held lower (by omega)
  | last below stands higher => exact .last below stands (by omega)

/-- The other nodes of a tree stay when one is given back. -/
theorem Holds.release {n : Nat} (held : Holds heap tree) (other : n ∉ addresses tree) :
    Holds (heap.release n) tree := by
  refine held.congr ?_
  intro m member
  have differs : m ≠ n := fun same => other (same ▸ member)
  simp [NodeHeap.release, differs]

/-- What a stack will give back stands until then. -/
theorem Doomed.release {n : Nat} (doomed : Doomed heap high stack cells low turns)
    (other : n ∉ cells) : Doomed (heap.release n) high stack cells low turns := by
  induction doomed with
  | done bound => exact .done bound
  | @both _ _ _ _ left right here value below held higher inductionHypothesis =>
    simp only [List.mem_append, List.mem_cons, not_or, (postorder_perm left).mem_iff,
      (postorder_perm right).mem_iff] at other
    refine .both (inductionHypothesis other.2.2.2) (held.release ?_) higher
    simp only [mem_addresses_node, not_or]
    exact ⟨other.1, other.2.2.1, other.2.1⟩
  | @one _ _ _ _ _ m right node below stands link held lower higher inductionHypothesis =>
    simp only [List.mem_append, List.mem_cons, not_or, (postorder_perm right).mem_iff] at other
    refine .one (inductionHypothesis other.2.2) ?_ link (held.release other.1) lower higher
    simp only [NodeHeap.release, Ne.symm other.2.1, if_false]
    exact stands
  | @last _ _ _ _ _ m node below stands higher inductionHypothesis =>
    simp only [List.mem_cons, not_or] at other
    have kept : (heap.release n).cell m = some node := by
      simp only [NodeHeap.release, Ne.symm other.1, if_false]
      exact stands
    exact .last (inductionHypothesis other.2) kept higher

/-- A subtree is put on top of a stack that is to be given back. -/
theorem Doomed.push (doomed : Doomed heap high stack cells low turns) (held : Holds heap tree)
    (bound : tree.height ≤ low) :
    ∃ stack', (stack' = if top tree ≠ 0 then (top tree, 1) :: stack else stack) ∧
      Doomed heap high stack' (postorder tree ++ cells) 0 (3 * tree.size + turns) := by
  cases tree with
  | leaf =>
    refine ⟨stack, by simp, ?_⟩
    simpa [postorder, AvlTree.Tree.size] using doomed.lower (Nat.zero_le _)
  | node left here right value =>
    refine ⟨(here.1, 1) :: stack, by simp [held.top_ne_zero], ?_⟩
    have pushed : Doomed heap high ((here.1, 1) :: stack) _ 0 _ :=
      .both (doomed.lower bound) held (by simp)
    simpa [postorder] using pushed

/-- The destruction gives back every node that is due, in order, and counts them. -/
theorem destroyLoop_doomed {set : NodeSet} (sz : Nat)
    (doomed : Doomed heap high set.stack cells low turns) (fits : high ≤ stackMax)
    (distinct : cells.Nodup) :
    destroyLoop (turns + 1) heap set sz = .ok (releaseAll cells heap, sz + cells.length) := by
  generalize stacked : set.stack = stack at doomed
  have room := doomed.length_le
  induction turns using Nat.strong_induction_on generalizing heap set stack cells low sz with
  | _ turns inductionHypothesis =>
    cases doomed with
    | done bound => simp [destroyLoop, stackPop, stacked, releaseAll]
    | @both stack others _ cost left right here value below held higher =>
      have popped := stackPop_room stacked (by rw [stacked]; omega) (by decide)
      have belowRoom := below.length_le
      simp only [height_node, AvlTree.Tree.size] at *
      have again : Doomed heap high ((here.1, 2) :: stack) (postorder right ++ here.1 :: others)
          (max left.height right.height) (3 * right.size + 2 + cost) :=
        .one below held.1 rfl held.2.2 (by omega) (by omega)
      have pushes : stackPush { set with stack := stack } here.1 2 =
          .ok { set with stack := (here.1, 2) :: stack } :=
            stackPush_room (by simp only; omega) (by decide)
      obtain ⟨stack', shape, pushed⟩ := again.push held.2.1 (by omega)
      have ends := @inductionHypothesis (3 * left.size + (3 * right.size + 2 + cost))
          (by omega) heap
        _ _ { set with stack := stack' } sz distinct stack' rfl pushed pushed.length_le
      have count : 3 * (left.size + 1 + right.size) + cost =
          3 * left.size + (3 * right.size + 2 + cost) + 1 := by omega
      rw [count, destroyLoop]
      by_cases link : top left = 0
      · simp only [link, ne_eq, not_true_eq_false, if_false] at shape
        rw [shape] at ends
        simp only [popped, except_ok_bind, pushes, read_node held.1, link, ne_eq, not_true_eq_false,
          if_false, except_pure]
        exact ends
      · simp only [link, ne_eq, not_false_eq_true, if_true] at shape
        have present : 0 < left.height := by
          cases left with
          | leaf => exact absurd rfl link
          | node => simp
        have pushes' : stackPush { set with stack := (here.1, 2) :: stack } (top left) 1 =
            .ok { set with stack := (top left, 1) :: (here.1, 2) :: stack } :=
          stackPush_room (by simp only [List.length_cons]; omega) (by decide)
        rw [shape] at ends
        simp only [popped, except_ok_bind, pushes, read_node held.1, link, ne_eq, not_false_eq_true,
          if_true, pushes']
        exact ends
    | @one stack others _ level cost n right node below stands link held lower higher =>
      have popped := stackPop_room stacked (by rw [stacked]; omega) (by decide)
      have belowRoom := below.length_le
      have again : Doomed heap high ((n, 3) :: stack) (n :: others) right.height (1 + cost) :=
        .last below stands lower
      have pushes : stackPush { set with stack := stack } n 3 =
          .ok { set with stack := (n, 3) :: stack } :=
            stackPush_room (by simp only; omega) (by decide)
      obtain ⟨stack', shape, pushed⟩ := again.push held le_rfl
      have ends := @inductionHypothesis (3 * right.size + (1 + cost)) (by omega) heap
        _ _ { set with stack := stack' } sz distinct stack' rfl pushed pushed.length_le
      have count : 3 * right.size + 2 + cost = 3 * right.size + (1 + cost) + 1 := by omega
      rw [count, destroyLoop]
      by_cases absent : top right = 0
      · simp only [absent, ne_eq, not_true_eq_false, if_false] at shape
        rw [shape] at ends
        simp only [popped, except_ok_bind, pushes, read_node stands, link, absent, ne_eq,
          not_true_eq_false, if_false, except_pure]
        exact ends
      · simp only [absent, ne_eq, not_false_eq_true, if_true] at shape
        have present : 0 < right.height := by
          cases right with
          | leaf => exact absurd rfl absent
          | node => simp
        have pushes' : stackPush { set with stack := (n, 3) :: stack } (top right) 1 =
            .ok { set with stack := (top right, 1) :: (n, 3) :: stack } :=
          stackPush_room (by simp only [List.length_cons]; omega) (by decide)
        rw [shape] at ends
        simp only [popped, except_ok_bind, pushes, read_node stands, link, absent, ne_eq,
          not_false_eq_true, if_true, pushes']
        exact ends
    | @last stack others _ level cost n node below stands higher =>
      have popped := stackPop_room stacked (by rw [stacked]; omega) (by decide)
      obtain ⟨notLater, laterDistinct⟩ := List.nodup_cons.mp distinct
      have ends := @inductionHypothesis cost (by omega) (heap.release n) _ _
          { set with stack := stack }
        (sz + 1) laterDistinct stack rfl (below.release notLater) below.length_le
      rw [Nat.add_comm 1 cost, destroyLoop]
      simp only [popped, except_ok_bind, read_node stands, ends, releaseAll, List.foldl_cons,
        List.length_cons]
      congr 2
      omega

end Destruction

end PmDebugger
