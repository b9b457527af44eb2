import PmDebugger.Library.AvlTree

/-!
# The nodes of an ordered set

The functions of `m_oset.c`, on which every table of the tool is built. A set is a tree of nodes
that are linked by pointers and rewritten in place, a count and the stack of one walk.

Memory maps an address to the node that stands there; the null pointer names none. A node carries
its metadata and the element behind it, so the pointer to an element is the address of its node. A
read or a write where no node stands is a fault, and so is every assertion of the source that fails.

A recursion or a loop over the nodes takes a number of turns, since a chain of pointers may have no
end. The functions that start one give it more turns than a tree of as many elements needs.
-/

namespace PmDebugger

/-- `OSET_MAGIC`. A node that was allocated bears this number in front of its element. -/
def osetMagic : Nat := 0x5b1f

/-- `STACK_MAX`. The walk over a set stacks the nodes on its way down. -/
def stackMax : Nat := 32

/-- What ends an operation early: a read through a pointer to nothing, a failed assertion of
the source, or a loop that has taken more turns than there are nodes to meet. -/
inductive Fault where
  | noNode
  | badMagic
  | duplicateElement
  | stackFull
  | stackNumber
  | noChild
  | otherNode
  | otherCount
  | endless
deriving DecidableEq, Repr

/-- `struct _OSetNode`, with the element that follows it in memory. The two children are
addresses, and the null pointer is none. -/
structure OSetNode (α : Type) where
  left : Nat
  right : Nat
  balance : Int
  magic : Nat
  elem : α
deriving DecidableEq, Repr

/-- Memory that holds nodes, none of them at the null pointer. An address without a node may
have been given back, or never have been allocated. -/
structure NodeHeap (α : Type) where
  cell : Nat → Option (OSetNode α)
  null : cell 0 = none

/-- What tells the order of a key and an element: `keyOff` and `cmp`. The key of an element is
a part of it. -/
structure OSetCmp (κ α : Type) where
  keyOf : α → κ
  compare : κ → α → Ordering

/-- `fast_cmp`: the order of the words that elements begin with. It is taken where no
comparison is given. -/
def fastCmp {α : Type} (firstWord : α → Nat) : OSetCmp Nat α :=
  { keyOf := firstWord, compare := fun word elem => Ord.compare word (firstWord elem) }

variable {κ α : Type}

namespace NodeHeap

/-- Memory without nodes. -/
def empty : NodeHeap α := { cell := fun _ => none, null := rfl }

/-- Read the node at an address. There is nothing to read at a null pointer, nor in a node that
was given back. -/
def read (heap : NodeHeap α) (n : Nat) : Except Fault (OSetNode α) :=
  match heap.cell n with
  | some node => .ok node
  | none => .error .noNode

/-- Memory with the node at an address rewritten. Where no node stands, nothing is written. -/
def modify (heap : NodeHeap α) (n : Nat) (edit : OSetNode α → OSetNode α) : NodeHeap α where
  cell other := if other = n then (heap.cell n).map edit else heap.cell other
  null := by
    split
    · next null =>
      rw [← null, heap.null]
      rfl
    · exact heap.null

/-- Write to the node at an address, which must be there. -/
def update (heap : NodeHeap α) (n : Nat) (edit : OSetNode α → OSetNode α) :
    Except Fault (NodeHeap α) := do
  let _ ← heap.read n
  return heap.modify n edit

/-- `n->left = child`. -/
def setLeft (heap : NodeHeap α) (n child : Nat) : Except Fault (NodeHeap α) :=
  heap.update n (fun node => { node with left := child })

/-- `n->right = child`. -/
def setRight (heap : NodeHeap α) (n child : Nat) : Except Fault (NodeHeap α) :=
  heap.update n (fun node => { node with right := child })

/-- `n->balance = value`. -/
def setBalance (heap : NodeHeap α) (n : Nat) (value : Int) : Except Fault (NodeHeap α) :=
  heap.update n (fun node => { node with balance := value })

/-- Memory in which a node has been given back. Nothing reads it from here on. -/
def release (heap : NodeHeap α) (n : Nat) : NodeHeap α where
  cell other := if other = n then none else heap.cell other
  null := by
    split
    · rfl
    · exact heap.null

/-- Memory in which a node stands at an address other than null, whatever stood there. -/
def place (heap : NodeHeap α) (n : Nat) (nonNull : n ≠ 0) (node : OSetNode α) : NodeHeap α where
  cell other := if other = n then some node else heap.cell other
  null := by
    rw [if_neg (Ne.symm nonNull)]
    exact heap.null

end NodeHeap

/-- `elem_of_node`, read at once. The assertion on the magic number is part of it. -/
def elemOfNode (heap : NodeHeap α) (n : Nat) : Except Fault α := do
  let node ← heap.read n
  if node.magic = osetMagic then return node.elem
  else throw .badMagic

/-- `node_of_elem`. An element and its node have one address here, and what is left is the
assertion. -/
def nodeOfElem (heap : NodeHeap α) (n : Nat) : Except Fault Nat := do
  let node ← heap.read n
  if node.magic = osetMagic then return n
  else throw .badMagic

/-- `slow_cmp`, and `fast_cmp` where the comparison is that of words. The key comes first. -/
def slowCmp (cmp : OSetCmp κ α) (heap : NodeHeap α) (k : κ) (n : Nat) : Except Fault Ordering := do
  return cmp.compare k (← elemOfNode heap n)

/-- `cmp_key_root`. The key of the one node is compared with the element of the other. -/
def cmpKeyRoot (cmp : OSetCmp κ α) (heap : NodeHeap α) (root n : Nat) : Except Fault Ordering := do
  slowCmp cmp heap (cmp.keyOf (← elemOfNode heap n)) root

/-- `avl_swl`, which hands back what it stores as the root. The right child of the root takes
its place. -/
def avlSwl (heap : NodeHeap α) (root : Nat) : Except Fault (NodeHeap α × Nat) := do
  let a := root
  let b := (← heap.read a).right
  let heap ← heap.setRight a (← heap.read b).left
  let heap ← heap.setLeft b a
  return (heap, b)

/-- `avl_swr`. The left child of the root takes its place. -/
def avlSwr (heap : NodeHeap α) (root : Nat) : Except Fault (NodeHeap α × Nat) := do
  let a := root
  let b := (← heap.read a).left
  let heap ← heap.setLeft a (← heap.read b).right
  let heap ← heap.setRight b a
  return (heap, b)

/-- The balances that `avl_nasty` gives to the children, by that of the root. Another balance
leaves them. -/
def nastyBalances (value : Int) : Option (Int × Int) :=
  if value = -1 then some (0, 1)
  else if value = 1 then some (-1, 0)
  else if value = 0 then some (0, 0)
  else none

/-- `avl_nasty`: the balances after a double rotation. -/
def avlNasty (heap : NodeHeap α) (root : Nat) : Except Fault (NodeHeap α) := do
  let node ← heap.read root
  match nastyBalances node.balance with
  | some (left, right) =>
      let heap ← heap.setBalance node.left left
      let heap ← heap.setBalance node.right right
      heap.setBalance root 0
  | none => heap.setBalance root 0

/-- What `avl_insert` does once the left subtree has grown. A tree that leaned to the right is
even now, an even one leans to the left and has grown, and one that leaned to the left is
rotated. -/
def leftGrown (heap : NodeHeap α) (root : Nat) : Except Fault (NodeHeap α × Nat × Bool) := do
  let balance := (← heap.read root).balance
  let heap ← heap.setBalance root (balance - 1)
  if balance = 1 then return (heap, root, false)
  else if balance = 0 then return (heap, root, true)
  else
    let left := (← heap.read root).left
    if (← heap.read left).balance < 0 then
      let (heap, root) ← avlSwr heap root
      let heap ← heap.setBalance root 0
      let heap ← heap.setBalance (← heap.read root).right 0
      return (heap, root, false)
    else
      let (heap, left) ← avlSwl heap left
      let heap ← heap.setLeft root left
      let (heap, root) ← avlSwr heap root
      let heap ← avlNasty heap root
      return (heap, root, false)

/-- What `avl_insert` does once the right subtree has grown. It is the mirror image of
`leftGrown`. -/
def rightGrown (heap : NodeHeap α) (root : Nat) : Except Fault (NodeHeap α × Nat × Bool) := do
  let balance := (← heap.read root).balance
  let heap ← heap.setBalance root (balance + 1)
  if balance = -1 then return (heap, root, false)
  else if balance = 0 then return (heap, root, true)
  else
    let right := (← heap.read root).right
    if 0 < (← heap.read right).balance then
      let (heap, root) ← avlSwl heap root
      let heap ← heap.setBalance root 0
      let heap ← heap.setBalance (← heap.read root).left 0
      return (heap, root, false)
    else
      let (heap, right) ← avlSwr heap right
      let heap ← heap.setRight root right
      let (heap, root) ← avlSwl heap root
      let heap ← avlNasty heap root
      return (heap, root, false)

/-- `avl_insert`. The pointer to a subtree that has grown is not written back, and need not be:
a subtree whose root has changed was rotated, and has not grown then. An equal element fails
the assertion against duplicates. -/
def avlInsert (cmp : OSetCmp κ α) (n : Nat) :
    Nat → NodeHeap α → Nat → Except Fault (NodeHeap α × Nat × Bool)
  | 0, _, _ => throw .endless
  | turns + 1, heap, root => do
      match ← cmpKeyRoot cmp heap root n with
      | .lt =>
          let left := (← heap.read root).left
          if left ≠ 0 then
            let (heap, left, grown) ← avlInsert cmp n turns heap left
            if grown then leftGrown heap root
            else
              let heap ← heap.setLeft root left
              return (heap, root, false)
          else
            let heap ← heap.setLeft root n
            let balance := (← heap.read root).balance
            let heap ← heap.setBalance root (balance - 1)
            return (heap, root, balance = 0)
      | .gt =>
          let right := (← heap.read root).right
          if right ≠ 0 then
            let (heap, right, grown) ← avlInsert cmp n turns heap right
            if grown then rightGrown heap root
            else
              let heap ← heap.setRight root right
              return (heap, root, false)
          else
            let heap ← heap.setRight root n
            let balance := (← heap.read root).balance
            let heap ← heap.setBalance root (balance + 1)
            return (heap, root, balance = 0)
      | .eq => throw .duplicateElement

/-- `avl_lookup`, from a node on. It ends at a match or at a null pointer. -/
def avlLookup (cmp : OSetCmp κ α) (heap : NodeHeap α) (k : κ) : Nat → Nat → Except Fault Nat
  | 0, _ => throw .endless
  | turns + 1, curr =>
      if curr = 0 then return 0
      else do
        match ← slowCmp cmp heap k curr with
        | .lt => avlLookup cmp heap k turns (← heap.read curr).left
        | .gt => avlLookup cmp heap k turns (← heap.read curr).right
        | .eq => return curr

/-- What `avl_remove` does once the left subtree has shrunk. A tree that leaned to the left is
even now and has shrunk, an even one leans to the right, and one that leaned to the right is
rotated. -/
def leftShrunk (heap : NodeHeap α) (root : Nat) : Except Fault (NodeHeap α × Nat × Bool) := do
  let balance := (← heap.read root).balance
  let heap ← heap.setBalance root (balance + 1)
  if balance = -1 then return (heap, root, true)
  else if balance = 0 then return (heap, root, false)
  else
    let right := (← heap.read root).right
    let value := (← heap.read right).balance
    if value = 0 then
      let (heap, root) ← avlSwl heap root
      let heap ← heap.setBalance root (-1)
      let heap ← heap.setBalance (← heap.read root).left 1
      return (heap, root, false)
    else if value = 1 then
      let (heap, root) ← avlSwl heap root
      let heap ← heap.setBalance root 0
      let heap ← heap.setBalance (← heap.read root).left 0
      return (heap, root, true)
    else
      let (heap, right) ← avlSwr heap right
      let heap ← heap.setRight root right
      let (heap, root) ← avlSwl heap root
      let heap ← avlNasty heap root
      return (heap, root, true)

/-- What `avl_remove` does once the right subtree has shrunk. It is the mirror image of
`leftShrunk`. -/
def rightShrunk (heap : NodeHeap α) (root : Nat) : Except Fault (NodeHeap α × Nat × Bool) := do
  let balance := (← heap.read root).balance
  let heap ← heap.setBalance root (balance - 1)
  if balance = 1 then return (heap, root, true)
  else if balance = 0 then return (heap, root, false)
  else
    let left := (← heap.read root).left
    let value := (← heap.read left).balance
    if value = 0 then
      let (heap, root) ← avlSwr heap root
      let heap ← heap.setBalance root 1
      let heap ← heap.setBalance (← heap.read root).right (-1)
      return (heap, root, false)
    else if value = -1 then
      let (heap, root) ← avlSwr heap root
      let heap ← heap.setBalance root 0
      let heap ← heap.setBalance (← heap.read root).right 0
      return (heap, root, true)
    else
      let (heap, left) ← avlSwl heap left
      let heap ← heap.setLeft root left
      let (heap, root) ← avlSwr heap root
      let heap ← avlNasty heap root
      return (heap, root, true)

/-- `while (n->right) n = n->right;`. The node must be there. -/
def rightmost (heap : NodeHeap α) : Nat → Nat → Except Fault Nat
  | 0, _ => throw .endless
  | turns + 1, n => do
      let right := (← heap.read n).right
      if right ≠ 0 then rightmost heap turns right
      else return n

/-- `while (n->left) n = n->left;`. The node must be there. -/
def leftmost (heap : NodeHeap α) : Nat → Nat → Except Fault Nat
  | 0, _ => throw .endless
  | turns + 1, n => do
      let left := (← heap.read n).left
      if left ≠ 0 then leftmost heap turns left
      else return n

mutual

/-- `avl_remove`. The node is looked up by its own key, and what is found must be that node. -/
def avlRemove (cmp : OSetCmp κ α) (n : Nat) :
    Nat → NodeHeap α → Nat → Except Fault (NodeHeap α × Nat × Bool)
  | 0, _, _ => throw .endless
  | turns + 1, heap, root => do
      match ← cmpKeyRoot cmp heap root n with
      | .lt =>
          let left := (← heap.read root).left
          if left = 0 then throw .noChild
          let (heap, left, shrunk) ← avlRemove cmp n turns heap left
          let heap ← heap.setLeft root left
          if shrunk then leftShrunk heap root
          else return (heap, root, false)
      | .gt =>
          let right := (← heap.read root).right
          if right = 0 then throw .noChild
          let (heap, right, shrunk) ← avlRemove cmp n turns heap right
          let heap ← heap.setRight root right
          if shrunk then rightShrunk heap root
          else return (heap, root, false)
      | .eq =>
          if root ≠ n then throw .otherNode
          avlRemoveroot cmp turns heap root

/-- `avl_removeroot`: the replacement is removed from the whole tree and then takes the links of the
root. -/
def avlRemoveroot (cmp : OSetCmp κ α) :
    Nat → NodeHeap α → Nat → Except Fault (NodeHeap α × Nat × Bool)
  | 0, _, _ => throw .endless
  | turns + 1, heap, root => do
      let node ← heap.read root
      if node.left = 0 then
        if node.right = 0 then return (heap, 0, true)
        return (heap, node.right, true)
      if node.right = 0 then return (heap, node.left, true)
      let n ← if node.balance < 0 then rightmost heap turns node.left
        else leftmost heap turns node.right
      let (heap, root, shrunk) ← avlRemove cmp n turns heap root
      let node ← heap.read root
      let heap ← heap.setLeft n node.left
      let heap ← heap.setRight n node.right
      let heap ← heap.setBalance n node.balance
      if node.balance = 0 then return (heap, n, shrunk)
      return (heap, n, false)

end

/-- `struct _OSet`: the count, the root and the stack of the walk, topmost entry first. -/
structure NodeSet where
  nElems : Nat
  root : Nat
  stack : List (Nat × Nat)
deriving DecidableEq, Repr

/-- `stackClear`. The walk is discarded. -/
def stackClear (set : NodeSet) : NodeSet := { set with stack := [] }

/-- `stackPush`. A full stack fails an assertion, and so does a number that is none of the
three. -/
def stackPush (set : NodeSet) (n i : Nat) : Except Fault NodeSet :=
  if set.stack.length < stackMax then
    if 1 ≤ i ∧ i ≤ 3 then .ok { set with stack := (n, i) :: set.stack }
    else .error .stackNumber
  else .error .stackFull

/-- `stackPop`. An empty stack gives no node, which ends the walk. -/
def stackPop (set : NodeSet) : Except Fault (Option (Nat × Nat) × NodeSet) :=
  if set.stack.length ≤ stackMax then
    match set.stack with
    | [] => .ok (none, set)
    | (n, i) :: rest =>
        if 1 ≤ i ∧ i ≤ 3 then .ok (some (n, i), { set with stack := rest })
        else .error .stackNumber
  else .error .stackFull

/-- `OSetGen_Create`. The set is empty, and so is its stack. -/
def osetGenCreate : NodeSet := { nElems := 0, root := 0, stack := [] }

/-- `OSetGen_AllocNode` at an address, and the element that its caller stores there. -/
def osetGenAllocNode (heap : NodeHeap α) (n : Nat) (nonNull : n ≠ 0) (elem : α) : NodeHeap α :=
  heap.place n nonNull { left := 0, right := 0, balance := 0, magic := osetMagic, elem := elem }

/-- `OSetGen_FreeNode`. Whether the node is still in a set is not asked. -/
def osetGenFreeNode (heap : NodeHeap α) (e : Nat) : Except Fault (NodeHeap α) := do
  return heap.release (← nodeOfElem heap e)

/-- `OSetGen_Insert`. The links of the node are cleared first. The walk is discarded, and the
count is a word of 32 bits. -/
def osetGenInsert (cmp : OSetCmp κ α) (heap : NodeHeap α) (set : NodeSet) (e : Nat) :
    Except Fault (NodeHeap α × NodeSet) := do
  let n ← nodeOfElem heap e
  let heap ← heap.setLeft n 0
  let heap ← heap.setRight n 0
  let heap ← heap.setBalance n 0
  let (heap, root) ←
    if set.root = 0 then pure (heap, n)
    else
      let (heap, root, _) ← avlInsert cmp n (set.nElems + 1) heap set.root
      pure (heap, root)
  return (heap, { set with root := root, nElems := (set.nElems + 1) % UInt32.size, stack := [] })

/-- `OSetGen_Lookup`; `OSetGen_LookupWithCmp` gives another comparison. -/
def osetGenLookup (cmp : OSetCmp κ α) (heap : NodeHeap α) (set : NodeSet) (k : κ) :
    Except Fault Nat := do
  let n ← avlLookup cmp heap k (set.nElems + 1) set.root
  if n = 0 then return 0
  let _ ← elemOfNode heap n
  return n

/-- `OSetGen_Contains`: a lookup that tells whether it has found something. -/
def osetGenContains (cmp : OSetCmp κ α) (heap : NodeHeap α) (set : NodeSet) (k : κ) :
    Except Fault Bool := do
  return (← osetGenLookup cmp heap set k) ≠ 0

/-- `OSetGen_Remove`. The walk is discarded only if a match was removed. -/
def osetGenRemove (cmp : OSetCmp κ α) (heap : NodeHeap α) (set : NodeSet) (k : κ) :
    Except Fault (NodeHeap α × NodeSet × Nat) := do
  let n ← avlLookup cmp heap k (set.nElems + 1) set.root
  if n = 0 then return (heap, set, 0)
  let (heap, root, _) ← avlRemove cmp n (2 * set.nElems + 2) heap set.root
  let set := { set with root := root, nElems :=
      (set.nElems + (UInt32.size - 1)) % UInt32.size, stack := [] }
  let _ ← elemOfNode heap n
  return (heap, set, n)

/-- `OSetGen_ResetIter`. The walk starts at the root, with everything still to be done there. -/
def osetGenResetIter (set : NodeSet) : Except Fault NodeSet :=
  let set := stackClear set
  if set.root = 0 then .ok set
  else stackPush set set.root 1

/-- The label `case_1` of `OSetGen_Next`: push a node and those below it on the left. The last
of them is the next element. -/
def pushLeft (heap : NodeHeap α) : Nat → NodeSet → Nat → Except Fault NodeSet
  | 0, _, _ => throw .endless
  | turns + 1, set, n => do
      let set ← stackPush set n 2
      let left := (← heap.read n).left
      if left ≠ 0 then pushLeft heap turns set left
      else return set

/-- The loop of `OSetGen_Next`. A node is stacked with the number of what is to be done next:
go to the left, hand it out, go to the right. -/
def nextLoop (heap : NodeHeap α) : Nat → NodeSet → Except Fault (NodeSet × Nat)
  | 0, _ => throw .endless
  | turns + 1, set => do
      match ← stackPop set with
      | (none, set) => return (set, 0)
      | (some (n, i), set) =>
          match i with
          | 1 =>
              let set ← pushLeft heap (set.nElems + 1) set n
              nextLoop heap turns set
          | 2 =>
              let set ← stackPush set n 3
              let _ ← elemOfNode heap n
              return (set, n)
          | 3 =>
              let right := (← heap.read n).right
              if right ≠ 0 then
                let set ← pushLeft heap (set.nElems + 1) set right
                nextLoop heap turns set
              else nextLoop heap turns set
          | _ => nextLoop heap turns set

/-- `OSetGen_Next`. It answers with a null pointer at the end of the walk, and for a walk that
was discarded. -/
def osetGenNext (heap : NodeHeap α) (set : NodeSet) : Except Fault (NodeSet × Nat) :=
  nextLoop heap (set.stack.length + 2) set

/-- The search of `OSetGen_ResetIterAt`, which stacks the nodes that it leaves to the left.
These are the ones that the walk hands out later. -/
def seekLoop (cmp : OSetCmp κ α) (heap : NodeHeap α) (k : κ) :
    Nat → NodeSet → Nat → Except Fault NodeSet
  | 0, _, _ => throw .endless
  | turns + 1, set, t =>
      if t = 0 then return set
      else do
        match ← slowCmp cmp heap k t with
        | .eq => stackPush set t 2
        | .lt =>
            let set ← stackPush set t 2
            seekLoop cmp heap k turns set (← heap.read t).left
        | .gt => seekLoop cmp heap k turns set (← heap.read t).right

/-- `OSetGen_ResetIterAt`. The walk starts at the match, or at the least element behind the
key. -/
def osetGenResetIterAt (cmp : OSetCmp κ α) (heap : NodeHeap α) (set : NodeSet) (k : κ) :
    Except Fault NodeSet :=
  let set := stackClear set
  if set.root = 0 then .ok set
  else seekLoop cmp heap k (set.nElems + 1) set set.root

/-- `OSetGen_Size`, which is the count that insertions and removals keep. -/
def osetGenSize (set : NodeSet) : Nat := set.nElems

/-- The loop of `OSetGen_Destroy`, which gives back a node after both its children. -/
def destroyLoop : Nat → NodeHeap α → NodeSet → Nat → Except Fault (NodeHeap α × Nat)
  | 0, _, _, _ => throw .endless
  | turns + 1, heap, set, sz => do
      match ← stackPop set with
      | (none, _) => return (heap, sz)
      | (some (n, i), set) =>
          match i with
          | 1 =>
              let set ← stackPush set n 2
              let left := (← heap.read n).left
              let set ← if left ≠ 0 then stackPush set left 1 else pure set
              destroyLoop turns heap set sz
          | 2 =>
              let set ← stackPush set n 3
              let right := (← heap.read n).right
              let set ← if right ≠ 0 then stackPush set right 1 else pure set
              destroyLoop turns heap set sz
          | 3 =>
              let _ ← heap.read n
              destroyLoop turns (heap.release n) set (sz + 1)
          | _ => destroyLoop turns heap set sz

/-- `OSetGen_Destroy` of a set whose nodes are not given back with a pool. The number of nodes
given back must be the count. -/
def osetGenDestroy (heap : NodeHeap α) (set : NodeSet) : Except Fault (NodeHeap α) := do
  let set := stackClear set
  let set ← if set.root ≠ 0 then stackPush set set.root 1 else pure set
  let (heap, sz) ← destroyLoop (3 * set.nElems + 1) heap set 0
  if sz ≠ set.nElems then throw .otherCount
  return heap

end PmDebugger
