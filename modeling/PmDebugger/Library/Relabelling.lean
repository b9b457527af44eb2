import PmDebugger.Library.AvlBalance
import PmDebugger.Library.OrderedSet

/-!
# Relabelled trees and sets

Insertion and removal look at the elements only through the comparison with a key. A function on the
elements that the key does not see through commutes with every operation: the shape, the flags and
the positions stay, and only the elements are renamed.
-/

namespace AvlTree

universe u v
variable {α : Type u} {β : Type v}

namespace Tree

/-- The tree of the same shape with renamed elements. No two elements need to have different
names. -/
def relabel (rename : α → β) : Tree α → Tree β
  | leaf => leaf
  | node left elem right value => node (relabel rename left) (rename elem)
    (relabel rename right) value

end Tree

open AvlTree.Tree

section Shapes

variable (rename : α → β)

/-- The empty tree has nothing to rename. -/
@[simp] theorem relabel_leaf : relabel rename leaf = leaf := rfl

/-- A node is renamed together with its subtrees, and keeps its balance. -/
@[simp] theorem relabel_node (left right : Tree α) (elem : α) (value : Int) :
    relabel rename (node left elem right value) =
      node (left.relabel rename) (rename elem) (right.relabel rename) value := rfl

/-- The renamed tree lists the renamed elements, in the same order. -/
@[simp] theorem toList_relabel (tree : Tree α) :
    (tree.relabel rename).toList = tree.toList.map rename := by
  induction tree with
  | leaf => rfl
  | node left elem right value leftList rightList => simp [toList, leftList, rightList]

/-- Names do not weigh anything: the balance stays as it is. -/
@[simp] theorem balance_relabel (tree : Tree α) : (tree.relabel rename).balance = tree.balance := by
  cases tree <;> rfl

/-- A balance may be set before or after the renaming. -/
@[simp] theorem setBalance_relabel (value : Int) (tree : Tree α) :
    (tree.setBalance value).relabel rename = (tree.relabel rename).setBalance value := by
  cases tree <;> rfl

/-- The rotation to the left moves subtrees and looks at no name. -/
@[simp] theorem swl_relabel (tree : Tree α) :
    (swl tree).relabel rename = swl (tree.relabel rename) := by
  cases tree with
  | leaf => rfl
  | node left elem right value => cases right <;> rfl

/-- The rotation to the right moves subtrees and looks at no name. -/
@[simp] theorem swr_relabel (tree : Tree α) :
    (swr tree).relabel rename = swr (tree.relabel rename) := by
  cases tree with
  | leaf => rfl
  | node left elem right value => cases left <;> rfl

/-- The double rotation reads balances and no names. -/
@[simp] theorem nasty_relabel (tree : Tree α) :
    (nasty tree).relabel rename = nasty (tree.relabel rename) := by
  cases tree with
  | leaf => rfl
  | node left elem right value =>
    simp only [nasty, relabel_node]
    split
    · simp
    · split <;> simp

/-- A rebuilt tree and its flag, renamed. The flag is about heights, which have no names. -/
def relabelBoth (result : Tree α × Bool) : Tree β × Bool := (result.1.relabel rename, result.2)

/-- The flag that comes with a tree has no name to change. -/
@[simp] theorem relabelBoth_mk (tree : Tree α) (flag : Bool) :
    relabelBoth rename (tree, flag) = (tree.relabel rename, flag) := rfl

/-- To set the balance that a tree has already changes nothing. -/
@[simp] theorem setBalance_balance_relabel (tree : Tree α) :
    (tree.relabel rename).setBalance tree.balance = tree.relabel rename := by
  rw [← balance_relabel rename tree, setBalance_balance]

variable (left right : Tree α) (elem : α) (value : Int)

/-- A node whose left subtree has grown is repaired by its balances alone, so that the renaming
passes through the repair. The cases are those of the repair. -/
theorem grownLeft_relabel :
    relabelBoth rename (grownLeft left elem right value) =
      grownLeft (left.relabel rename) (rename elem) (right.relabel rename) value := by
  unfold grownLeft
  split
  · rfl
  · split
    · rfl
    · rw [balance_relabel]
      split
      · cases left <;> simp [swr, setBalances]
      · simp

/-- The mirror image of `grownLeft_relabel`. -/
theorem grownRight_relabel :
    relabelBoth rename (grownRight left elem right value) =
      grownRight (left.relabel rename) (rename elem) (right.relabel rename) value := by
  unfold grownRight
  split
  · rfl
  · split
    · rfl
    · rw [balance_relabel]
      split
      · cases right <;> simp [swl, setBalances]
      · simp

/-- A node whose left subtree has shrunk is repaired by its balances alone. -/
theorem shrunkLeft_relabel :
    relabelBoth rename (shrunkLeft left elem right value) =
      shrunkLeft (left.relabel rename) (rename elem) (right.relabel rename) value := by
  unfold shrunkLeft
  split
  · rfl
  · split
    · rfl
    · rw [balance_relabel]
      split
      · cases right <;> simp [swl, setBalances]
      · split
        · cases right <;> simp [swl, setBalances]
        · simp

/-- The mirror image of `shrunkLeft_relabel`. -/
theorem shrunkRight_relabel :
    relabelBoth rename (shrunkRight left elem right value) =
      shrunkRight (left.relabel rename) (rename elem) (right.relabel rename) value := by
  unfold shrunkRight
  split
  · rfl
  · split
    · rfl
    · rw [balance_relabel]
      split
      · cases left <;> simp [swr, setBalances]
      · split
        · cases left <;> simp [swr, setBalances]
        · simp

end Shapes

section Updates

variable {rename : α → β} {key : β → Ordering}

/-- An insertion that compares by the new names takes the same path in the tree with the old
ones.

Proof: by induction on the tree. Both sides compare the same pair of keys at each node, and the
repair on the way back is one of the lemmas above. -/
theorem insert_relabel (added : α) (tree : Tree α) :
    relabelBoth rename (tree.insert (fun elem => key (rename elem)) added) =
      (tree.relabel rename).insert key (rename added) := by
  induction tree with
  | leaf => rfl
  | node left elem right value leftInsert rightInsert =>
    cases compared : key (rename elem) with
    | lt =>
      simp only [Tree.insert, compared, relabel_node, ← leftInsert]
      split
      · next taller => rw [grownLeft_relabel, if_pos (by exact taller)]; rfl
      · next taller => rw [if_neg (by exact taller)]; rfl
    | gt =>
      simp only [Tree.insert, compared, relabel_node, ← rightInsert]
      split
      · next taller => rw [grownRight_relabel, if_pos (by exact taller)]; rfl
      · next taller => rw [if_neg (by exact taller)]; rfl
    | eq =>
      simp only [Tree.insert, compared, relabel_node]
      rfl

/-- A lookup by the new names finds the renamed element, on the same path. -/
theorem lookup_relabel (tree : Tree α) :
    (tree.relabel rename).lookup key =
      (tree.lookup (fun elem => key (rename elem))).map
        (fun found => (found.1, rename found.2)) := by
  induction tree with
  | leaf => rfl
  | node left elem right value leftSearch rightSearch =>
    simp only [relabel_node, Tree.lookup, size_eq_length, toList_relabel, List.length_map]
    cases compared : key (rename elem) with
    | lt => exact leftSearch
    | gt => simp [rightSearch, Function.comp_def]
    | eq => rfl

/-- The position of a key is the same in both trees. -/
theorem seek_relabel (tree : Tree α) :
    (tree.relabel rename).seek key = tree.seek (fun elem => key (rename elem)) := by
  induction tree with
  | leaf => rfl
  | node left elem right value leftSeek rightSeek =>
    simp [Tree.seek, leftSeek, rightSeek]

/-- A detached element and what is left, renamed. -/
def relabelDetached (rename : α → β) (result : α × Tree α × Bool) : β × Tree β × Bool :=
  (rename result.1, relabelBoth rename result.2)

/-- The smallest element is detached at the same place, and is the renamed one. -/
theorem detachMin_relabel (tree : Tree α) :
    detachMin (tree.relabel rename) = (detachMin tree).map (relabelDetached rename) := by
  induction tree with
  | leaf => rfl
  | node left elem right value leftDetached _ =>
    simp only [relabel_node, detachMin, leftDetached]
    cases detachMin left with
    | none => rfl
    | some result =>
      obtain ⟨least, rest, shorter⟩ := result
      cases shorter with
      | true => simp [relabelDetached, relabelBoth, ← shrunkLeft_relabel]
      | false => rfl

/-- The largest element is detached at the same place, and is the renamed one. -/
theorem detachMax_relabel (tree : Tree α) :
    detachMax (tree.relabel rename) = (detachMax tree).map (relabelDetached rename) := by
  induction tree with
  | leaf => rfl
  | node left elem right value _ rightDetached =>
    simp only [relabel_node, detachMax, rightDetached]
    cases detachMax right with
    | none => rfl
    | some result =>
      obtain ⟨greatest, rest, shorter⟩ := result
      cases shorter with
      | true => simp [relabelDetached, relabelBoth, ← shrunkRight_relabel]
      | false => rfl

/-- The root is replaced by the same neighbour in both trees, which is chosen by the balance. -/
theorem removeRoot_relabel (left right : Tree α) (value : Int) :
    relabelBoth rename (removeRoot left right value) =
      removeRoot (left.relabel rename) (right.relabel rename) value := by
  simp only [removeRoot, detachMax_relabel, detachMin_relabel]
  cases detachMax left with
  | none => rfl
  | some most =>
    cases detachMin right with
    | none => rfl
    | some first =>
      obtain ⟨greatest, leftRest, leftShorter⟩ := most
      obtain ⟨least, rightRest, rightShorter⟩ := first
      simp only [Option.map_some, relabelDetached, relabelBoth_mk]
      split
      · cases leftShorter with
        | true => exact shrunkLeft_relabel rename leftRest right greatest value
        | false => rfl
      · cases rightShorter with
        | true => exact shrunkRight_relabel rename left rightRest least value
        | false => rfl

/-- A removal that compares by the new names takes the same path in the tree with the old ones,
by induction on the tree. -/
theorem remove_relabel (tree : Tree α) :
    relabelBoth rename (tree.remove (fun elem => key (rename elem))) =
      (tree.relabel rename).remove key := by
  induction tree with
  | leaf => rfl
  | node left elem right value leftRemove rightRemove =>
    cases compared : key (rename elem) with
    | lt =>
      simp only [Tree.remove, compared, relabel_node, ← leftRemove]
      split
      · next shorter => rw [shrunkLeft_relabel, if_pos (by exact shorter)]; rfl
      · next shorter => rw [if_neg (by exact shorter)]; rfl
    | gt =>
      simp only [Tree.remove, compared, relabel_node, ← rightRemove]
      split
      · next shorter => rw [shrunkRight_relabel, if_pos (by exact shorter)]; rfl
      · next shorter => rw [if_neg (by exact shorter)]; rfl
    | eq =>
      simp only [Tree.remove, compared, relabel_node]
      exact removeRoot_relabel left right value

end Updates

end AvlTree

namespace OrderedSet

open AvlTree AvlTree.Tree

universe u v
variable {α : Type u} {β : Type v}

/-- The set of the same shape and walk with renamed elements. A failed insertion stays on
record. -/
def OSet.relabel (rename : α → β) (set : OSet α) : OSet β :=
  { root := set.root.relabel rename, iter := set.iter, duplicate := set.duplicate }

section Sets

variable {rename : α → β} {key : β → Ordering} (set : OSet α)

/-- The renamed set lists the renamed elements. -/
theorem oset_toList_relabel : (set.relabel rename).toList = set.toList.map rename :=
  toList_relabel rename set.root

/-- A lookup by the new names finds the renamed element. -/
theorem oset_lookup_relabel :
    (set.relabel rename).lookup key =
      (set.lookup (fun elem => key (rename elem))).map rename := by
  simp only [OSet.lookup, OSet.locate, OSet.relabel, lookup_relabel, Option.map_map]
  rfl

/-- A key is in the renamed set if and only if it is in the set under the new names. -/
theorem oset_contains_relabel :
    (set.relabel rename).contains key = set.contains (fun elem => key (rename elem)) := by
  simp [OSet.contains, oset_lookup_relabel]

/-- An insertion commutes with the renaming, and so does the iterator that it resets. -/
theorem oset_insert_relabel (added : α) :
    (set.insert (fun elem => key (rename elem)) added).relabel rename =
      (set.relabel rename).insert key (rename added) := by
  simp only [OSet.insert, oset_contains_relabel]
  split
  · rfl
  · have inserted := congrArg Prod.fst (@insert_relabel _ _ rename key added set.root)
    simp only [OSet.relabel, ← inserted]
    rfl

/-- A removal commutes with the renaming. The iterator is set anew by the comparison of the
renamed elements. -/
theorem oset_remove_relabel (cmp : β → β → Ordering) :
    (set.remove (fun elem other => cmp (rename elem) (rename other))
        (fun elem => key (rename elem))).relabel rename =
      (set.relabel rename).remove cmp key := by
  simp only [OSet.remove, oset_lookup_relabel]
  cases set.lookup (fun elem => key (rename elem)) with
  | none => rfl
  | some found =>
    have removed := congrArg Prod.fst (@remove_relabel _ _ rename (cmp (rename found)) set.root)
    simp only [Option.map_some, OSet.relabel, ← removed]
    rfl

/-- The iterator is set to the same place in both sets. -/
theorem oset_resetIterAt_relabel :
    (set.resetIterAt (fun elem => key (rename elem))).relabel rename =
      (set.relabel rename).resetIterAt key := by
  simp [OSet.resetIterAt, OSet.relabel, seek_relabel]

/-- The walk over the renamed set hands out the renamed elements, one for one. -/
theorem oset_next_relabel :
    (set.relabel rename).next =
      set.next.map (fun step => (step.1, rename step.2.1, step.2.2.relabel rename)) := by
  simp only [OSet.next]
  cases iter : set.iter with
  | none => simp [OSet.relabel, iter]
  | some position =>
    have walk : (set.relabel rename).iter = some position := iter
    simp only [walk, oset_toList_relabel, List.getElem?_map]
    cases set.toList[position]? <;> rfl

end Sets

end OrderedSet
