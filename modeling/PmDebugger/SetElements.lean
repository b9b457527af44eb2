import PmDebugger.Library.Relabelling
import PmDebugger.SetRuns

/-!
# The elements of an ordered set

The tables of the tool are modelled as ordered sets of elements, in which a pointer to an element is
its position. Here these are read off the sets of nodes: without the addresses a set of nodes is a
set of elements, and every call on the one is the same call on the other. A write through a pointer
is an edit at the position of its node.

So what the functions of `m_oset.c` do in memory is what the model of the tool takes its tables to
do. -/

namespace PmDebugger

open AvlTree
open AvlTree.Tree
open OrderedSet

variable {κ α : Type}

/-- A call on a set of elements. -/
inductive ElementCall (κ α : Type) where
  | insert (elem : α)
  | remove (k : κ)
  | lookup (k : κ)
  | contains (k : κ)
  | size
  | resetIter
  | resetIterAt (k : κ)
  | next
  | modify (position : Nat) (edit : α → α)

/-- The order of two elements. -/
def OSetCmp.ofElems (cmp : OSetCmp κ α) (elem other : α) : Ordering :=
  cmp.compare (cmp.keyOf elem) other

/-- A call as the ordered sets of the model answer it. -/
def ElementCall.answer (cmp : OSetCmp κ α) (set : OSet α) :
    ElementCall κ α → OSet α × SetAnswer α
  | .insert elem => (set.insert (cmp.ofElems elem) elem, .done)
  | .remove k => (set.remove cmp.ofElems (cmp.compare k), .element (set.lookup (cmp.compare k)))
  | .lookup k => (set, .element (set.lookup (cmp.compare k)))
  | .contains k => (set, .truth (set.contains (cmp.compare k)))
  | .size => (set, .count set.size)
  | .resetIter => (set.resetIter, .done)
  | .resetIterAt k => (set.resetIterAt (cmp.compare k), .done)
  | .next =>
      match set.next with
      | none => (set, .element none)
      | some (_, found, set) => (set, .element (some found))
  | .modify position edit => (set.modifyAt position edit, .done)

/-- The calls of a run on a set of elements. -/
def answerElements (cmp : OSetCmp κ α) :
    List (ElementCall κ α) → OSet α → OSet α × List (SetAnswer α)
  | [], set => (set, [])
  | call :: calls, set =>
      let (set, answer) := call.answer cmp set
      let (set, answers) := answerElements cmp calls set
      (set, answer :: answers)

/-- A call on nodes as a call on elements. -/
def SetCall.onElements (model : OSet (Nat × α)) : SetCall κ α → ElementCall κ α
  | .insert _ elem => .insert elem
  | .remove k => .remove k
  | .lookup k => .lookup k
  | .contains k => .contains k
  | .size => .size
  | .resetIter => .resetIter
  | .resetIterAt k => .resetIterAt k
  | .next => .next
  | .write n edit => .modify ((addresses model.root).idxOf n) edit

/-- The calls of a run on nodes as calls on elements. -/
def callsOnElements (cmp : OSetCmp κ α) :
    List (SetCall κ α) → OSet (Nat × α) → List (ElementCall κ α)
  | [], _ => []
  | call :: calls, model =>
      call.onElements model :: callsOnElements cmp calls (call.answer cmp model).1

/-- An answer without the addresses. -/
def SetAnswer.withoutAddress : SetAnswer (Nat × α) → SetAnswer α
  | .done => .done
  | .element found => .element (found.map Prod.snd)
  | .truth value => .truth value
  | .count value => .count value

section Writes

variable {n : Nat} {edit : α → α}

/-- An edit at an address that a tree does not have leaves it alone. -/
theorem map_editAt_absent (tree : AvlTree.Tree (Nat × α)) (absent : n ∉ addresses tree) :
    tree.map (editAt n edit) = tree := by
  induction tree with
  | leaf => rfl
  | node left here right value leftKept rightKept =>
    simp only [mem_addresses_node, not_or] at absent
    simp [AvlTree.Tree.map, leftKept absent.1, rightKept absent.2.2, editAt, Ne.symm absent.2.1]

/-- An edit at an address is an edit at its position. -/
theorem map_editAt_position (tree : AvlTree.Tree (Nat × α)) (distinct : Distinct tree)
    (member : n ∈ addresses tree) :
    (tree.map (editAt n edit)).relabel Prod.snd =
      (tree.relabel Prod.snd).modifyAt edit ((addresses tree).idxOf n) := by
  induction tree with
  | leaf => simp at member
  | node left here right value leftEdit rightEdit =>
    obtain ⟨leftDistinct, rightDistinct, notLeft, notRight, apart⟩ := distinct_node.mp distinct
    have width : (addresses left).length = left.toList.length := by simp [addresses]
    simp only [AvlTree.Tree.map, relabel_node, modifyAt, size_eq_length, toList_relabel,
      List.length_map, addresses_node]
    rcases mem_addresses_node.mp member with inLeft | rfl | inRight
    · have position := List.idxOf_lt_length_of_mem inLeft
      have elsewhere : here.1 ≠ n := fun same => notLeft (same ▸ inLeft)
      rw [List.idxOf_append_of_mem inLeft, if_pos (by omega), leftEdit leftDistinct inLeft,
        map_editAt_absent right (apart n inLeft)]
      simp [editAt, elsewhere]
    · rw [List.idxOf_append_of_notMem notLeft, List.idxOf_cons_self, Nat.add_zero, width,
        if_neg (Nat.lt_irrefl _), if_pos rfl, map_editAt_absent left notLeft,
        map_editAt_absent right notRight]
      simp [editAt]
    · have notLeft' : n ∉ addresses left := fun inLeft => apart n inLeft inRight
      have elsewhere : here.1 ≠ n := fun same => notRight (same ▸ inRight)
      rw [List.idxOf_append_of_notMem notLeft', List.idxOf_cons_ne _ elsewhere, width,
        if_neg (by omega), if_neg (by omega), map_editAt_absent left notLeft',
        rightEdit rightDistinct inRight]
      simp only [editAt, elsewhere, if_false]
      congr 2
      omega

end Writes

section Agreement

variable {cmp : OSetCmp κ α} {valid : α → Prop} {heap : NodeHeap α} {set : NodeSet}
  {model : OSet (Nat × α)}

/-- A call on nodes and the same call on their elements end in the same set with the same answer. -/
theorem answer_onElements (call : SetCall κ α) (distinct : Distinct model.root)
    (proper : call.Proper cmp valid model) :
    (call.onElements model).answer cmp (model.relabel Prod.snd) =
      ((call.answer cmp model).1.relabel Prod.snd, (call.answer cmp model).2.withoutAddress) := by
  cases call with
  | insert n elem =>
    exact Prod.ext (oset_insert_relabel model (n, elem)).symm rfl
  | remove k =>
    refine Prod.ext (oset_remove_relabel model cmp.ofElems).symm ?_
    exact congrArg SetAnswer.element (oset_lookup_relabel model)
  | lookup k => exact Prod.ext rfl (congrArg SetAnswer.element (oset_lookup_relabel model))
  | contains k => exact Prod.ext rfl (congrArg SetAnswer.truth (oset_contains_relabel model))
  | size =>
    refine Prod.ext rfl (congrArg SetAnswer.count ?_)
    simp [OSet.size, oset_toList_relabel]
  | resetIter => rfl
  | resetIterAt k => exact Prod.ext (oset_resetIterAt_relabel model).symm rfl
  | next =>
    simp only [SetCall.onElements, ElementCall.answer, SetCall.answer, oset_next_relabel]
    cases model.next <;> rfl
  | write n edit =>
    refine Prod.ext ?_ rfl
    have edited := @map_editAt_position _ n edit model.root distinct proper.1
    simp only [SetCall.onElements, ElementCall.answer, SetCall.answer, OSet.modifyAt, OSet.relabel,
      OSet.map, edited]

/-- A whole run likewise, as long as no insertion fails. -/
theorem answerAll_onElements (laws : LawfulCmp cmp valid) (calls : List (SetCall κ α))
    (represents : Represents cmp valid heap set model) (proper : ProperRun cmp valid calls model)
    (unique : (answerAll cmp calls model).1.duplicate = false) :
    answerElements cmp (callsOnElements cmp calls model) (model.relabel Prod.snd) =
      ((answerAll cmp calls model).1.relabel Prod.snd,
        (answerAll cmp calls model).2.map SetAnswer.withoutAddress) := by
  induction calls generalizing heap set model with
  | nil => rfl
  | cons call calls inductionHypothesis =>
    obtain ⟨callProper, restProper⟩ := proper
    have step := answer_onElements call represents.distinct callProper
    rcases serve_represents laws represents call callProper with
      ⟨failed, _⟩ | ⟨still, heap', set', _, after⟩
    · have recorded : (answerAll cmp (call :: calls) model).1.duplicate = true :=
        answerAll_duplicate calls failed
      rw [recorded] at unique
      cases unique
    · have rest := inductionHypothesis after (restProper still) unique
      simp only [callsOnElements, answerElements, step, rest, answerAll, List.map_cons]

/-- In every run of calls on a new set that keeps to the contract, what the functions of the
source answer and leave in memory is what the ordered set of elements answers and is.

Proof: memory holds the set of nodes, by `serveAll_represents`. A set of nodes is a set of
elements with addresses, and to forget the addresses is a relabelling, which commutes with
every call. -/
theorem node_sets_agree (laws : LawfulCmp cmp valid) (calls : List (SetCall κ α))
    (proper : ProperRun cmp valid calls OSet.create)
    (unique : (answerAll cmp calls OSet.create).1.duplicate = false) :
    ∃ heap set nodes answers,
      serveAll cmp calls NodeHeap.empty osetGenCreate = .ok (heap, set, answers) ∧
      Represents cmp valid heap set nodes ∧
      answerElements cmp (callsOnElements cmp calls OSet.create) OSet.create =
        (nodes.relabel Prod.snd, answers.map SetAnswer.withoutAddress) := by
  rcases serveAll_represents laws calls create_represents proper with
    ⟨failed, _⟩ | ⟨_, heap, set, serves, represents⟩
  · rw [unique] at failed
    cases failed
  · exact ⟨heap, set, _, _, serves, represents,
      answerAll_onElements laws calls create_represents proper unique⟩

/-- The run over two stores, read without addresses. -/
theorem node_sets_agree_stores :
    ∃ heap set nodes answers,
      serveAll storeCmp storeCalls NodeHeap.empty osetGenCreate = .ok (heap, set, answers) ∧
      Represents storeCmp PmemSt.Proper heap set nodes ∧
      answerElements storeCmp (callsOnElements storeCmp storeCalls OSet.create) OSet.create =
        (nodes.relabel Prod.snd, answers.map SetAnswer.withoutAddress) :=
  node_sets_agree storeCmp_lawful storeCalls (by decide +kernel) (by decide +kernel)

end Agreement

end PmDebugger
