import PmDebugger.Library.OrderedSet
import PmDebugger.Library.Word

/-!
# Store records and their comparisons

The records of `pmc_include.h`: a single store to persistent memory, a snippet
of the store array and the two records of the ordering check. Addresses, sizes
and counters are words held as natural numbers; where the source adds or
subtracts addresses the model wraps as the machine does.

An execution context is interned by the core, so two contexts are the same
pointer exactly when their stack traces agree. It is represented by that trace;
the null pointer is `none`.
-/

namespace PmDebugger

/-- A recorded stack trace, innermost instruction first. The source keeps each trace once, so
that two pointers are equal if and only if the traces are. -/
structure ExeContext where
  ips : List Nat
deriving DecidableEq, Repr

/-- `enum store_state`. A store is dirty until it is flushed, and flushed until it is fenced;
clean is the state of a record that nobody has written. -/
inductive StoreState where
  | clean
  | dirty
  | flushed
deriving DecidableEq, Repr

/-- `enum flushed_state`: how much of a snippet has been flushed. A snippet that is flushed as
a whole is only tagged, and its records keep the state that they had. -/
inductive FlushedState where
  | noFlushed
  | partFlushed
  | allFlushed
deriving DecidableEq, Repr

/-- `struct arr_snippet`: a run of array slots with the box of its stores. The snippet reaches
from `startIndex` up to `index`, which is excluded; the box is that of the addresses stored to
so far, ends included. -/
structure ArrSnippet where
  index : Nat
  minAdd : Nat
  maxAdd : Nat
  startIndex : Nat
  flushedNum : FlushedState
deriving DecidableEq, Repr

/-- `struct pmem_st`: one store to persistent memory, also used as a bare range. Array slots,
nodes of the tree, mappings, logged regions and registered events all have this type. -/
structure PmemSt where
  index : Nat
  isDelete : Bool
  addr : Nat
  size : Nat
  blockNum : Nat
  value : Nat
  context : Option ExeContext
  state : StoreState
  inEpoch : Bool
deriving DecidableEq, Repr

/-- `struct pmem_st_order`: a range under an ordering request with its times. The begin is the
time of the last store to the range, the end that of the fence that ended it, or minus one. -/
structure PmemStOrder where
  index : Nat
  timestampBegin : Nat
  timestampEnd : Nat
  context : Option ExeContext
  addr : Nat
  size : Nat
deriving DecidableEq, Repr

/-- `struct order_record`. The two pointers are the indices of the records they
point to, which are unique among the time records. -/
structure OrderRecord where
  index : Nat
  a : Nat
  b : Nat
deriving DecidableEq, Repr

/-- A zeroed record, as an initialiser or a fresh set node leaves it. Its state is clean and it
has no context. -/
def PmemSt.zero : PmemSt where
  index := 0
  isDelete := false
  addr := 0
  size := 0
  blockNum := 0
  value := 0
  context := none
  state := .clean
  inEpoch := false

/-- A zeroed record with an address and a size: the form in which requests and
searches pass a bare range. -/
def PmemSt.range (addr size : Nat) : PmemSt := { PmemSt.zero with addr := addr, size := size }

/-- `addr + size` as the machine computes it. A record that ends at the last byte of memory has
the end zero. -/
def PmemSt.maxAddr (store : PmemSt) : Nat := Word64.add store.addr store.size

/-- `cmp_pmem_st`: below, above, or overlapping. The first test wins, so that an empty range
lies below the byte at its address. -/
def cmpPmemSt (lhs rhs : PmemSt) : Ordering :=
  if lhs.maxAddr ≤ rhs.addr then .lt
  else if lhs.addr ≥ rhs.maxAddr then .gt
  else .eq

/-- `cmp_pmem_own_st`: order of insertion. A later record has a greater index, which the
counter of records has given it. -/
def cmpPmemOwnSt (lhs rhs : PmemSt) : Ordering :=
  if lhs.index < rhs.index then .lt
  else if lhs.index > rhs.index then .gt
  else .eq

/-- `cmp_pmem_st_order`: the same comparison of ranges for time records. Neither their indices
nor their times matter. -/
def cmpPmemStOrder (lhs rhs : PmemStOrder) : Ordering :=
  if Word64.add lhs.addr lhs.size ≤ rhs.addr then .lt
  else if lhs.addr ≥ Word64.add rhs.addr rhs.size then .gt
  else .eq

/-- `check_overlap`: 0 without overlap, 1 when `lhs` is within `rhs`, 2 otherwise. The last
case has `lhs` stick out on one side or on both. -/
def checkOverlap (lhs rhs : PmemSt) : Nat :=
  if cmpPmemSt lhs rhs ≠ .eq then 0
  else if lhs.addr < rhs.addr ∨ lhs.maxAddr > rhs.maxAddr then 2
  else 1

/-- `pmem_st_copy`: copy everything but the index. A slot that takes over a remainder keeps its
own index. -/
def pmemStCopy (copy orig : PmemSt) : PmemSt := { orig with index := copy.index }

/-- The bytes of a record. This is arithmetic of numbers and not of words, so that a record
which wraps round covers more than its comparisons see. -/
def PmemSt.Covers (store : PmemSt) (byte : Nat) : Prop :=
  store.addr ≤ byte ∧ byte < store.addr + store.size

instance (store : PmemSt) (byte : Nat) : Decidable (store.Covers byte) :=
  inferInstanceAs (Decidable (_ ∧ _))

/-- Computing the end of a record does not leave the word. Only for such records do the
comparisons say what they seem to. -/
def PmemSt.NonWrapping (store : PmemSt) : Prop := store.addr + store.size < 2 ^ 64

instance (store : PmemSt) : Decidable store.NonWrapping :=
  inferInstanceAs (Decidable (_ < _))

/-- A record that names at least one byte and whose end is a word. Stores, flushes and regions
of a real client are of this kind. -/
structure PmemSt.Proper (store : PmemSt) : Prop where
  nonempty : 0 < store.size
  nonWrapping : store.NonWrapping

instance (store : PmemSt) : Decidable store.Proper :=
  decidable_of_iff (0 < store.size ∧ store.NonWrapping)
    ⟨fun ⟨nonempty, nonWrapping⟩ => ⟨nonempty, nonWrapping⟩,
      fun proper => ⟨proper.nonempty, proper.nonWrapping⟩⟩

/-- Where a range does not wrap, its end is the sum of address and size. -/
theorem PmemSt.NonWrapping.maxAddr_eq {store : PmemSt} (fits : store.NonWrapping) :
    store.maxAddr = store.addr + store.size :=
  Word64.add_eq fits

/-- The range begins at its address. -/
@[simp] theorem PmemSt.range_addr (addr size : Nat) : (PmemSt.range addr size).addr = addr := rfl

/-- The range has its size. -/
@[simp] theorem PmemSt.range_size (addr size : Nat) : (PmemSt.range addr size).size = size := rfl

/-- The bytes of a range, from its address on. -/
@[simp] theorem PmemSt.range_covers (addr size byte : Nat) :
    (PmemSt.range addr size).Covers byte ↔ addr ≤ byte ∧ byte < addr + size := Iff.rfl

/-- Comparison of non-wrapping records by ordinary arithmetic. -/
theorem cmpPmemSt_eq {lhs rhs : PmemSt} (left : lhs.NonWrapping) (right : rhs.NonWrapping) :
    cmpPmemSt lhs rhs =
      if lhs.addr + lhs.size ≤ rhs.addr then .lt
      else if rhs.addr + rhs.size ≤ lhs.addr then .gt else .eq := by
  simp only [cmpPmemSt, left.maxAddr_eq, right.maxAddr_eq, ge_iff_le]

/-- A range comes first if it ends where the other one begins, or before. -/
theorem cmpPmemSt_lt_iff {lhs rhs : PmemSt} (left : lhs.NonWrapping) :
    cmpPmemSt lhs rhs = .lt ↔ lhs.addr + lhs.size ≤ rhs.addr := by
  simp only [cmpPmemSt, left.maxAddr_eq]
  split
  · simp_all
  · split <;> simp_all

/-- A range comes last if it begins where the other one ends, or behind. That it also ends
behind the begin of the other is what the source checks first. -/
theorem cmpPmemSt_gt_iff {lhs rhs : PmemSt} (left : lhs.NonWrapping) (right : rhs.NonWrapping) :
    cmpPmemSt lhs rhs = .gt ↔
      rhs.addr < lhs.addr + lhs.size ∧ rhs.addr + rhs.size ≤ lhs.addr := by
  rw [cmpPmemSt_eq left right]
  split
  · next below =>
    constructor
    · intro equal
      cases equal
    · omega
  · split
    · simp_all
    · simp_all

/-- Equality in the comparison means that neither range ends before the other
starts. -/
theorem cmpPmemSt_eq_iff {lhs rhs : PmemSt} (left : lhs.NonWrapping) (right : rhs.NonWrapping) :
    cmpPmemSt lhs rhs = .eq ↔
      rhs.addr < lhs.addr + lhs.size ∧ lhs.addr < rhs.addr + rhs.size := by
  rw [cmpPmemSt_eq left right]
  split
  · next below =>
    constructor
    · intro equal
      cases equal
    · omega
  · split
    · simp_all
    · simp_all

/-- Whatever wraps, equality in the comparison bounds each start by the computed end of
the other range. -/
theorem cmpPmemSt_eq_bounds {lhs rhs : PmemSt} (equal : cmpPmemSt lhs rhs = .eq) :
    rhs.addr < lhs.maxAddr ∧ lhs.addr < rhs.maxAddr := by
  unfold cmpPmemSt at equal
  split at equal
  · simp at equal
  · split at equal
    · simp at equal
    · omega

/-- For nonempty ranges the comparison answers whether they share a byte. -/
theorem cmpPmemSt_eq_iff_shared {lhs rhs : PmemSt} (left : lhs.Proper) (right : rhs.Proper) :
    cmpPmemSt lhs rhs = .eq ↔ ∃ byte, lhs.Covers byte ∧ rhs.Covers byte := by
  rw [cmpPmemSt_eq_iff left.nonWrapping right.nonWrapping]
  have leftSize := left.nonempty
  have rightSize := right.nonempty
  constructor
  · intro overlap
    refine ⟨max lhs.addr rhs.addr, ?_, ?_⟩ <;> unfold PmemSt.Covers <;> omega
  · rintro ⟨byte, inLeft, inRight⟩
    unfold PmemSt.Covers at inLeft inRight
    omega

/-- `check_overlap` answers 1 exactly for containment of a nonempty range. -/
theorem checkOverlap_eq_one_iff {lhs rhs : PmemSt} (left : lhs.Proper) (right : rhs.NonWrapping) :
    checkOverlap lhs rhs = 1 ↔ ∀ byte, lhs.Covers byte → rhs.Covers byte := by
  have leftSize := left.nonempty
  have overlap := cmpPmemSt_eq_iff left.nonWrapping right
  simp only [checkOverlap, left.nonWrapping.maxAddr_eq, right.maxAddr_eq]
  constructor
  · intro one byte inside
    split at one
    · simp at one
    · split at one
      · simp at one
      · unfold PmemSt.Covers at inside ⊢
        omega
  · intro within
    have first := within lhs.addr ⟨Nat.le_refl _, by omega⟩
    have last := within (lhs.addr + lhs.size - 1) ⟨by omega, by omega⟩
    unfold PmemSt.Covers at first last
    rw [if_neg (by rw [not_not, overlap]; omega), if_neg (by omega)]

end PmDebugger
