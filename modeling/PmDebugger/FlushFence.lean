import PmDebugger.Tracker

/-!
# Flushes and fences

`do_flush` goes through the snippets of the array and then through the tree. A
snippet whose box lies within the flushed range is tagged as a whole; in every other
snippet that the range touches the dirty records are flushed one by one. A record
that sticks out of the range is cut, and what sticks out is appended to the current
snippet, whichever snippet it came from.

`do_fence` forgets what is flushed and moves the rest of the array to the tree.
-/

namespace PmDebugger

open OrderedSet OrderedSet.OSet

namespace PmemOps

/-- The range that `do_flush` works with: as given, or rounded to cache lines. Base and size
are rounded apart from each other, the base down and the size up. -/
def flushInfo (opts : Options) (flushAlignSize base size : Nat) : PmemSt :=
  if opts.forceFlushAlign then
    PmemSt.range (base &&& (2 ^ 64 - flushAlignSize))
      (Word64.add size (flushAlignSize - 1) / flushAlignSize * flushAlignSize)
  else PmemSt.range base size

/-- Take the next free slot of the current snippet for a piece that was cut off, or a
new node of the tree when the array is full. -/
def appendSplit (split : PmemSt) (pmem : PmemOps) : PmemOps :=
  let snippet := pmem.current
  if snippet.index < pmem.opts.maxArrayNum then
    (pmem.setSlot snippet.index (pmemStCopy (pmem.slots snippet.index) split)).setSnippet
      pmem.snippetInfoIndex { snippet with index := snippet.index + 1 }
  else
    ({ pmem with dbPmemStoreIndex := pmem.dbPmemStoreIndex + 1 }.insertStore
      { split with index := pmem.dbPmemStoreIndex }).1

/-- The part of a record before the flushed range. It is dirty, whatever the record was. -/
def frontSplit (flush being : PmemSt) : PmemSt :=
  { being with size := Word64.sub flush.addr being.addr, state := .dirty }

/-- The part of a record behind the flushed range. It is dirty, whatever the record was. -/
def backSplit (flush being : PmemSt) : PmemSt :=
  { being with
    addr := flush.maxAddr
    size := Word64.sub being.maxAddr flush.maxAddr
    state := .dirty }

/-- A record without its part before the flushed range. State, context and index stay. -/
def cutFront (flush being : PmemSt) : PmemSt :=
  { being with
    addr := flush.addr
    size := Word64.sub being.size (Word64.sub flush.addr being.addr) }

/-- A record without its part behind the flushed range. Its address stays. -/
def cutBack (flush being : PmemSt) : PmemSt :=
  { being with size := Word64.sub being.size (Word64.sub being.maxAddr flush.maxAddr) }

/-- Cut off the part of a slot's record before the flushed range. The part is appended to the
current snippet, whose box does not grow. -/
def splitFront (flush : PmemSt) (index : Nat) (pmem : PmemOps) : PmemOps :=
  let being := pmem.slots index
  if being.addr < flush.addr then
    (pmem.setSlot index (cutFront flush being)).appendSplit (frontSplit flush being)
  else pmem

/-- Cut off the part of a slot's record behind the flushed range. The part is appended to the
current snippet, whose box does not grow. -/
def splitBack (flush : PmemSt) (index : Nat) (pmem : PmemOps) : PmemOps :=
  let being := pmem.slots index
  if being.maxAddr > flush.maxAddr then
    (pmem.setSlot index (cutBack flush being)).appendSplit (backSplit flush being)
  else pmem

/-- Register a flush of a record that is flushed already. Without `--flush-check` nothing is
registered. -/
def warnRedundantFlush (being : PmemSt) (pmem : PmemOps) : PmemOps :=
  if pmem.opts.checkFlush then
    let (redundantFlushes, exits) := addWarningEvent maxFlushErrorEvents
      { being with state := .flushed } pmem.redundantFlushes
    { pmem with redundantFlushes := redundantFlushes, exited := pmem.exited || exits }
  else pmem

/-- Mark the record of a slot as flushed and its snippet as flushed in part. Remainders of the
record that stay dirty are cut off afterwards. -/
def markSlot (sIndex index : Nat) (pmem : PmemOps) : PmemOps :=
  (pmem.setSlot index { pmem.slots index with state := .flushed }).setSnippet sIndex
    { pmem.snippetInfo sIndex with flushedNum := .partFlushed }

/-- The body of the inner loop of `do_flush` at one slot of a snippet. The second
component is `valid_flush`. -/
def flushSlot (flush : PmemSt) (sIndex index : Nat) (pmem : PmemOps) (valid : Bool) :
    PmemOps × Bool :=
  let being := pmem.slots index
  if being.isDelete then (pmem.setSlot index { being with state := .flushed }, valid)
  else if cmpPmemSt flush being ≠ .eq then (pmem, valid)
  else if (pmem.snippetInfo sIndex).flushedNum = .allFlushed ∨ being.state ≠ .dirty then
    (pmem.warnRedundantFlush being, true)
  else (((pmem.markSlot sIndex index).splitFront flush index).splitBack flush index, true)

/-- The inner loop of `do_flush`. Its bound is read again in every turn, since the
pieces cut off in the current snippet lengthen that snippet. -/
def flushSlots (flush : PmemSt) (sIndex : Nat) : Nat → Nat → PmemOps → Bool → PmemOps × Bool
  | 0, _, pmem, valid => (pmem, valid)
  | fuel + 1, index, pmem, valid =>
      if index < (pmem.snippetInfo sIndex).index then
        let (flushed, validNow) := pmem.flushSlot flush sIndex index valid
        flushSlots flush sIndex fuel (index + 1) flushed validNow
      else (pmem, valid)

/-- The flushed range covers the box of a snippet from which nothing was flushed. Remainders
outside the box are tagged with it. -/
def tagsSnippet (flush : PmemSt) (snippet : ArrSnippet) : Prop :=
  flush.maxAddr ≥ snippet.maxAdd ∧ snippet.minAdd ≥ flush.addr ∧ snippet.flushedNum = .noFlushed

instance (flush : PmemSt) (snippet : ArrSnippet) : Decidable (tagsSnippet flush snippet) :=
  inferInstanceAs (Decidable (_ ∧ _ ∧ _))

/-- The flushed range and the box of a snippet do not even touch. Remainders outside the box
are skipped with it. -/
def skipsSnippet (flush : PmemSt) (snippet : ArrSnippet) : Prop :=
  flush.maxAddr < snippet.minAdd ∨ snippet.maxAdd < flush.addr

instance (flush : PmemSt) (snippet : ArrSnippet) : Decidable (skipsSnippet flush snippet) :=
  inferInstanceAs (Decidable (_ ∨ _))

/-- The body of the loop of `do_flush` over the snippets. Each record of the snippet is
met once, and so is each of the two pieces that may be cut off it. -/
def flushSnippet (flush : PmemSt) (state : PmemOps × Bool) (sIndex : Nat) : PmemOps × Bool :=
  let (pmem, valid) := state
  let snippet := pmem.snippetInfo sIndex
  if tagsSnippet flush snippet then
    (pmem.setSnippet sIndex { snippet with flushedNum := .allFlushed }, true)
  else if skipsSnippet flush snippet then (pmem, valid)
  else
    flushSlots flush sIndex (3 * (snippet.index - snippet.startIndex) + 1) snippet.startIndex pmem
      valid

/-- Insert a node into the tree and resume the walk at another one. The iterator is lost by the
insertion, so that the walk is set anew. -/
def insertResume (cmp : PmemSt → PmemSt → Ordering) (split resume : PmemSt) (set : OSet PmemSt) :
    OSet PmemSt :=
  (set.insert (cmp split) split).resetIterAt (cmp resume)

/-- The part of a tree record behind the flushed range: a zeroed node with an index, a
range and a state. -/
def backNode (flush being : PmemSt) (dbIndex : Nat) : PmemSt :=
  { PmemSt.range flush.maxAddr (Word64.sub being.maxAddr flush.maxAddr) with
    index := dbIndex
    state := .dirty }

/-- Cut off the part of a tree record before the flushed range. The record is the one
that the walk just yielded, at a position. -/
def splitFrontTree (flush being : PmemSt) (position : Nat) (pmem : PmemOps) : PmemOps × PmemSt :=
  if being.addr < flush.addr then
    let cut := cutFront flush being
    let split := { frontSplit flush being with index := pmem.dbPmemStoreIndex }
    ({ pmem with
      pmemStores := insertResume (treeCmp pmem.opts) split cut
        (pmem.pmemStores.modifyAt position (fun _ => cut))
      dbPmemStoreIndex := pmem.dbPmemStoreIndex + 1 }, cut)
  else (pmem, being)

/-- Cut off the part of a tree record behind the flushed range. The record is written
through its own key, since an insertion may have moved it. -/
def splitBackTree (flush being : PmemSt) (pmem : PmemOps) : PmemOps :=
  if being.maxAddr > flush.maxAddr then
    let cut := cutBack flush being
    { pmem with
      pmemStores := insertResume (treeCmp pmem.opts)
        (backNode flush being pmem.dbPmemStoreIndex) cut
        (pmem.pmemStores.update (treeCmp pmem.opts being) (fun _ => cut))
      dbPmemStoreIndex := pmem.dbPmemStoreIndex + 1 }
  else pmem

/-- The loop of `do_flush` over the tree. A dirty node that the range meets is marked, cut in
front and at the back, and the walk resumes at what is left of it, where it counts as flushed
already. -/
def flushTree (flush : PmemSt) : Nat → PmemOps → Bool → PmemOps × Bool
  | 0, pmem, valid => (pmem, valid)
  | fuel + 1, pmem, valid =>
      match pmem.pmemStores.next with
      | none => (pmem, valid)
      | some (position, being, walked) =>
          let next := { pmem with pmemStores := walked }
          if cmpPmemSt flush being ≠ .eq then flushTree flush fuel next valid
          else if being.state ≠ .dirty then
            flushTree flush fuel (next.warnRedundantFlush being) true
          else
            let flushed := { being with state := .flushed }
            let marked := { next with pmemStores := walked.modifyAt position (fun _ => flushed) }
            let (front, cut) := marked.splitFrontTree flush flushed position
            flushTree flush fuel (front.splitBackTree flush cut) true

/-- The check of `do_flush` for a flush of an ordered range in a later strand. It counts every
order whose second range the flush meets, whether or not the first was persisted before. -/
def checkStrandOrder (flush : PmemSt) (strandId : Nat) (pmem : PmemOps) : PmemOps :=
  if pmem.opts.lackOrderingTrand ∧ strandId > 0 then
    let violated := pmem.pmemOrderRecords.toList.countP (fun record =>
      pmem.pmemTimeRecords.toList.any (fun second =>
        decide (second.index = record.b ∧
          cmpPmemStOrder { second with addr := flush.addr, size := flush.size } second = .eq)))
    { pmem with lackOrderingTrandReg := pmem.lackOrderingTrandReg + violated }
  else pmem

/-- Register a flush that met no record. A snippet that was tagged as a whole counts as met. -/
def warnSuperfluousFlush (flush : PmemSt) (context : Option ExeContext) (valid : Bool)
    (pmem : PmemOps) : PmemOps :=
  if valid = false ∧ pmem.opts.checkFlush then
    let (superfluousFlushes, exits) := addWarningEvent maxFlushErrorEvents
      { flush with context := context } pmem.superfluousFlushes
    { pmem with superfluousFlushes := superfluousFlushes, exited := pmem.exited || exits }
  else pmem

/-- The loop of `do_flush` over all snippets. The flag that is handed on tells whether anything
was met. -/
def flushArray (flush : PmemSt) (pmem : PmemOps) : PmemOps × Bool :=
  (List.range (pmem.snippetInfoIndex + 1)).foldl (flushSnippet flush) (pmem, false)

/-- The tree part of `do_flush`, skipped when the range misses the bounds. Four turns for each
node are enough, since a node is cut into three at most and met once more at each cut. -/
def flushStores (flush : PmemSt) (pmem : PmemOps) (valid : Bool) : PmemOps × Bool :=
  if flush.addr > pmem.maxAddPmemStore ∨ flush.maxAddr < pmem.minAddPmemStore then (pmem, valid)
  else
    flushTree flush (4 * pmem.pmemStores.size + 1)
      { pmem with pmemStores := pmem.pmemStores.resetIter } valid

/-- A new snippet is opened once something was flushed from the current one. So every later
store has a snippet from which nothing is flushed. -/
def closeSnippet (pmem : PmemOps) : PmemOps :=
  if pmem.current.flushedNum ≠ .noFlushed then pmem.initSnippetInfo else pmem

/-- `do_flush` in the strand `strandId`. The orders are checked first, then array and tree are
flushed, then a flush that met nothing is registered, and at last the current snippet is
closed. -/
def doFlush (base size : Nat) (context : Option ExeContext) (strandId : Nat) (pmem : PmemOps) :
    PmemOps :=
  let flush := flushInfo pmem.opts pmem.flushAlignSize base size
  let (array, validArray) := flushArray flush (pmem.checkStrandOrder flush strandId)
  let (tree, valid) := array.flushStores flush validArray
  (tree.warnSuperfluousFlush flush context valid).closeSnippet

/-- The range of a time record touches a box or a range, ends included. A range that merely
ends where the other begins is touched, too. -/
def touches (record : PmemStOrder) (minAdd maxAdd : Nat) : Prop :=
  ¬ (record.addr > maxAdd ∨ Word64.add record.addr record.size < minAdd)

instance (record : PmemStOrder) (minAdd maxAdd : Nat) : Decidable (touches record minAdd maxAdd) :=
  inferInstanceAs (Decidable (¬ _))

/-- The snippet ends the pending time of a record at a fence: it is flushed as a whole
and its box touches the range, or it is flushed in part and so does its box and the
range of one of its flushed slots. -/
def snippetStamps (record : PmemStOrder) (pmem : PmemOps) (sIndex : Nat) : Prop :=
  let snippet := pmem.snippetInfo sIndex
  touches record snippet.minAdd snippet.maxAdd ∧
    (snippet.flushedNum = .allFlushed ∨ snippet.flushedNum = .partFlushed ∧
      ∃ index ∈ slotRange snippet, (pmem.slots index).state = .flushed ∧
        touches record (pmem.slots index).addr (pmem.slots index).maxAddr)

instance (record : PmemStOrder) (pmem : PmemOps) (sIndex : Nat) :
    Decidable (snippetStamps record pmem sIndex) :=
  inferInstanceAs (Decidable (_ ∧ (_ ∨ _ ∧ _)))

/-- A flushed record of the tree overlaps the range of a time record. Here the ends are
excluded, unlike in the array. -/
def treeStamps (record : PmemStOrder) (pmem : PmemOps) : Prop :=
  ∃ store ∈ pmem.pmemStores.toList, cmpPmemSt store (PmemSt.range record.addr record.size) = .eq ∧
    store.state = .flushed

instance (record : PmemStOrder) (pmem : PmemOps) : Decidable (treeStamps record pmem) :=
  inferInstanceAs (Decidable (∃ store ∈ pmem.pmemStores.toList, _ ∧ _))

/-- Some snippet or the tree ends the pending time of a record. One flushed record is enough,
however much of the range is still dirty. -/
def stamps (record : PmemStOrder) (pmem : PmemOps) : Prop :=
  (∃ sIndex ∈ List.range (pmem.snippetInfoIndex + 1), snippetStamps record pmem sIndex) ∨
    treeStamps record pmem

instance (record : PmemStOrder) (pmem : PmemOps) : Decidable (stamps record pmem) :=
  have := List.decidableBEx (snippetStamps record pmem) (List.range (pmem.snippetInfoIndex + 1))
  inferInstanceAs (Decidable (_ ∨ treeStamps record pmem))

/-- What a fence does to a time record. An end that was set by an earlier fence is set again. -/
def endTime (pmem : PmemOps) (record : PmemStOrder) : PmemStOrder :=
  if stamps record pmem then { record with timestampEnd := pmem.globalTimeStamp } else record

/-- The loop of `do_fence` over the tree: remove what is flushed and collect the
bounds of the rest. -/
def fenceTree : Nat → PmemOps → PmemOps
  | 0, pmem => pmem
  | fuel + 1, pmem =>
      match pmem.pmemStores.next with
      | none => pmem
      | some (_, being, walked) =>
          let cmp := treeCmp pmem.opts
          if being.state = .flushed then
            fenceTree fuel { pmem with
              pmemStores := (walked.remove cmp (cmp being)).resetIterAt (cmp being) }
          else
            fenceTree fuel
              ({ pmem with pmemStores := walked }.updateOsetPmemStoresMinandmax being)

/-- Move a pending record from its slot to the tree. It takes a fresh index there; a flushed
record and a deleted one stay behind and are forgotten with the array. -/
def fenceSlot (pmem : PmemOps) (index : Nat) : PmemOps :=
  let being := pmem.slots index
  if being.state = .flushed ∨ being.isDelete then pmem
  else
    let (inserted, entered) :=
      { pmem with dbPmemStoreIndex := pmem.dbPmemStoreIndex + 1 }.insertStore
        { being with index := pmem.dbPmemStoreIndex }
    inserted.updateOsetPmemStoresMinandmax entered

/-- Move the pending records of a snippet to the tree. Of a snippet that is flushed as a whole
none is moved. -/
def fenceSnippet (pmem : PmemOps) (sIndex : Nat) : PmemOps :=
  let snippet := pmem.snippetInfo sIndex
  if snippet.flushedNum = .allFlushed then pmem
  else (slotRange snippet).foldl fenceSlot pmem

/-- The ordering part of `do_fence`. It comes first, while array and tree still hold what is
flushed. -/
def fenceTimes (pmem : PmemOps) : PmemOps :=
  if pmem.opts.orderGuarantee then
    { pmem with pmemTimeRecords := pmem.pmemTimeRecords.map (endTime pmem) }
  else pmem

/-- Start over with an empty array. The slots keep what they hold, and so do the later entries
of the table. -/
def clearArray (pmem : PmemOps) : PmemOps :=
  { pmem.setSnippet 0 (emptySnippet 0) with snippetInfoIndex := 0 }

/-- `do_fence`. What is flushed is dropped from the tree and left behind in the array; what is
dirty in the array goes to the tree. The bounds of the tree are collected on the way, and the
clock goes on if orders are kept. -/
def doFence (pmem : PmemOps) : PmemOps :=
  let timed := pmem.fenceTimes
  let fenced := fenceTree (timed.pmemStores.size + 1) { timed with
    minAddPmemStore := Word64.minusOne
    maxAddPmemStore := Word64.minusOne
    pmemStores := timed.pmemStores.resetIter }
  let moved := (List.range (fenced.snippetInfoIndex + 1)).foldl fenceSnippet fenced
  let cleared := moved.clearArray
  if cleared.opts.orderGuarantee then
    { cleared with globalTimeStamp := Word64.add cleared.globalTimeStamp 1 }
  else cleared

end PmemOps

end PmDebugger
