import PmDebugger.Cleaning
import PmDebugger.Durability

/-!
# Insertions into the tree

An insertion of an element that compares equal to one of the set fails an assertion and
ends the tool. The runs here consist of stores, flushes, fences and requests to clear a
range, under every combination of the options and with a full array as well. All of them
keep the tracker sound, and a sound tracker fails no insertion but one: the part of an array
record behind a new store, which goes to the tree past the code that makes room there.
-/

namespace PmDebugger

open OrderedSet OrderedSet.OSet PmemOps Runs

/-- A store, a flush, a fence or a request to clear a range, of whatever ranges, the
registration of memory, or the entry into a superblock. -/
def TrackerRequest : ClientRequest → Prop
  | .access (.store _ _ _ _ _) | .access (.flush _ _ _) | .access .fence
  | .access (.registerMapping _ _) | .setClean _ _ | .enterBlock => True
  | _ => False

instance : (request : ClientRequest) → Decidable (TrackerRequest request)
  | .access (.store _ _ _ _ _) | .access (.flush _ _ _) | .access .fence
  | .access (.registerMapping _ _) | .setClean _ _ | .enterBlock => .isTrue trivial
  | .access (.orderGuarantee _ _ _ _) | .access (.fenceMark _) | .access .epochBegin
  | .access (.epochEnd _) | .access (.newStrand _ _) | .removeMapping _ _ | .checkIsPmemMapping _ _
  | .writeStats | .startTx _ _ _ | .endTx _ _ _ | .addToTx _ _ _ _ _ | .removeFromTx _ _ _ _
  | .addThreadToTx _ _ | .removeThreadFromTx _ _ | .addToGlobalTxIgnore _ _ => .isFalse id

/-- A store, a flush or a request to clear a range, all of proper ranges, a fence, the
registration of memory, or the entry into a superblock. -/
def RecordRequest (tool : Tool) : ClientRequest → Prop
  | .access (.store _ _ addr size _) => (PmemSt.range addr size).Proper
  | .access (.flush _ base size) => (flushRange tool base size).Proper
  | .access .fence => True
  | .access (.registerMapping _ _) => True
  | .setClean base size => (PmemSt.range base size).Proper
  | .enterBlock => True
  | _ => False

instance (tool : Tool) : (request : ClientRequest) → Decidable (RecordRequest tool request)
  | .access (.store _ _ addr size _) => inferInstanceAs (Decidable (PmemSt.range addr size).Proper)
  | .access (.flush _ base size) => inferInstanceAs (Decidable (flushRange tool base size).Proper)
  | .access .fence => .isTrue trivial
  | .access (.registerMapping _ _) => .isTrue trivial
  | .setClean base size => inferInstanceAs (Decidable (PmemSt.range base size).Proper)
  | .enterBlock => .isTrue trivial
  | .access (.orderGuarantee _ _ _ _) | .access (.fenceMark _) | .access .epochBegin
  | .access (.epochEnd _) | .access (.newStrand _ _) | .removeMapping _ _ | .checkIsPmemMapping _ _
  | .writeStats | .startTx _ _ _ | .endTx _ _ _ | .addToTx _ _ _ _ _ | .removeFromTx _ _ _ _
  | .addThreadToTx _ _ | .removeThreadFromTx _ _ | .addToGlobalTxIgnore _ _ => .isFalse id

/-- A store reaches the tracker: the process is there and the address is registered. Other
stores change nothing. -/
def Traces (tool : Tool) (addr size : Nat) : Prop :=
  tool.exited = false ∧ tool.pmem.isPmemAccess addr size = true

instance (tool : Tool) (addr size : Nat) : Decidable (Traces tool addr size) :=
  inferInstanceAs (Decidable (_ ∧ _))

/-- The request does not reach the records. Array and tree are as before, and it was neither a
store that is traced nor a flush. -/
structure Idle (tool : Tool) (request : ClientRequest) : Prop where
  same : SameRecords tool.pmem (tool.serve request).pmem
  snippets : (tool.serve request).pmem.snippetInfo = tool.pmem.snippetInfo
  untraced : ∀ threadId context addr size value,
    request = .access (.store threadId context addr size value) → ¬ Traces tool addr size
  gone : ∀ context base size, request = .access (.flush context base size) → tool.exited = true

/-- What a request of the tracker can do to the records, whatever its range. -/
theorem serve_tracker (tool : Tool) {request : ClientRequest} (allowed : TrackerRequest request) :
    (∃ threadId context addr size value, request =
      .access (.store threadId context addr size value) ∧ Traces tool addr size ∧
      (tool.serve request).pmem = (tool.pmem.trackStore addr size value context).1) ∨
    (∃ context base size, request = .access (.flush context base size) ∧ tool.exited = false ∧
      (tool.serve request).pmem = tool.pmem.doFlush base size context tool.strandId) ∨
    (request = .access .fence ∧ (tool.serve request).pmem = tool.pmem.doFence) ∨
    (∃ base size, request = .setClean base size ∧
      tool.exited = false ∧ (tool.serve request).pmem = tool.pmem.setClean base size) ∨
    Idle tool request := by
  have unchanged : SameRecords tool.pmem tool.pmem :=
    ⟨rfl, rfl, Nat.le_refl _, rfl, rfl, fun _ => rfl, fun _ => rfl⟩
  cases gone : tool.exited with
  | true =>
    have same : tool.serve request = tool := by rw [Tool.serve, gone, if_pos rfl]
    refine .inr
      (.inr (.inr (.inr ⟨?_, ?_, fun _ _ addr size _ _ traces => ?_, fun _ _ _ _ => gone⟩)))
    · rw [same]
      exact unchanged
    · rw [same]
    · rw [traces.1] at gone
      cases gone
  | false =>
    have same : tool.serve request = tool.respond request := by simp [Tool.serve, gone]
    have idle (records : SameRecords tool.pmem (tool.respond request).pmem)
        (snippets : (tool.respond request).pmem.snippetInfo = tool.pmem.snippetInfo)
        (notStore : ∀ threadId context addr size value,
          request ≠ .access (.store threadId context addr size value))
        (notFlush : ∀ context base size, request ≠ .access (.flush context base size)) :
        Idle tool request :=
      ⟨same ▸ records, same ▸ snippets,
        fun threadId context addr size value isStore => absurd isStore (notStore _ _ _ _ _),
        fun context base size isFlush => absurd isFlush (notFlush _ _ _)⟩
    cases request with
    | access access =>
      cases access with
      | store threadId context addr size value =>
        cases registered : tool.pmem.isPmemAccess addr size with
        | true =>
          refine .inl ⟨threadId, context, addr, size, value, rfl, ⟨gone, registered⟩, ?_⟩
          rw [same]
          simp only [Tool.respond, Tool.handleClientRequest, Tool.step, Tool.tracePmemStore,
            registered, if_true]
        | false =>
          have skipped : tool.respond (.access (.store threadId context addr size value)) =
              tool := by
            simp [Tool.respond, Tool.handleClientRequest, Tool.step, Tool.tracePmemStore,
              registered]
          refine .inr (.inr (.inr (.inr ⟨?_, ?_, fun _ _ _ _ _ isStore traces => ?_,
            fun _ _ _ isFlush => by cases isFlush⟩)))
          · rw [same, skipped]
            exact unchanged
          · rw [same, skipped]
          · cases isStore
            rw [traces.2] at registered
            cases registered
      | flush context base size =>
        refine .inr (.inl ⟨context, base, size, rfl, rfl, ?_⟩)
        rw [same]
        rfl
      | fence =>
        refine .inr (.inr (.inl ⟨rfl, ?_⟩))
        rw [same]
        rfl
      | registerMapping base size =>
        refine .inr (.inr (.inr (.inr (idle ?_ rfl (by simp) (by simp)))))
        exact ⟨rfl, rfl, Nat.le_refl _, rfl, rfl, fun _ => rfl, fun _ => rfl⟩
      | orderGuarantee | fenceMark | epochBegin | epochEnd | newStrand => exact absurd allowed id
    | setClean base size =>
      refine .inr (.inr (.inr (.inl ⟨base, size, rfl, rfl, ?_⟩)))
      rw [same]
      rfl
    | enterBlock =>
      refine .inr (.inr (.inr (.inr (idle ?_ rfl (by simp) (by simp)))))
      exact ⟨rfl, rfl, Nat.le_refl _, rfl, rfl, fun _ => rfl, fun _ => rfl⟩
    | removeMapping | checkIsPmemMapping | writeStats | startTx | endTx | addToTx | removeFromTx
    | addThreadToTx | removeThreadFromTx | addToGlobalTxIgnore => exact absurd allowed id

/-- What a request can do to the records. -/
theorem serve_record {tool : Tool} {request : ClientRequest}
    (allowed : RecordRequest tool request) :
    (∃ threadId context addr size value, request =
      .access (.store threadId context addr size value) ∧
      (PmemSt.range addr size).Proper ∧ Traces tool addr size ∧
      (tool.serve request).pmem = (tool.pmem.trackStore addr size value context).1) ∨
    (∃ context base size, request = .access (.flush context base size) ∧
      (flushRange tool base size).Proper ∧
      (tool.serve request).pmem = tool.pmem.doFlush base size context tool.strandId) ∨
    (request = .access .fence ∧ (tool.serve request).pmem = tool.pmem.doFence) ∨
    (∃ base size, request = .setClean base size ∧ (PmemSt.range base size).Proper ∧
      tool.exited = false ∧ (tool.serve request).pmem = tool.pmem.setClean base size) ∨
    (SameRecords tool.pmem (tool.serve request).pmem ∧
      ∀ threadId context addr size value,
        request = .access (.store threadId context addr size value) → ¬ Traces tool addr size) := by
  have tracker : TrackerRequest request := by
    cases request with
    | access access => cases access <;> first | exact trivial | exact allowed
    | setClean | enterBlock => exact trivial
    | _ => exact allowed
  rcases serve_tracker tool tracker with ⟨threadId, context, addr, size, value, rfl, traces,
      result⟩ |
    ⟨context, base, size, rfl, _, result⟩ | ⟨rfl, result⟩ | ⟨base, size, rfl, present,
      result⟩ | idle
  · exact .inl ⟨threadId, context, addr, size, value, rfl, allowed, traces, result⟩
  · exact .inr (.inl ⟨context, base, size, rfl, allowed, result⟩)
  · exact .inr (.inr (.inl ⟨rfl, result⟩))
  · exact .inr (.inr (.inr (.inl ⟨base, size, rfl, allowed, present, result⟩)))
  · exact .inr (.inr (.inr (.inr ⟨idle.same, idle.untraced⟩)))

/-- A new tracker is sound. -/
theorem initTool_sound (opts : Options) (transactionsOnly redundantLogging : Bool)
    (cacheLineSize : Nat) (slots : Nat → PmemSt) :
    Sound (initTool opts transactionsOnly redundantLogging cacheLineSize slots).pmem := by
  refine ⟨⟨rfl, ?_, ?_⟩, ?_, ⟨?_, ?_, ?_, ?_⟩⟩
  · exact fun sIndex below => absurd below (Nat.not_lt_zero sIndex)
  · exact fun _ _ => Nat.le_refl 0
  · exact fun slot inUse => absurd inUse (Nat.not_lt_zero slot)
  · exact fun _ member => absurd member (List.not_mem_nil)
  · exact fun _ => List.Pairwise.nil
  · exact fun _ _ member => absurd member (List.not_mem_nil)
  · exact fun _ => ranges_nil

/-- The tree has a gap for what a store under both options cuts off behind itself. -/
def FindsGap (tool : Tool) : ClientRequest → Prop
  | .access (.store _ _ addr size _) => Traces tool addr size →
      tool.pmem.opts.trackMultipleStores = true → tool.pmem.opts.treeReorganization = true →
      GapFor (PmemSt.range addr size) (reachedSlots (PmemSt.range addr size) tool.pmem) tool.pmem
  | _ => True

instance (tool : Tool) : (request : ClientRequest) → Decidable (FindsGap tool request)
  | .access (.store _ _ _ _ _) => inferInstanceAs (Decidable (_ → _ → _ → _))
  | .access (.flush _ _ _) | .access .fence | .access (.registerMapping _ _)
  | .access (.orderGuarantee _ _ _ _) | .access (.fenceMark _) | .access .epochBegin
  | .access (.epochEnd _) | .access (.newStrand _ _) | .enterBlock | .setClean _ _
  | .removeMapping _ _ | .checkIsPmemMapping _ _ | .writeStats | .startTx _ _ _ | .endTx _ _ _
  | .addToTx _ _ _ _ _ | .removeFromTx _ _ _ _ | .addThreadToTx _ _ | .removeThreadFromTx _ _
  | .addToGlobalTxIgnore _ _ => .isTrue trivial

/-- The record that a store writes reaches the same slots as its range. -/
theorem gapFor_written {pmem : PmemOps} (layout : Layout pmem) (addr size value : Nat)
    (context : Option ExeContext) :
    GapFor (pmem.writeStore addr size value context PmemSt.zero)
      (reachedSlots (pmem.writeStore addr size value context PmemSt.zero) pmem) pmem ↔
    GapFor (PmemSt.range addr size) (reachedSlots (PmemSt.range addr size) pmem) pmem :=
  gapFor_congr layout rfl rfl (fun _ _ => rfl) rfl rfl rfl

section Step

variable {tool : Tool} {request : ClientRequest}

/-- A request of a run keeps the tracker sound, whatever the options. -/
theorem serve_sound (sound : Sound tool.pmem) (allowed : RecordRequest tool request) :
    Sound (tool.serve request).pmem := by
  rcases serve_record allowed with ⟨_, context, addr, size, value, _, proper, _, result⟩ |
    ⟨context, base, size, _, proper, result⟩ | ⟨_, result⟩ | ⟨base, size, _, proper, _, result⟩ |
    ⟨same, _⟩
  · rw [result]
    exact (trackStore_tracked value context proper sound).sound
  · rw [result]
    exact (doFlush_kept context tool.strandId proper sound).sound
  · rw [result]
    exact (doFence_kept sound).sound
  · rw [result]
    exact (setClean_cleaned proper sound).sound
  · have kept : Kept (fun _ => False) tool.pmem (tool.serve request).pmem := same.kept sound
    exact kept.sound

/-- Only a store that finds no gap fails an insertion. -/
theorem serve_flag (sound : Sound tool.pmem) (allowed : RecordRequest tool request)
    (intact : tool.pmem.pmemStores.duplicate = false) :
    (tool.serve request).pmem.pmemStores.duplicate = false ↔ FindsGap tool request := by
  rcases serve_record allowed with ⟨_, context, addr, size, value, rfl, proper, traces, result⟩ |
    ⟨context, base, size, rfl, proper, result⟩ | ⟨rfl, result⟩ |
    ⟨base, size, rfl, proper, _, result⟩ | ⟨same, notTraced⟩
  · have tracked := trackStore_tracked value context proper sound
    rw [result]
    constructor
    · intro still _ mult reorganised
      rw [← gapFor_written sound.layout addr size value context]
      by_contra noGap
      rw [tracked.refused mult reorganised noGap] at still
      cases still
    · intro gap
      refine (tracked.gap (fun mult reorganised => ?_)).1.trans intact
      rw [gapFor_written sound.layout]
      exact gap traces mult reorganised
  · refine iff_of_true ?_ trivial
    rw [result, (doFlush_kept context tool.strandId proper sound).flag]
    exact intact
  · refine iff_of_true ?_ trivial
    rw [result, (doFence_kept sound).flag]
    exact intact
  · refine iff_of_true ?_ trivial
    rw [result, (setClean_cleaned proper sound).flag]
    exact intact
  · refine iff_of_true ?_ ?_
    · rw [same.stores]
      exact intact
    · cases request with
      | access access =>
        cases access with
        | store threadId context addr size value =>
          exact fun traces => absurd traces (notTraced _ _ _ _ _ rfl)
        | flush | fence | registerMapping | orderGuarantee | fenceMark | epochBegin | epochEnd
        | newStrand => exact trivial
      | enterBlock | setClean | removeMapping | checkIsPmemMapping | writeStats | startTx | endTx
      | addToTx | removeFromTx | addThreadToTx | removeThreadFromTx | addToGlobalTxIgnore =>
        exact trivial

end Step

/-- No insertion fails in a run iff each of its stores under both options finds a gap in the
tree for what it cuts off behind itself.

Proof: soundness is an invariant of the run, and in a sound state each request keeps the flag
of the tree unless it is a store that finds no gap. All other insertions are of records under
new numbers or of ranges that were cut free before. -/
theorem insertions_fresh_iff (opts : Options) (transactionsOnly redundantLogging : Bool)
    (cacheLineSize : Nat) (slots : Nat → PmemSt) (requests : List ClientRequest)
    (admitted : AllSteps Tool.serve RecordRequest
      (initTool opts transactionsOnly redundantLogging cacheLineSize slots) requests) :
    Throughout Tool.serve (fun tool => tool.pmem.pmemStores.duplicate = false)
      (initTool opts transactionsOnly redundantLogging cacheLineSize slots) requests ↔
    AllSteps Tool.serve FindsGap
      (initTool opts transactionsOnly redundantLogging cacheLineSize slots) requests :=
  throughout_iff_allSteps Tool.serve RecordRequest FindsGap _ (fun tool => Sound tool.pmem)
    (fun _ _ sound allowed => serve_sound sound allowed)
    (fun _ _ sound allowed intact => serve_flag sound allowed intact) _ requests
    (initTool_sound opts transactionsOnly redundantLogging cacheLineSize slots) rfl admitted

/-- The options `--mult-stores` and `--tree-reorganization` together. The source warns against
the pair and does not exclude it. -/
def bothOptions : Options :=
  { defaultOptions (fun _ => false) with trackMultipleStores := true, treeReorganization := true }

/-- A store in registered memory, always from one place of the program. Stores from one place
may be merged. -/
def storeTo (addr size : Nat) : ClientRequest := .access (.store 0 (some ⟨[7]⟩) addr size 0)

/-- A store within a store, a flush and a request to clear the rest. -/
def onceCutRun : List ClientRequest :=
  [.access (.registerMapping 64 256), storeTo 100 100, storeTo 120 10, .access (.flush none 100 10),
    .access .fence, .setClean 150 20]

/-- A run with both options in which each store finds its gap. -/
theorem insertions_fresh_once_cut :
    AllSteps Tool.serve RecordRequest (initTool bothOptions false false 64 (fun _ => PmemSt.zero))
      onceCutRun ∧
    Throughout Tool.serve (fun tool => tool.pmem.pmemStores.duplicate = false)
      (initTool bothOptions false false 64 (fun _ => PmemSt.zero)) onceCutRun :=
  have admitted : AllSteps Tool.serve RecordRequest
      (initTool bothOptions false false 64 (fun _ => PmemSt.zero)) onceCutRun := by
    decide +kernel
  ⟨admitted, (insertions_fresh_iff bothOptions false false 64 (fun _ => PmemSt.zero) onceCutRun
    admitted).mpr (by decide +kernel)⟩

/-- A store within a store, a store of the part behind it, and a store within that part. -/
def twiceCutRun : List ClientRequest :=
  [.access (.registerMapping 64 256), storeTo 100 100, storeTo 120 10, storeTo 130 70,
    storeTo 150 10]

/-- The second store puts what it cuts off behind itself into the tree, without a change to the
bounds of the tree. The third therefore passes over that record, and its own is cut by the
fourth, which puts a part of the same bytes into the tree once more. -/
theorem insertions_fresh_fails :
    AllSteps Tool.serve RecordRequest (initTool bothOptions false false 64 (fun _ => PmemSt.zero))
      twiceCutRun ∧
    (twiceCutRun.foldl Tool.serve
      (initTool bothOptions false false 64 (fun _ => PmemSt.zero))).pmem.pmemStores.duplicate =
        true := by
  decide +kernel

end PmDebugger
