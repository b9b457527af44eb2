import PmDebugger.Client
import PmDebugger.Library.Runs

/-!
# Registered mappings

Registering a mapping merges it with its neighbours; removing one takes out every
element that overlaps it and puts the remainders back. Both keep the mappings a
region set, so their bytes are those of the requests and the three answers of
`is_in_mapping_set` can be read off one overlapping element.
-/

namespace PmDebugger

open OrderedSet OrderedSet.OSet

/-- The remainders of a mapping are those of a region, with no index. -/
theorem mappingRemainders_eq (region entry : PmemSt) :
    mappingRemainders region entry = remainders region entry 0 := rfl

/-- Pieces that fit between two halves of a set of ranges are inserted there. -/
theorem insertPieces_listing {pieces before after : List PmemSt} {set : OSet PmemSt}
    (listed : set.toList = before ++ after) (ranges : Ranges (before ++ pieces ++ after)) :
    (pieces.foldl (fun rest piece => rest.insert (cmpPmemSt piece) piece) set).toList =
        before ++ pieces ++ after ∧
      (pieces.foldl (fun rest piece => rest.insert (cmpPmemSt piece) piece) set).duplicate =
        set.duplicate := by
  induction pieces generalizing before set with
  | nil => simpa using listed
  | cons piece rest inductionHypothesis =>
    have around : Ranges (before ++ piece :: after) := by
      apply ranges.sublist
      simp
    obtain ⟨above, below⟩ := ordered_match around.ordered
    obtain ⟨inserted, sameFlag⟩ := insert_split piece listed above below
    have next : (set.insert (cmpPmemSt piece) piece).toList = (before ++ [piece]) ++ after := by
      simpa using inserted
    obtain ⟨listing, flag⟩ := inductionHypothesis next (by simpa using ranges)
    exact ⟨by simpa using listing, flag.trans sameFlag⟩

/-- The number of elements that overlap a region. The loop of `remove_region_mapping` looks for
one after the other, so this number is how many turns it takes. -/
def overlapping (region : PmemSt) (elems : List PmemSt) : Nat :=
  elems.countP (fun elem => cmpPmemSt region elem = .eq)

/-- Pieces beside the region do not count. -/
theorem overlapping_clear {region : PmemSt} (proper : region.Proper) {pieces : List PmemSt}
    (regions : RegionSet pieces) (clear : ∀ piece ∈ pieces, cmpPmemSt piece region ≠ .eq) :
    overlapping region pieces = 0 := by
  apply List.countP_eq_zero.mpr
  intro piece member equal
  have fits := (regions.inner piece member).proper.nonWrapping
  apply clear piece member
  rw [decide_eq_true_eq, cmpPmemSt_eq_iff proper.nonWrapping fits] at equal
  rw [cmpPmemSt_eq_iff fits proper.nonWrapping]
  exact ⟨equal.2, equal.1⟩

/-- What the loop of `remove_region_mapping` makes of a region set, with more fuel than
there are overlapping elements. -/
theorem removeRegionMappingLoop_exact {region : PmemSt} (proper : region.Proper) (fuel : Nat)
    (set : OSet PmemSt) (regions : RegionSet set.toList)
    (enough : overlapping region set.toList < fuel) :
    RegionSet (removeRegionMappingLoop region fuel set).toList ∧
      (∀ byte, Tracks (removeRegionMappingLoop region fuel set).toList byte ↔
        Tracks set.toList byte ∧ ¬ region.Covers byte) ∧
      (removeRegionMappingLoop region fuel set).duplicate = set.duplicate := by
  induction fuel generalizing set with
  | zero => omega
  | succ fuel inductionHypothesis =>
    simp only [removeRegionMappingLoop]
    cases searched : set.lookup (cmpPmemSt region) with
    | none =>
      have outside := (regions.lookup_none_iff proper).mp searched
      refine ⟨regions, fun byte => ?_, rfl⟩
      exact ⟨fun tracked => ⟨tracked, fun inside => outside byte inside tracked⟩, And.left⟩
    | some entry =>
      obtain ⟨member, meets⟩ := lookup_sound searched
      have inner := regions.inner entry member
      obtain ⟨before, after, listed, removed, removedFlag⟩ :=
        remove_found regions.ordered (regions.reflexive member) searched
      have meets' : cmpPmemSt entry region = .eq := by
        rw [cmpPmemSt_eq_iff proper.nonWrapping inner.proper.nonWrapping] at meets
        rw [cmpPmemSt_eq_iff inner.proper.nonWrapping proper.nonWrapping]
        exact ⟨meets.2, meets.1⟩
      have remains := remainders_exact proper inner 0 meets'
      rw [listed] at regions enough ⊢
      have refined := regions.refine remains.regions remains.within
      simp only [mappingRemainders_eq]
      obtain ⟨put, putFlag⟩ := insertPieces_listing removed refined.ranges
      have fewer : overlapping region (before ++ remainders region entry 0 ++ after) < fuel := by
        have none := overlapping_clear proper remains.regions remains.clear
        simp only [overlapping, List.countP_append, List.countP_cons, meets, decide_true,
          if_true] at none enough ⊢
        omega
      obtain ⟨regionsAfter, bytes, flag⟩ :=
        inductionHypothesis _ (by rw [put]; exact refined) (by rw [put]; exact fewer)
      refine ⟨regionsAfter, fun byte => ?_, (flag.trans putFlag).trans removedFlag⟩
      rw [bytes byte, put, tracks_append, tracks_append, tracks_append, tracks_cons,
        remains.bytes byte]
      tauto

/-- `remove_region_mapping` keeps a region set and takes away exactly the bytes of the
region. -/
theorem removeRegionMapping_exact {set : OSet PmemSt} (regions : RegionSet set.toList)
    {region : PmemSt} (proper : region.Proper) :
    RegionSet (removeRegionMapping region set).toList ∧
      (∀ byte, Tracks (removeRegionMapping region set).toList byte ↔
        Tracks set.toList byte ∧ ¬ region.Covers byte) ∧
      (removeRegionMapping region set).duplicate = set.duplicate := by
  apply removeRegionMappingLoop_exact proper _ set regions
  exact Nat.lt_succ_of_le List.countP_le_length

/-- The bounds of the mappings are kept beside them. -/
theorem lowerMappings_mappings (region : PmemSt) (pmem : PmemOps) :
    (pmem.lowerMappings region).pmemMappings = pmem.pmemMappings := by
  simp only [PmemOps.lowerMappings]
  split
  · split <;> rfl
  · rfl

/-- The request removes its range from the mappings. -/
theorem removeMapping_mappings (base size : Nat) (pmem : PmemOps) :
    (pmem.removeMapping base size).pmemMappings =
      removeRegionMapping (PmemSt.range base size) pmem.pmemMappings := by
  have raise (region : PmemSt) (state : PmemOps) :
      (state.raiseMappings region).pmemMappings = state.pmemMappings := by
    simp only [PmemOps.raiseMappings]
    split
    · split <;> rfl
    · rfl
  simp only [PmemOps.removeMapping]
  rw [raise, lowerMappings_mappings]

/-! ## Requests and runs -/

/-- A request to register or remove a mapping whose range can be widened by a byte on
either side. -/
def MappingRequest : ClientRequest → Prop
  | .access (.registerMapping base size) | .removeMapping base size =>
      (PmemSt.range base size).Inner
  | _ => False

instance : DecidablePred MappingRequest
  | .access (.registerMapping base size) | .removeMapping base size =>
      inferInstanceAs (Decidable (PmemSt.range base size).Inner)
  | .access (.store _ _ _ _ _) | .access (.flush _ _ _) | .access .fence
  | .access (.orderGuarantee _ _ _ _) | .access (.fenceMark _) | .access .epochBegin
  | .access (.epochEnd _) | .access (.newStrand _ _) | .enterBlock | .checkIsPmemMapping _ _
  | .writeStats | .setClean _ _ | .startTx _ _ _ | .endTx _ _ _ | .addToTx _ _ _ _ _
  | .removeFromTx _ _ _ _ | .addThreadToTx _ _ | .removeThreadFromTx _ _
  | .addToGlobalTxIgnore _ _ => .isFalse id

/-- The registered bytes after a request: a registration adds the bytes of its range and a
removal takes them away. No other request changes what is registered. -/
def registeredStep (registered : Nat → Prop) : ClientRequest → Nat → Prop
  | .access (.registerMapping base size) => fun byte =>
      (PmemSt.range base size).Covers byte ∨ registered byte
  | .removeMapping base size => fun byte =>
      registered byte ∧ ¬ (PmemSt.range base size).Covers byte
  | _ => registered

/-- The mappings are disjoint, non-adjacent, nonempty intervals that hold exactly the
registered bytes, with no failed insertion. -/
structure MapsExactly (tool : Tool) (registered : Nat → Prop) : Prop where
  regions : RegionSet tool.pmem.pmemMappings.toList
  bytes : ∀ byte, Tracks tool.pmem.pmemMappings.toList byte ↔ registered byte
  noDuplicate : tool.pmem.pmemMappings.duplicate = false

/-- A registration adds its bytes to the mappings, a removal takes them off, and a check leaves
them. -/
theorem respond_mapsExactly {tool : Tool} {registered : Nat → Prop} {request : ClientRequest}
    (maps : MapsExactly tool registered) (allowed : MappingRequest request) :
    MapsExactly (tool.respond request) (registeredStep registered request) := by
  cases request with
  | access request =>
    cases request with
    | registerMapping base size =>
      obtain ⟨regions, bytes, flag⟩ := addRegion_exact maps.regions allowed
      refine ⟨regions, fun byte => ?_, flag.trans maps.noDuplicate⟩
      exact (bytes byte).trans (or_congr_right (maps.bytes byte))
    | _ => exact allowed.elim
  | removeMapping base size =>
    obtain ⟨regions, bytes, flag⟩ := removeRegionMapping_exact maps.regions
      (PmemSt.Inner.proper allowed)
    have same := removeMapping_mappings base size tool.pmem
    have listed : (tool.respond (.removeMapping base size)).pmem.pmemMappings =
        removeRegionMapping (PmemSt.range base size) tool.pmem.pmemMappings := same
    rw [← listed] at regions bytes flag
    refine ⟨regions, fun byte => ?_, flag.trans maps.noDuplicate⟩
    exact (bytes byte).trans (and_congr_left' (maps.bytes byte))
  | _ => exact allowed.elim

/-- The three answers to a range: 0 without a registered byte, 1 with nothing else, 2
for a mixture. -/
structure AnswersExactly (tool : Tool) (registered : Nat → Prop) (base size : Nat) : Prop where
  outside : (tool.handleClientRequest (.checkIsPmemMapping base size)).1 = some 0 ↔
    ∀ byte, (PmemSt.range base size).Covers byte → ¬ registered byte
  inside : (tool.handleClientRequest (.checkIsPmemMapping base size)).1 = some 1 ↔
    ∀ byte, (PmemSt.range base size).Covers byte → registered byte
  across : (tool.handleClientRequest (.checkIsPmemMapping base size)).1 = some 2 ↔
    (∃ byte, (PmemSt.range base size).Covers byte ∧ registered byte) ∧
      ∃ byte, (PmemSt.range base size).Covers byte ∧ ¬ registered byte

/-- A check looks its range up and compares it with the mapping found, which is enough since
mappings neither share bytes nor touch. -/
theorem MapsExactly.answers {tool : Tool} {registered : Nat → Prop}
    (maps : MapsExactly tool registered) {base size : Nat}
    (proper : (PmemSt.range base size).Proper) : AnswersExactly tool registered base size := by
  have zero := isInMappingSet_eq_zero_iff maps.regions proper
  have one := isInMappingSet_eq_one_iff maps.regions proper
  simp only [maps.bytes] at zero one
  have three : isInMappingSet (PmemSt.range base size) tool.pmem.pmemMappings = 0 ∨
      isInMappingSet (PmemSt.range base size) tool.pmem.pmemMappings = 1 ∨
      isInMappingSet (PmemSt.range base size) tool.pmem.pmemMappings = 2 := by
    simp only [isInMappingSet]
    split
    · simp
    · simp only [checkOverlap]
      split
      · simp
      · split <;> simp
  refine ⟨?_, ?_, ?_⟩
  · simpa [Tool.handleClientRequest] using zero
  · simpa [Tool.handleClientRequest] using one
  · simp only [Tool.handleClientRequest, Option.some.injEq]
    constructor
    · intro two
      have notZero := mt zero.mpr (by omega)
      have notOne := mt one.mpr (by omega)
      push Not at notZero notOne
      exact ⟨notZero, notOne⟩
    · rintro ⟨⟨some, someInside, someRegistered⟩, other, otherInside, notRegistered⟩
      rcases three with isZero | isOne | isTwo
      · exact absurd someRegistered (zero.mp isZero some someInside)
      · exact absurd (one.mp isOne other otherInside) notRegistered
      · exact isTwo

section

variable (opts : Options) (transactionsOnly redundantLogging : Bool) (cacheLineSize : Nat)
  (slots : Nat → PmemSt)

/-- After every sequence of registrations and removals, the mappings are a region set with
exactly the bytes added and not removed since, and every check of a range answers for those
bytes.

Proof: simulation by the set of registered bytes. A registration absorbs the regions that the
new one meets or touches, a removal cuts the one region after the other that it meets, and
either way what is left is a region set. The answers are read off a region set. -/
theorem mappings_exact (requests : List ClientRequest)
    (allowed : ∀ request ∈ requests, MappingRequest request) :
    MapsExactly (requests.foldl Tool.respond
        (initTool opts transactionsOnly redundantLogging cacheLineSize slots))
        (requests.foldl registeredStep (fun _ => False)) ∧
      ∀ base size, (PmemSt.range base size).Proper →
        AnswersExactly (requests.foldl Tool.respond
          (initTool opts transactionsOnly redundantLogging cacheLineSize slots))
          (requests.foldl registeredStep (fun _ => False)) base size := by
  have initial : MapsExactly (initTool opts transactionsOnly redundantLogging cacheLineSize slots)
      (fun _ => False) := by
    refine ⟨regionSet_nil, fun byte => ?_, rfl⟩
    simp [initTool, initPmem]
  have final : MapsExactly (requests.foldl Tool.respond
      (initTool opts transactionsOnly redundantLogging cacheLineSize slots))
      (requests.foldl registeredStep (fun _ => False)) := by
    refine Runs.simulation ?_ _ _ requests initial (Runs.allSteps_of_forall _ allowed)
    exact fun tool registered request maps isAllowed => respond_mapsExactly maps isAllowed
  exact ⟨final, fun base size proper => final.answers proper⟩

end

/-- A mapping with a hole, closed again, and a check of a range around it. -/
theorem mappings_exact_hole :
    let start := initTool (defaultOptions (fun _ => false)) false false 64 (fun _ => PmemSt.zero)
    let requests : List ClientRequest := [.access (.registerMapping 100 100),
      .removeMapping 120 10, .access (.registerMapping 200 50)]
    ((requests.foldl Tool.respond start).handleClientRequest (.checkIsPmemMapping 110 30)).1 =
        some 2 ∧
      MapsExactly (requests.foldl Tool.respond start)
        (requests.foldl registeredStep (fun _ => False)) := by
  refine ⟨by decide +kernel, ?_⟩
  exact (mappings_exact _ false false 64 _ _ (by decide)).1

end PmDebugger
