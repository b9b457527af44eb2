import PmDebugger.LiveFence
import PmDebugger.Mappings

/-!
# The bounds of the mappings

`is_pmem_access` asks the set of mappings only for an access that reaches into their
bounds. A registration widens the bounds; a removal reads them again from the set if it
starts where they start, or ends where they end, and leaves them as they are otherwise.
So they may be wider than the mappings, but they always enclose them, and an access
outside of them has no registered byte.
-/

namespace PmDebugger

open OrderedSet OrderedSet.OSet PmemOps

/-- The bounds enclose the mappings. They may be wider than necessary, since a removal only
reads them again from the set where it touches one of them. -/
def MappingsBounded (pmem : PmemOps) : Prop :=
  ∀ mapping ∈ pmem.pmemMappings.toList,
    pmem.minAddPmemMappings ≤ mapping.addr ∧
      mapping.addr + mapping.size ≤ pmem.maxAddPmemMappings

/-- Bounds that hold for all bytes of a mapping hold for the mapping. -/
theorem encloses_of_bytes {mapping : PmemSt} {low high : Nat} (proper : mapping.Proper)
    (bytes : ∀ byte, mapping.Covers byte → low ≤ byte ∧ byte < high) :
    low ≤ mapping.addr ∧ mapping.addr + mapping.size ≤ high := by
  have size := proper.nonempty
  have first := bytes mapping.addr ⟨Nat.le_refl _, by omega⟩
  have last := bytes (mapping.addr + mapping.size - 1) ⟨by omega, by omega⟩
  omega

/-- Registering a mapping widens the bounds enough. -/
theorem registerMapping_bounded {tool : Tool} (regions : RegionSet tool.pmem.pmemMappings.toList)
    (bounded : MappingsBounded tool.pmem) {base size : Nat}
      (inner : (PmemSt.range base size).Inner) :
    MappingsBounded (tool.registerMapping base size).pmem := by
  obtain ⟨newRegions, bytes, _⟩ := addRegion_exact regions inner
  intro mapping member
  refine encloses_of_bytes (newRegions.inner mapping member).proper (fun byte covered => ?_)
  show (widen (PmemSt.range base size) _ _).1 ≤ byte ∧ byte < (widen (PmemSt.range base size) _ _).2
  rcases (bytes byte).mp ⟨mapping, member, covered⟩ with inRange | ⟨old, isOld, inOld⟩
  · have around := widen_encloses inner.proper tool.pmem.minAddPmemMappings
      tool.pmem.maxAddPmemMappings
    unfold PmemSt.Covers at inRange
    omega
  · have around := widen_keeps inner.proper (regions.inner old isOld).proper (bounded old isOld)
    unfold PmemSt.Covers at inOld
    omega

/-- Reading the lower bound again from the set keeps the mappings enclosed. -/
theorem lowerMappings_bounded {pmem : PmemOps} (regions : RegionSet pmem.pmemMappings.toList)
    (bounded : MappingsBounded pmem) (region : PmemSt) :
    MappingsBounded (pmem.lowerMappings region) := by
  simp only [lowerMappings]
  split
  · cases listed : pmem.pmemMappings.toList with
    | nil =>
      simp only [List.head?_nil]
      intro mapping member
      rw [listed] at member
      cases member
    | cons first rest =>
      simp only [List.head?_cons]
      intro mapping member
      have upper := (bounded mapping member).2
      rw [listed] at regions member
      refine ⟨?_, upper⟩
      rcases List.mem_cons.mp member with rfl | later
      · exact Nat.le_refl _
      · have apart := (List.pairwise_cons.mp regions.apart).1 mapping later
        show first.addr ≤ mapping.addr
        omega
  · exact bounded

/-- So does reading the upper bound again. -/
theorem raiseMappings_bounded {pmem : PmemOps} (regions : RegionSet pmem.pmemMappings.toList)
    (bounded : MappingsBounded pmem) (region : PmemSt) :
    MappingsBounded (pmem.raiseMappings region) := by
  simp only [raiseMappings]
  split
  · cases found : pmem.pmemMappings.toList.getLast? with
    | none =>
      simp only
      intro mapping member
      rw [List.getLast?_eq_none_iff.mp found] at member
      cases member
    | some last =>
      simp only
      obtain ⟨before, listed⟩ := List.getLast?_eq_some_iff.mp found
      intro mapping member
      have lower := (bounded mapping member).1
      rw [listed] at regions member
      refine ⟨lower, ?_⟩
      show mapping.addr + mapping.size ≤ last.maxAddr
      rw [(regions.inner last (by simp)).proper.nonWrapping.maxAddr_eq]
      rcases List.mem_append.mp member with early | isLast
      · have apart := (List.pairwise_append.mp regions.apart).2.2 mapping early last (by simp)
        omega
      · rw [List.mem_singleton.mp isLast]
  · exact bounded

/-- Removing a mapping keeps the others enclosed. -/
theorem removeMapping_bounded {pmem : PmemOps} (regions : RegionSet pmem.pmemMappings.toList)
    (bounded : MappingsBounded pmem) {base size : Nat} (proper : (PmemSt.range base size).Proper) :
    MappingsBounded (pmem.removeMapping base size) := by
  obtain ⟨newRegions, bytes, _⟩ := removeRegionMapping_exact regions proper
  simp only [removeMapping]
  have removed : MappingsBounded { pmem with
      pmemMappings := removeRegionMapping (PmemSt.range base size) pmem.pmemMappings } := by
    intro mapping member
    refine encloses_of_bytes (newRegions.inner mapping member).proper (fun byte covered => ?_)
    obtain ⟨⟨old, isOld, inOld⟩, _⟩ := (bytes byte).mp ⟨mapping, member, covered⟩
    have around := bounded old isOld
    unfold PmemSt.Covers at inOld
    show pmem.minAddPmemMappings ≤ byte ∧ byte < pmem.maxAddPmemMappings
    omega
  have lowered := lowerMappings_bounded newRegions removed (PmemSt.range base size)
  apply raiseMappings_bounded _ lowered
  rw [lowerMappings_mappings]
  exact newRegions

/-- Between enclosing bounds `is_pmem_access` answers for the bytes of the mappings. -/
theorem isPmemAccess_iff {pmem : PmemOps} (regions : RegionSet pmem.pmemMappings.toList)
    (bounded : MappingsBounded pmem) {addr size : Nat} (proper : (PmemSt.range addr size).Proper) :
    pmem.isPmemAccess addr size = true ↔
      ∃ byte, (PmemSt.range addr size).Covers byte ∧ Tracks pmem.pmemMappings.toList byte := by
  have lookup : pmem.pmemMappings.contains (cmpPmemSt (PmemSt.range addr size)) = true ↔
      ∃ byte, (PmemSt.range addr size).Covers byte ∧ Tracks pmem.pmemMappings.toList byte := by
    rw [contains, Option.isSome_iff_ne_none, ne_eq, regions.lookup_none_iff proper]
    push Not
    rfl
  simp only [isPmemAccess]
  split
  · next filtered =>
    refine ⟨fun impossible => Bool.noConfusion impossible, ?_⟩
    rintro ⟨byte, inside, mapping, member, covered⟩
    have around := bounded mapping member
    have ends : Word64.add addr size = addr + size := proper.nonWrapping.maxAddr_eq
    rw [ends] at filtered
    unfold PmemSt.Covers at inside covered
    rw [PmemSt.range_addr, PmemSt.range_size] at inside
    omega
  · exact lookup

section

variable (opts : Options) (transactionsOnly redundantLogging : Bool) (cacheLineSize : Nat)
  (slots : Nat → PmemSt)

/-- After every sequence of registrations and removals `is_pmem_access` accepts exactly the
accesses with a registered byte.

Proof: simulation by the set of registered bytes, with the two bounds as part of the relation:
they enclose every mapping. A removal moves a bound only where the removed range ends at it,
and then to what is left, so that the bounds may be too wide and never too narrow. An access
outside the bounds meets no mapping then, and one inside is looked up. -/
theorem isPmemAccess_exact (requests : List ClientRequest)
    (allowed : ∀ request ∈ requests, MappingRequest request) {addr size : Nat}
    (proper : (PmemSt.range addr size).Proper) :
    (requests.foldl Tool.respond
        (initTool opts transactionsOnly redundantLogging cacheLineSize slots)).pmem.isPmemAccess
        addr size = true ↔
      ∃ byte, (PmemSt.range addr size).Covers byte ∧
        requests.foldl registeredStep (fun _ => False) byte := by
  let related (tool : Tool) (registered : Nat → Prop) :=
    MapsExactly tool registered ∧ MappingsBounded tool.pmem
  have kept (tool : Tool) (registered : Nat → Prop) (request : ClientRequest)
      (before : related tool registered) (isAllowed : MappingRequest request) :
      related (tool.respond request) (registeredStep registered request) := by
    refine ⟨respond_mapsExactly before.1 isAllowed, ?_⟩
    cases request with
    | access request =>
      cases request with
      | registerMapping base size =>
        exact registerMapping_bounded before.1.regions before.2 isAllowed
      | _ => exact isAllowed.elim
    | removeMapping base size =>
      exact removeMapping_bounded before.1.regions before.2 (PmemSt.Inner.proper isAllowed)
    | _ => exact isAllowed.elim
  have initial : related (initTool opts transactionsOnly redundantLogging cacheLineSize slots)
      (fun _ => False) := by
    refine ⟨⟨regionSet_nil, fun byte => ?_, rfl⟩, fun mapping member => ?_⟩
    · simp [initTool, initPmem]
    · simp [initTool, initPmem] at member
  obtain ⟨maps, bounded⟩ := Runs.simulation kept _ _ requests initial
    (Runs.allSteps_of_forall _ allowed)
  rw [isPmemAccess_iff maps.regions bounded proper]
  simp only [maps.bytes]

end

/-- The last mapping is removed across the bounds, which stay where they were, and the
next one widens them; then both ends are cut off. -/
theorem isPmemAccess_exact_stale_bounds :
    let start := initTool (defaultOptions (fun _ => false)) false false 64 (fun _ => PmemSt.zero)
    let requests : List ClientRequest := [.access (.registerMapping 100 100), .removeMapping 90 120,
      .access (.registerMapping 300 100), .removeMapping 100 250, .removeMapping 390 10]
    (requests.foldl Tool.respond start).pmem.isPmemAccess 340 11 = true ∧
      ((requests.foldl Tool.respond start).pmem.isPmemAccess 390 20 = true ↔
        ∃ byte, (PmemSt.range 390 20).Covers byte ∧
          requests.foldl registeredStep (fun _ => False) byte) := by
  refine ⟨by decide +kernel, ?_⟩
  exact isPmemAccess_exact _ false false 64 _ _ (by decide) ⟨by decide, by decide⟩

end PmDebugger
