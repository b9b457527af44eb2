import PmDebugger.ClientPrograms
import PmDebugger.Library.CircularMemory

/-!
# Memory replayed from the reports

A call of `trace_pmem_store` carries an address, a size and a value. Whoever notes the calls can
write the values to a memory of his own, and has the memory of the client again: when the calls of a
program are replayed over the memory with which it started, they lead to the memory with which it
ends. The pieces of a vector carry its lanes, and a value that was widened carries its own bytes
first.

A constant of 64 bits goes through an unsigned integer of 32 bits in `widen_const`, so it is carried
only when it is smaller than that. Memory that the client changes without a store is not reported.
-/

namespace PmDebugger

open Vex LittleEndian CircularMemory

/-- The worlds of the machine hold a memory of bytes, and only stores change it. -/
structure HoldsBytes {World : Type} (bits : Nat) (machine : Machine World)
    (bytes : World → Nat → Nat) : Prop where
  write : ∀ world addr size value,
    bytes (machine.write world addr size value) = overwrite bits addr size value (bytes world)
  act : ∀ code reads world, bytes (machine.act code reads world).2 = bytes world

/-- A write of the machine is a write to the copy. -/
theorem HoldsBytes.put {World : Type} {bits : Nat} {machine : Machine World}
    {bytes : World → Nat → Nat} (holds : HoldsBytes bits machine bytes) (addr size result : Nat)
    (state : State World) :
    bytes (machine.put addr size result state).world =
      overwrite bits addr size result (bytes state.world) :=
  holds.write state.world addr size result

/-- Write what a call of `trace_pmem_store` reports: the bytes of the value, lowest first, at
addresses that wrap around with the word of the machine. -/
def StoreCall.replay (bits : Nat) (memory : Nat → Nat) (call : StoreCall) : Nat → Nat :=
  overwrite bits call.addr call.size call.value memory

/-- Write what a call reports, if it reports a store. Flushes, fences and the count of entered
blocks leave the bytes as they are. -/
def replayCall (bits : Nat) (memory : Nat → Nat) : HelperCall → Nat → Nat
  | (.tracePmemStore, [addr, size, value]) => StoreCall.replay bits memory ⟨addr, size, value⟩
  | _ => memory

/-- The memory after calls, replayed from the first to the last. -/
def replay (bits : Nat) (memory : Nat → Nat) (calls : List HelperCall) : Nat → Nat :=
  calls.foldl (replayCall bits) memory

/-- Calls are replayed one after the other. -/
theorem replay_append (bits : Nat) (memory : Nat → Nat) (early late : List HelperCall) :
    replay bits memory (early ++ late) = replay bits (replay bits memory early) late :=
  List.foldl_append

/-- Calls for stores are replayed by what they store. -/
theorem replay_helper (bits : Nat) (memory : Nat → Nat) (calls : List StoreCall) :
    replay bits memory (calls.map StoreCall.helper) =
      calls.foldl (StoreCall.replay bits) memory := by
  rw [replay, List.foldl_map]
  rfl

/-! ## Values -/

/-- The block `after` has more statements than `sb`. When the guard holds, the calls that they make
carry the bytes of a value of that size. -/
def QuotesWrite (bits : Nat) (sb after : IRSB ToolCall) (daddr : IRAtom) (size : Nat)
    (guard : Option IRAtom) (value : IRAtom) : Prop :=
  ∃ added, Extends sb after added ∧
    ∀ (World : Type) (machine : Machine World) (tyenv : List IRType) (state : State World),
      daddr.InScope sb.tyenv.length → (guardAtom guard).InScope sb.tyenv.length →
      ∃ calls : List StoreCall,
        (∀ memory, calls.foldl (StoreCall.replay bits) memory =
          overwrite bits (state.value daddr) size (state.value value) memory) ∧
        machine.Emits tyenv sb.tyenv.length added state (guardedEvents state guard calls)

/-- A constant that `widen_const` passes on whole. A constant of 64 bits is cast to 32 there,
so only its lower half survives. -/
def narrowConst : IRAtom → Bool
  | .const (.u64 value) => decide (value.toNat < 2 ^ 32)
  | _ => true

section Values

variable {word : IRType} {sb : IRSB ToolCall} {daddr value : IRAtom} {guard : Option IRAtom}
variable {bits : Nat}

/-- A value that is passed as it is, or as another one with the same value. -/
theorem quotesWrite_direct {dsize : Nat} (fits : dsize < 2 ^ 32) {wide : IRAtom}
    (same : ∀ (World : Type) (state : State World), state.value wide = state.value value) :
    QuotesWrite bits sb (addStmtToIRSB sb (traceStore word daddr dsize guard wide)) daddr dsize
      guard value := by
  apply Exists.intro [traceStore word daddr dsize guard wide]
  constructor
  · exact Extends.addStmt sb _
  · intro World machine tyenv state daddrScope guardScope
    apply Exists.intro [⟨state.value daddr, dsize, state.value wide⟩]
    constructor
    · intro memory
      rw [same]
      rfl
    · exact traceStore_emits machine tyenv state _ fits wide

/-- A value that is converted to a word of 64 bits first, and keeps its lowest bytes. -/
theorem quotesWrite_converted {dsize : Nat} (fits : dsize < 2 ^ 32) {op : IROp}
    (wide : op.type = .i64) (lowest : ∀ value, op.unary value = some (slice value 0 dsize)) :
    ∃ after, (do
        let (converted, sb) ← makeExpr sb .i64 (.unop op value)
        some (addStmtToIRSB sb (traceStore word daddr dsize guard converted))) = some after ∧
      QuotesWrite bits sb after daddr dsize guard value := by
  have typed : typeOfIRExpr sb.tyenv (.unop op value) = some .i64 := by
    simp only [typeOfIRExpr, wide]
  simp only [makeExpr_eq typed, Option.bind_eq_bind, Option.bind_some]
  constructor
  constructor
  · rfl
  · apply Exists.intro [.wrTmp sb.tyenv.length (.unop op value),
      traceStore word daddr dsize guard (.rdTmp sb.tyenv.length)]
    constructor
    · constructor
      · simp [addStmtToIRSB]
      · exact List.prefix_append sb.tyenv [.i64]
    · intro World machine tyenv state daddrScope guardScope
      have evaluated : machine.eval state (.unop op value) =
          some (slice (state.value value) 0 dsize) := lowest (state.value value)
      have agree : Agree sb.tyenv.length state
          (state.assign sb.tyenv.length (slice (state.value value) 0 dsize)) :=
        (Agree.refl _ state).assign_later (Nat.le_refl _) _
      apply Exists.intro [⟨state.value daddr, dsize, slice (state.value value) 0 dsize⟩]
      constructor
      · intro memory
        exact overwrite_slice (state.value value)
      · apply Machine.Emits.assign (Nat.le_refl _) evaluated
        have emitted : machine.Emits tyenv _ [traceStore word daddr dsize guard _] _ _ :=
          traceStore_emits machine tyenv
            (state.assign sb.tyenv.length (slice (state.value value) 0 dsize)) sb.tyenv.length fits
            (.rdTmp sb.tyenv.length)
        simp only [agree.value daddrScope, guardedEvents_agree agree guardScope] at emitted
        simpa only [State.assign_value_self] using emitted

/-- An integer constant that is small enough. -/
theorem addEventDwGuarded_quotesConst {con : IRConst} {width : IntWidth}
    (typed : con.type = width.type) (narrow : narrowConst (.const con) = true) (daddr : IRAtom)
    (guard : Option IRAtom) (sb : IRSB ToolCall) :
    ∃ after, addEventDwGuarded word sb daddr width.size guard (.const con) = some after ∧
      QuotesWrite bits sb after daddr width.size guard (.const con) := by
  have bound : 1 ≤ width.size ∧ width.size ≤ maxDsize := by cases width <;> decide
  have fits : width.size < 2 ^ 32 := by cases width <;> decide
  have widened : constNeedsWiden con = true ∧
      ∃ value, con.value = value ∧ value < 2 ^ 32 ∧
        widenConst word con = some (mkIRExprHWord word value) := by
    cases con with
    | u8 value | u16 value | u32 value =>
        exact ⟨rfl, _, rfl, by simp only [IRConst.value]; omega, rfl⟩
    | u64 value =>
        have small : value.toNat < 2 ^ 32 := of_decide_eq_true narrow
        refine ⟨rfl, _, rfl, small, ?_⟩
        simp only [widenConst, IRConst.value, Nat.mod_eq_of_lt small]
    | u1 _ | f32 _ | f64 _ | v128 _ | v256 _ =>
        cases width <;> simp [IRConst.type, IntWidth.type] at typed
  obtain ⟨needed, value, isValue, small, isWide⟩ := widened
  apply Exists.intro
    (addStmtToIRSB sb (traceStore word daddr width.size guard (mkIRExprHWord word value)))
  constructor
  · simp [addEventDwGuarded, bound, typeOfIRAtom, needed, isWide]
  · apply quotesWrite_direct fits
    intro World state
    rw [mkIRExprHWord_value state small]
    exact isValue.symm

/-- A temporary that is converted to a word of 64 bits. -/
theorem addEventDwGuarded_quotesConverted {tmp size : Nat} {type : IRType} (op : IROp)
    (member : (type, op) ∈ conversions) (sized : sizeofIRType type = some size)
    (typed : sb.tyenv[tmp]? = some type) (daddr : IRAtom) (guard : Option IRAtom) :
    ∃ after, addEventDwGuarded word sb daddr size guard (.rdTmp tmp) = some after ∧
      QuotesWrite bits sb after daddr size guard (.rdTmp tmp) := by
  simp only [conversions, List.mem_cons, Prod.mk.injEq, List.not_mem_nil, or_false] at member
  have branch : addEventDwGuarded word sb daddr size guard (.rdTmp tmp) = (do
      let (converted, sb) ← makeExpr sb .i64 (.unop op (.rdTmp tmp))
      some (addStmtToIRSB sb (traceStore word daddr size guard converted))) := by
    rcases member with ⟨rfl, rfl⟩ | ⟨rfl, rfl⟩ | ⟨rfl, rfl⟩ | ⟨rfl, rfl⟩ <;>
      cases Option.some.inj sized <;>
      simp [addEventDwGuarded, maxDsize, typeOfIRAtom, typed, tmpNeedsWiden, widenOperation]
  rw [branch]
  rcases member with ⟨rfl, rfl⟩ | ⟨rfl, rfl⟩ | ⟨rfl, rfl⟩ | ⟨rfl, rfl⟩ <;>
    cases Option.some.inj sized <;>
    exact quotesWrite_converted (by decide) rfl (fun value => by simp [IROp.unary, slice])

/-- A value of an integer type. -/
theorem addEventDwGuarded_quotesWidth {width : IntWidth}
    (typed : typeOfIRAtom sb.tyenv value = some width.type) (narrow : narrowConst value = true)
    (daddr : IRAtom) (guard : Option IRAtom) :
    ∃ after, addEventDwGuarded word sb daddr width.size guard value = some after ∧
      QuotesWrite bits sb after daddr width.size guard value := by
  cases value with
  | const con => exact addEventDwGuarded_quotesConst (Option.some.inj typed) narrow daddr guard sb
  | rdTmp tmp =>
      cases width with
      | w8 => exact addEventDwGuarded_quotesConverted .u8to64 (by decide) rfl typed daddr guard
      | w16 => exact addEventDwGuarded_quotesConverted .u16to64 (by decide) rfl typed daddr guard
      | w32 => exact addEventDwGuarded_quotesConverted .u32to64 (by decide) rfl typed daddr guard
      | w64 =>
          have isWord : sb.tyenv[tmp]? = some .i64 := typed
          apply Exists.intro (addStmtToIRSB sb (traceStore word daddr 8 guard (.rdTmp tmp)))
          constructor
          · simp [addEventDwGuarded, typeOfIRAtom, isWord, maxDsize, IntWidth.size]
          · exact quotesWrite_direct (by decide) (fun _ _ => rfl)

/-- The parts of a vector carry its lanes. -/
theorem partCall_replays {type : IRType} {size : Nat} (vector : type = .v128 ∨ type = .v256)
    (sized : sizeofIRType type = some size) (tyAddr : IRType) (addr data : Nat)
    (memory : Nat → Nat) :
    ((wideParts type .le).map (partCall tyAddr (size / (wideParts type .le).length) addr
        data)).foldl (StoreCall.replay (wordBits tyAddr)) memory =
      overwrite (wordBits tyAddr) addr size data memory := by
  have room : 32 ≤ 2 ^ wordBits tyAddr := by
    simp only [wordBits]
    split <;> decide
  have lanes (count : Nat) (few : 8 * count ≤ 32) :
      ((List.range count).map (fun index => StoreCall.mk ((addr + 8 * index) % 2 ^ wordBits tyAddr)
        8 (slice data (8 * index) 8))).foldl (StoreCall.replay (wordBits tyAddr)) memory =
        overwrite (wordBits tyAddr) addr (8 * count) data memory := by
    rw [List.foldl_map]
    simp only [StoreCall.replay, overwrite_mod]
    exact overwrite_pieces count (by omega)
  rcases vector with rfl | rfl <;> cases Option.some.inj sized
  · simpa [wideParts, partCall, IROp.unary, slice, List.range_succ] using lanes 2 (by omega)
  · have last : ((3 : Fin 4) : Nat) = 3 := rfl
    simpa [wideParts, partCall, IROp.unary, slice, List.range_succ, last] using lanes 4 (by omega)

/-- A temporary that is a vector. -/
theorem addEventDwGuarded_quotesVector {tmp size : Nat} {type : IRType}
    (isWord : word = .i32 ∨ word = .i64) (vector : type = .v128 ∨ type = .v256)
    (typed : sb.tyenv[tmp]? = some type) (sized : sizeofIRType type = some size)
    (isAddr : typeOfIRAtom sb.tyenv daddr = some word)
    (guardScope : (guardAtom guard).InScope sb.tyenv.length) :
    ∃ after, addEventDwGuarded word sb daddr size guard (.rdTmp tmp) = some after ∧
      QuotesWrite (wordBits word) sb after daddr size guard (.rdTmp tmp) := by
  have bound : 1 ≤ size ∧ size ≤ maxDsize := by
    rcases vector with rfl | rfl <;> cases Option.some.inj sized <;> decide
  have small : size / (wideParts type .le).length < 2 ^ 32 :=
    Nat.lt_of_le_of_lt (Nat.div_le_self _ _) (Nat.lt_of_le_of_lt bound.2 (by decide))
  have dataTyped : typeOfIRAtom sb.tyenv (.rdTmp tmp) = some type := typed
  obtain ⟨after, added, folded, extended, _, emits⟩ := wideParts_emits word isWord small
    (inScope_of_type isAddr) (inScope_of_type dataTyped) guardScope (wideParts type .le)
    (fun part member => isPart_wideParts member) sb (Nat.le_refl _)
  apply Exists.intro after
  constructor
  · have handled : handleWideExpr word sb .le daddr (.rdTmp tmp) guard size = some after := by
      simpa [handleWideExpr, isAddr, isWord, dataTyped] using folded
    rcases vector with rfl | rfl <;>
      simp [addEventDwGuarded, bound, typeOfIRAtom, typed, tmpNeedsWiden, handled]
  · apply Exists.intro added
    apply And.intro extended
    intro World machine tyenv state daddrScope _
    exact ⟨_, partCall_replays vector sized word _ _, emits World machine tyenv state⟩

/-- Every value that can be reported is carried, if it is no large constant. -/
theorem addEventDwGuarded_quotes {size : Nat} (isWord : word = .i32 ∨ word = .i64)
    (storable : Storable sb.tyenv value) (narrow : narrowConst value = true)
    (sized : (typeOfIRAtom sb.tyenv value).bind sizeofIRType = some size)
    (isAddr : typeOfIRAtom sb.tyenv daddr = some word)
    (guardScope : (guardAtom guard).InScope sb.tyenv.length) :
    ∃ after, addEventDwGuarded word sb daddr size guard value = some after ∧
      QuotesWrite (wordBits word) sb after daddr size guard value := by
  rcases storable_cases storable with ⟨width, typed⟩ | ⟨tmp, rfl, floating | ⟨type, vector, typed⟩⟩
  · simp only [typed, Option.bind_some, IntWidth.sizeof_type] at sized
    cases Option.some.inj sized
    exact addEventDwGuarded_quotesWidth typed narrow daddr guard
  · simp only [typeOfIRAtom, floating, Option.bind_some] at sized
    exact addEventDwGuarded_quotesConverted .reinterpF64asI64 (by decide) sized floating daddr guard
  · simp only [typeOfIRAtom, typed, Option.bind_some] at sized
    exact addEventDwGuarded_quotesVector isWord vector typed sized isAddr guardScope

end Values

/-! ## Statements -/

/-- A statement whose value is carried. Everything but a write of a wide constant is, since
only constants go through `widen_const`. -/
def quotable : IRStmt ToolCall → Bool
  | .store _ data | .storeG _ data _ => narrowConst data
  | .cas details => narrowConst details.dataLo
  | _ => true

/-- In every execution of the statements, the calls lead from the memory at the start to the memory
at the end. -/
def Replays (bits : Nat) (tyenv : List IRType) (added : List (IRStmt ToolCall)) : Prop :=
  ∀ (World : Type) (machine : Machine World) (bytes : World → Nat → Nat),
    HoldsBytes bits machine bytes → ∀ (more : List IRType) (state : State World)
    (other : Outcome World ToolCall), machine.run (tyenv ++ more) added state = some other →
    bytes other.state.world = replay bits (bytes state.world) (helperCalls other.events)

section Statements

variable {bits : Nat} {tyenv : List IRType}

/-- No statement is replayed by no call. -/
theorem replays_nil : Replays bits tyenv [] := by
  intro World machine bytes holds more state other ran
  cases Option.some.inj ran
  rfl

/-- Statements after each other. -/
theorem Replays.append {early late : List (IRStmt ToolCall)} (first : Replays bits tyenv early)
    (second : Replays bits tyenv late) : Replays bits tyenv (early ++ late) := by
  intro World machine bytes holds more state other ran
  rw [Machine.run_append] at ran
  obtain ⟨middle, ranEarly, followed⟩ := Option.bind_eq_some_iff.mp ran
  have untilMiddle := first World machine bytes holds more state middle ranEarly
  split at followed
  · cases Option.some.inj followed
    exact untilMiddle
  · obtain ⟨last, ranLate, rfl⟩ := Option.map_eq_some_iff.mp followed
    rw [helperCalls_append, replay_append, ← untilMiddle]
    exact second World machine bytes holds more middle.state last ranLate

/-- A statement that neither writes nor reports. -/
theorem replays_quiet {st : IRStmt ToolCall} (quiet : hasEvents st = false) :
    Replays bits tyenv [st] := by
  intro World machine bytes holds more state other ran
  rw [Machine.run_singleton] at ran
  rw [exec_quiet quiet ran]
  cases st with
  | noOp | iMark _ _ | exit _ | flush _ _ | mbe _ =>
      cases Option.some.inj ran
      rfl
  | wrTmp tmp data =>
      obtain ⟨result, _, rfl⟩ := Option.map_eq_some_iff.mp ran
      rfl
  | plain kind reads dst code =>
      cases Option.some.inj ran
      exact holds.act _ _ _
  | store _ _ | storeG _ _ _ | cas _ | llsc _ _ _ | dirty _ _ _ => cases quiet

/-- A call of another helper. -/
theorem replays_call {call : ToolCall} (other : call ≠ .tracePmemStore) (args : List IRAtom) :
    Replays bits tyenv [unsafeIRDirty0N call args none] := by
  intro World machine bytes holds more state ending ran
  rw [Machine.run_singleton] at ran
  cases Option.some.inj ran
  cases call with
  | tracePmemStore => exact absurd rfl other
  | addOneSBEntered | tracePmemFlush | doFence => rfl

/-- What a statement writes, if it writes: so many bytes of a value, at the address of an atom,
on any machine whose memory is made of bytes. A statement that emits no event leaves the bytes
alone. -/
def PutsValue (bits : Nat) (tyenv : List IRType) (st : IRStmt ToolCall) (daddr : IRAtom)
    (size : Nat) (value : IRAtom) : Prop :=
  ∀ (World : Type) (machine : Machine World) (bytes : World → Nat → Nat),
    HoldsBytes bits machine bytes → ∀ (state : State World) (ending : Outcome World ToolCall),
    machine.exec tyenv state st = some ending →
    bytes ending.state.world = if ending.events = [] then bytes state.world
      else overwrite bits (ending.state.value daddr) size (ending.state.value value)
        (bytes state.world)

/-- A store puts its value at its address. -/
theorem store_putsValue {addr data : IRAtom} {size : Nat}
    (sized : Machine.sizeofAtom tyenv data = some size) :
    PutsValue bits tyenv (.store addr data) addr size data := by
  intro World machine bytes holds state ending executed
  simp only [Machine.exec, sized, Option.map_some, Option.some.injEq] at executed
  subst executed
  simp [holds.put]

/-- A guarded store does so where its guard holds. -/
theorem storeG_putsValue {addr data guard : IRAtom} {size : Nat}
    (sized : Machine.sizeofAtom tyenv data = some size) :
    PutsValue bits tyenv (.storeG addr data guard) addr size data := by
  intro World machine bytes holds state ending executed
  simp only [Machine.exec, sized, Option.map_some, Option.some.injEq] at executed
  subst executed
  split <;> simp [holds.put]

/-- A compare-and-swap of one word, which reads none of the temporaries that it assigns. -/
theorem cas_putsValue {details : IRCAS} {size : Nat}
    (named : (IRStmt.cas details : IRStmt ToolCall).WellScoped tyenv.length)
    (single : details.high = none)
    (sized : Machine.sizeofAtom tyenv details.dataLo = some size) :
    PutsValue bits tyenv (.cas details) details.addr size details.dataLo := by
  intro World machine bytes holds state ending executed
  have unread := named.once details.oldLo (by simp [IRStmt.assigns, IRCAS.assigns])
  simp only [IRStmt.reads, IRCAS.reads, List.mem_append, List.mem_cons, not_or] at unread
  simp only [Machine.exec, sized, Option.map_some, Option.some.injEq, Machine.execCas,
    single] at executed
  subst executed
  split
  · simp [holds.put, State.assign_value_other (Ne.symm unread.1.1),
      State.assign_value_other (Ne.symm unread.1.2.2.1)]
  · simp

/-- A statement that writes, the statements that compute its guard, and the calls that carry the
value: in every execution the calls lead to the memory at the end. -/
theorem WritesWhen.replays {word : IRType} {lead : List (IRStmt ToolCall)} {st : IRStmt ToolCall}
    {daddr value : IRAtom} {size : Nat} {guard : Option IRAtom}
    (writes : WritesWhen tyenv lead st daddr size guard) (typed : WellTyped word tyenv st)
    (puts : PutsValue bits tyenv st daddr size value) {sb after : IRSB ToolCall}
    (fits : tyenv <+: sb.tyenv) {valueType : IRType}
    (isAddr : typeOfIRAtom tyenv daddr = some word)
    (isValue : typeOfIRAtom tyenv value = some valueType)
    (guardScope : (guardAtom guard).InScope sb.tyenv.length)
    (quotes : QuotesWrite bits sb after daddr size guard value) :
    ∃ added, Extends sb after added ∧ Replays bits tyenv (lead ++ added) := by
  obtain ⟨added, extended, emits⟩ := quotes
  apply Exists.intro added
  apply And.intro extended
  intro World machine bytes holds more state other ran
  obtain ⟨ending, executed⟩ := exec_defined machine typed state
  obtain ⟨middle, ranLead, same, _, wrote⟩ :=
    writes World machine more state state ending (Agree.refl _ state) executed
  obtain ⟨calls, carried, last, ranAdded, kept⟩ :=
    emits World machine (tyenv ++ more) middle
      (inScope_of_type (typeOfIRAtom_mono fits isAddr)) guardScope
  simp only [Machine.run_append, ranLead, Option.bind_some, Bool.false_eq_true, if_false, ranAdded,
    Option.map_some, Option.some.injEq] at ran
  subst ran
  have written := puts World machine bytes holds state ending executed
  rw [← same.value (inScope_of_type isAddr), ← same.value (inScope_of_type isValue),
    wrote] at written
  simp only [kept.world, same.world, written, wrote, guardedEvents]
  split
  · have told : helperCalls ([.wrote [(middle.value daddr, size)]] ++ calls.map StoreCall.event) =
        calls.map StoreCall.helper := by
      simp only [helperCalls, List.cons_append, List.nil_append, List.filterMap_cons,
        HelperCall.ofEvent, List.filterMap_map]
      exact congrFun List.filterMap_eq_map calls
    rw [told, replay_helper, carried]
    rfl
  · rfl

end Statements

/-! ## The main loop -/

section Loop

variable {opts : IsaOptions} {word : IRType} {stray : IRAtom → Nat → Option IRAtom}
variable {tyenv : List IRType} {sb : IRSB ToolCall}

/-- A store, with or without a guard, in the loop. -/
theorem store_replays {addr data : IRAtom} {guard : Option IRAtom} {st : IRStmt ToolCall}
    {type : IRType} {size : Nat} (isWord : word = .i32 ∨ word = .i64) (fits : tyenv <+: sb.tyenv)
    (typed : WellTyped word tyenv st) (isAddr : typeOfIRAtom tyenv addr = some word)
    (storable : Storable tyenv data) (narrow : narrowConst data = true)
    (dataTyped : typeOfIRAtom tyenv data = some type) (sized : sizeofIRType type = some size)
    (guardScope : (guardAtom guard).InScope sb.tyenv.length)
    (writes : WritesWhen tyenv [st] st addr size guard)
    (puts : PutsValue (wordBits word) tyenv st addr size data) :
    ∃ after added, addEventDwGuarded word (addStmtToIRSB sb st) addr size guard data = some after ∧
      Extends sb after added ∧ Replays (wordBits word) tyenv added := by
  have larger : tyenv <+: (addStmtToIRSB sb st).tyenv := fits
  have stillSized : (typeOfIRAtom (addStmtToIRSB sb st).tyenv data).bind sizeofIRType =
      some size := by
    rw [typeOfIRAtom_mono larger dataTyped]
    exact sized
  obtain ⟨after, built, quotes⟩ := addEventDwGuarded_quotes isWord (storable_mono larger storable)
    narrow stillSized (typeOfIRAtom_mono larger isAddr) guardScope
  obtain ⟨added, further, replays⟩ :=
    writes.replays typed puts larger isAddr dataTyped guardScope quotes
  exact ⟨after, _, built, (Extends.addStmt sb st).trans further, replays⟩

/-- A compare-and-swap of one word in the loop. -/
theorem cas_replays {details : IRCAS} {width : IntWidth} (fits : tyenv <+: sb.tyenv)
    (named : (IRStmt.cas details : IRStmt ToolCall).WellScoped tyenv.length)
    (typed : WellTyped word tyenv (.cas details)) (single : details.high = none)
    (narrow : narrowConst details.dataLo = true)
    (isAddr : typeOfIRAtom tyenv details.addr = some word)
    (expdTyped : typeOfIRAtom tyenv details.expdLo = some width.type)
    (dataTyped : typeOfIRAtom tyenv details.dataLo = some width.type) :
    ∃ after added, instrumentCas word stray tyenv sb details = some after ∧
      Extends sb after added ∧ Replays (wordBits word) tyenv added := by
  have sized : Machine.sizeofAtom tyenv details.dataLo = some width.size := by
    simp [Machine.sizeofAtom, dataTyped]
  have extended : Extends sb
      ⟨sb.tyenv ++ [.i1], sb.stmts ++ [.cas details] ++ [.wrTmp sb.tyenv.length
        (.binop (.casCmpEQ width) (some details.expdLo) (some (.rdTmp details.oldLo)))]⟩
      [.cas details, .wrTmp sb.tyenv.length
        (.binop (.casCmpEQ width) (some details.expdLo) (some (.rdTmp details.oldLo)))] :=
    ⟨by simp, List.prefix_append _ _⟩
  have larger := fits.trans extended.tyenv
  obtain ⟨after, built, quotes⟩ := addEventDwGuarded_quotesWidth
      (typeOfIRAtom_mono larger dataTyped) narrow details.addr (some (.rdTmp sb.tyenv.length))
  obtain ⟨added, further, replays⟩ :=
    (cas_writesWhen named single sized fits.length_le).replays typed
      (cas_putsValue named single sized) larger isAddr dataTyped (by simp [IRAtom.InScope]) quotes
  apply Exists.intro after
  refine ⟨_, ?_, extended.trans further, replays⟩
  simpa [instrumentCas, dataTyped, expdTyped, casWidth_type, single, makeExpr, typeOfIRExpr,
    IROp.type, newIRTemp, addStmtToIRSB] using built

/-- One turn of the loop for a statement whose value is carried. -/
theorem instrumentStmt_replays {st : IRStmt ToolCall} (isWord : word = .i32 ∨ word = .i64)
    (fits : tyenv <+: sb.tyenv) (named : st.WellScoped tyenv.length)
    (typed : WellTyped word tyenv st) (single : doubleWidth st = false)
    (quoted : quotable st = true) :
    ∃ after added, instrumentStmt opts word stray tyenv sb st = some after ∧
      Extends sb after added ∧ Replays (wordBits word) tyenv added := by
  have copied (quiet : hasEvents st = false) :
      Extends sb (addStmtToIRSB sb st) [st] ∧ Replays (wordBits word) tyenv [st] :=
    ⟨Extends.addStmt sb st, replays_quiet quiet⟩
  have called {after : IRSB ToolCall} {added : List (IRStmt ToolCall)}
      (soFar : Extends sb after added ∧ Replays (wordBits word) tyenv added) {call : ToolCall}
      (other : call ≠ .tracePmemStore) (args : List IRAtom) :
      Extends sb (addStmtToIRSB after (unsafeIRDirty0N call args none))
          (added ++ [unsafeIRDirty0N call args none]) ∧
        Replays (wordBits word) tyenv (added ++ [unsafeIRDirty0N call args none]) :=
    ⟨soFar.1.trans (Extends.addStmt after _), soFar.2.append (replays_call other args)⟩
  cases st with
  | noOp => exact ⟨sb, [], rfl, Extends.refl sb, replays_nil⟩
  | iMark _ _ | plain _ _ _ _ | wrTmp _ _ | exit _ => exact ⟨_, _, rfl, copied rfl⟩
  | flush addr kind =>
      obtain ⟨type, addrTyped⟩ := type_of_inScope (named.reads addr (by simp [IRStmt.reads]))
      have flushed := called (copied rfl) (show ToolCall.tracePmemFlush ≠ _ by decide) [addr]
      simp only [instrumentStmt, addrTyped, Option.bind_eq_bind, Option.bind_some]
      split
      · split
        · exact ⟨_, _, rfl, called flushed (by decide) []⟩
        · exact ⟨_, _, rfl, flushed⟩
      · exact ⟨_, _, rfl, copied rfl⟩
  | mbe event =>
      have fenced := called (copied rfl) (show ToolCall.doFence ≠ _ by decide) []
      simp only [instrumentStmt]
      split
      · split
        · exact ⟨_, _, rfl, fenced⟩
        · exact ⟨_, _, rfl, fenced⟩
        · exact ⟨_, _, rfl, copied rfl⟩
      · exact ⟨_, _, rfl, copied rfl⟩
  | store addr data =>
      obtain ⟨type, size, dataTyped, sized⟩ := storable_sized typed.2
      have atomSized : Machine.sizeofAtom tyenv data = some size := by
        simp [Machine.sizeofAtom, dataTyped, sized]
      obtain ⟨after, added, built, replays⟩ :=
          store_replays isWord fits typed typed.1 typed.2 quoted
        dataTyped sized (show (guardAtom none).InScope sb.tyenv.length from trivial)
        (store_writesWhen named atomSized) (store_putsValue atomSized)
      exact ⟨after, added, by simpa [instrumentStmt, addEventDw, dataTyped, sized] using built,
        replays⟩
  | storeG addr data guard =>
      obtain ⟨type, size, dataTyped, sized⟩ := storable_sized typed.2
      have atomSized : Machine.sizeofAtom tyenv data = some size := by
        simp [Machine.sizeofAtom, dataTyped, sized]
      obtain ⟨guardType, guardTyped⟩ := type_of_inScope (named.reads guard (by simp [IRStmt.reads]))
      obtain ⟨after, added, built, replays⟩ :=
          store_replays isWord fits typed typed.1 typed.2 quoted
        dataTyped sized (show (guardAtom (some guard)).InScope sb.tyenv.length from
          inScope_of_type (typeOfIRAtom_mono fits guardTyped))
        (storeG_writesWhen named atomSized) (storeG_putsValue atomSized)
      exact ⟨after, added, by simpa [instrumentStmt, dataTyped, sized] using built, replays⟩
  | cas details =>
      have low : details.high = none := by simpa [doubleWidth] using single
      obtain ⟨isAddr, width, expdTyped, dataTyped, _⟩ := id typed
      exact cas_replays fits named typed low quoted isAddr expdTyped dataTyped
  | llsc _ _ _ => exact absurd typed id
  | dirty _ _ _ => exact absurd typed id

/-- The loop over such statements. -/
theorem loop_replays (opts : IsaOptions) (stray : IRAtom → Nat → Option IRAtom)
    (isWord : word = .i32 ∨ word = .i64) {stmts : List (IRStmt ToolCall)}
    (named : ∀ st ∈ stmts, st.WellScoped tyenv.length)
    (typed : ∀ st ∈ stmts, WellTyped word tyenv st)
    (single : ∀ st ∈ stmts, doubleWidth st = false)
    (quoted : ∀ st ∈ stmts, quotable st = true) (sb : IRSB ToolCall) (fits : tyenv <+: sb.tyenv) :
    ∃ output added, stmts.foldlM (instrumentStmt opts word stray tyenv) sb = some output ∧
      Extends sb output added ∧ Replays (wordBits word) tyenv added := by
  induction stmts generalizing sb with
  | nil => exact ⟨sb, [], rfl, Extends.refl sb, replays_nil⟩
  | cons st rest inductionHypothesis =>
      obtain ⟨after, left, turned, extended, replays⟩ :=
        @instrumentStmt_replays opts word stray tyenv sb st isWord fits (named st (by simp))
          (typed st (by simp)) (single st (by simp)) (quoted st (by simp))
      obtain ⟨output, right, followed, further, restReplays⟩ := inductionHypothesis
        (fun st member => named st (by simp [member]))
          (fun st member => typed st (by simp [member]))
        (fun st member => single st (by simp [member]))
        (fun st member => quoted st (by simp [member])) after (fits.trans extended.tyenv)
      refine ⟨output, left ++ right, ?_, extended.trans further, replays.append restReplays⟩
      simp [List.foldlM_cons, turned, followed]

end Loop

/-! ## Programs -/

/-- A request, or a block all of whose statements have values that are carried. -/
def Quotable : Action → Prop
  | .block _ _ _ bb => ∀ st ∈ bb.stmts, quotable st = true
  | .request _ => True

/-- Write what a signal reports. A request of the client writes nothing. -/
def replaySignal (bits : Nat) (memory : Nat → Nat) : Signal → Nat → Nat
  | .helper _ _ call => replayCall bits memory call
  | .request _ => memory

section Programs

variable {opts : IsaOptions} {word : IRType} {stray : IRAtom → Nat → Option IRAtom}
variable {World : Type} {machine : Machine World} {bytes : World → Nat → Nat}

/-- Statements that neither write nor report. -/
theorem replays_untouched {bits : Nat} {tyenv : List IRType} {stmts : List (IRStmt ToolCall)}
    (typed : ∀ st ∈ stmts, WellTyped word tyenv st)
    (untouched : ∀ st ∈ stmts, touchesMemory st = false) : Replays bits tyenv stmts := by
  induction stmts with
  | nil => exact replays_nil
  | cons st rest inductionHypothesis =>
      have first : Replays bits tyenv [st] :=
        replays_quiet (hasEvents_untouched (typed st (by simp)) (untouched st (by simp)))
      exact first.append (inductionHypothesis (fun st member => typed st (by simp [member]))
        (fun st member => untouched st (by simp [member])))

/-- A block under the tool. -/
theorem runUnder_replays {bb : IRSB ToolCall} (client : ClientBlock word bb)
    (relayed : relayable bb = true) (quoted : ∀ st ∈ bb.stmts, quotable st = true)
    (holds : HoldsBytes (wordBits word) machine bytes) {start : State World}
    {other : Outcome World ToolCall} (ran : runUnder machine opts word stray bb start =
      some other) :
    bytes other.state.world =
      replay (wordBits word) (bytes start.world) (helperCalls other.events) := by
  simp only [relayable, Bool.and_eq_true, List.all_eq_true, Bool.not_eq_true'] at relayed
  obtain ⟨untouched, single⟩ := relayed
  have within : ∀ st ∈ bb.stmts.dropWhile beforeIMark, st ∈ bb.stmts :=
    fun st member => (List.dropWhile_sublist _).mem member
  obtain ⟨output, added, built, extended, replays⟩ := loop_replays opts stray client.isWord
    (fun st member => client.named st (within st member))
    (fun st member => client.typed st (within st member)) single
    (fun st member => quoted st (within st member))
    (addStmtToIRSB ⟨bb.tyenv, bb.stmts.takeWhile beforeIMark⟩
      (unsafeIRDirty0N .addOneSBEntered [] none)) List.prefix_rfl
  have whole : Replays (wordBits word) bb.tyenv output.stmts := by
    rw [extended.stmts]
    apply Replays.append _ replays
    apply Replays.append _ (replays_call (by decide) [])
    exact replays_untouched
      (fun st member => client.typed st ((List.takeWhile_sublist _).mem member)) untouched
  obtain ⟨more, larger⟩ := extended.tyenv
  have instrumented : pmcInstrument opts word stray bb word = some output := by
    simpa [pmcInstrument] using built
  simp only [runUnder, instrumented, Option.bind_some, Machine.runBlock,
    Option.ite_none_right_eq_some] at ran
  rw [← larger] at ran
  exact whole World machine bytes holds more start other ran.2

/-- The calls of a block as they reach the tool. -/
theorem foldl_blockSignals (bits threadId : Nat) (contexts : Nat → Option ExeContext)
    (memory : Nat → Nat) (calls : List HelperCall) :
    (blockSignals threadId contexts calls).foldl (replaySignal bits) memory =
      replay bits memory calls := by
  induction calls generalizing contexts memory with
  | nil => rfl
  | cons call rest inductionHypothesis =>
      rw [blockSignals_cons, List.foldl_cons, inductionHypothesis]
      rfl

/-- A program under the tool. -/
theorem toolRun_replays {program : List Action}
    (runnable : ∀ action ∈ program, Runnable word action)
    (quoted : ∀ action ∈ program, Quotable action)
    (holds : HoldsBytes (wordBits word) machine bytes) {world last : World} {heard : List Signal}
    (ran : toolRun machine opts word stray program world = some (last, heard)) :
    bytes last = heard.foldl (replaySignal (wordBits word)) (bytes world) := by
  induction program generalizing world heard with
  | nil =>
      cases Option.some.inj ran
      rfl
  | cons action rest inductionHypothesis =>
      have later {next : World} {told : List Signal} := @inductionHypothesis
        (fun action member => runnable action (by simp [member]))
        (fun action member => quoted action (by simp [member])) next told
      cases action with
      | block threadId contexts temps bb =>
          obtain ⟨client, relayed⟩ := runnable _ List.mem_cons_self
          simp only [toolRun, Option.bind_eq_bind] at ran
          obtain ⟨ending, under, followed⟩ := Option.bind_eq_some_iff.mp ran
          obtain ⟨⟨final, told⟩, ranRest, finished⟩ := Option.bind_eq_some_iff.mp followed
          cases Option.some.inj finished
          rw [List.foldl_append, foldl_blockSignals,
            ← runUnder_replays client relayed (quoted _ List.mem_cons_self) holds under]
          exact later ranRest
      | request request =>
          simp only [toolRun, Option.bind_eq_bind] at ran
          obtain ⟨⟨final, told⟩, ranRest, finished⟩ := Option.bind_eq_some_iff.mp ran
          cases Option.some.inj finished
          show bytes final = told.foldl (replaySignal (wordBits word)) (bytes world)
          exact later ranRest

/-- At every point of a run under the tool, the stores that were reported so far, written one
after the other to a copy of the memory at the start, give the memory that the program has
without the tool.

Proof: induction on the program. The calls that stand behind a statement report what it writes,
piece by piece, so that replaying them has its effect on the memory. A guarded store that is
not executed is not reported either. -/
theorem programs_replayed (opts : IsaOptions) (stray : IRAtom → Nat → Option IRAtom)
    {program : List Action} (runnable : ∀ action ∈ program, Runnable word action)
    (quoted : ∀ action ∈ program, Quotable action)
    (holds : HoldsBytes (wordBits word) machine bytes) (world : World) {made : List Action}
    (isMade : made <+: program) :
    ∃ last seen heard, clientRun machine made world = some (last, seen) ∧
      toolRun machine opts word stray made world = some (last, heard) ∧
      bytes last = heard.foldl (replaySignal (wordBits word)) (bytes world) := by
  have madeRunnable : ∀ action ∈ made, Runnable word action :=
    fun action member => runnable action (isMade.subset member)
  obtain ⟨last, seen, heard, ran, under, _⟩ := toolRun_relays opts stray madeRunnable machine world
  exact ⟨last, seen, heard, ran, under, toolRun_replays madeRunnable
    (fun action member => quoted action (isMade.subset member)) holds under⟩

end Programs

/-- A machine whose memory wraps around after 64 bits of address. It computes nothing and never
holds a reservation, which is enough for runs on fixed blocks. -/
def wordMachine : Machine (Nat → Nat) where
  load memory addr size :=
    ((List.range size).map (fun offset => memory ((addr + offset) % 2 ^ 64) * 256 ^ offset)).sum
  write memory addr size value := overwrite 64 addr size value memory
  reserved _ _ := false
  compute _ _ _ := 0
  act _ _ memory := (0, memory)

/-- This machine's world is the memory itself. -/
theorem wordMachine_holdsBytes : HoldsBytes 64 wordMachine (fun memory => memory) where
  write _ _ _ _ := rfl
  act _ _ _ := rfl

/-- The memory of the two threads, from what was reported. -/
theorem programs_replayed_two_threads :
    ∃ last heard, toolRun wordMachine ⟨true, false⟩ .i64 (fun _ _ => none) twoThreads (fun _ => 0) =
        some (last, heard) ∧
      last = heard.foldl (replaySignal 64) (fun _ => 0) ∧ last 4096 = 7 ∧ last 4161 = 16 := by
  obtain ⟨last, seen, heard, _, under, replayed⟩ := @programs_replayed .i64 _ wordMachine
    (fun memory => memory) ⟨true, false⟩ (fun _ _ => none) twoThreads twoThreads_runnable
    (by simp [twoThreads, Quotable, persistBlock, vectorBlock, quotable, narrowConst])
    wordMachine_holdsBytes (fun _ => 0) twoThreads List.prefix_rfl
  have held (byte : Nat) : ((toolRun wordMachine ⟨true, false⟩ .i64 (fun _ _ => none) twoThreads
      (fun _ => 0)).map (fun ending => ending.1 byte)) = some (last byte) := by
    rw [under]
    rfl
  refine ⟨last, heard, under, replayed, ?_, ?_⟩
  · exact Option.some.inj ((held 4096).symm.trans (by decide +kernel))
  · exact Option.some.inj ((held 4161).symm.trans (by decide +kernel))

end PmDebugger
