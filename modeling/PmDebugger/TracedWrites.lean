import PmDebugger.Instrumentation

/-!
# Calls that report a write

What the statements do that `add_event_dw_guarded` adds to a block. They assign new temporaries
only, and when their guard holds they call `trace_pmem_store` for ranges that have no byte in common
and together are the range of the write. When the guard fails they do nothing.

The address is given in the block as an expression. It needs to have the type of an address only
where a vector is cut into parts.
-/

namespace PmDebugger

open Vex

/-- The arguments of a call of `trace_pmem_store`, once their atoms are evaluated: where, how
many bytes and which value. -/
structure StoreCall where
  addr : Nat
  size : Nat
  value : Nat

namespace StoreCall

/-- The call in the log of an execution, with its arguments in the order of the source. -/
def event (call : StoreCall) : Event ToolCall :=
  .called .tracePmemStore [call.addr, call.size, call.value]

/-- The range that the call reports, without its value. -/
def range (call : StoreCall) : Nat × Nat := (call.addr, call.size)

end StoreCall

/-- The number of bits in a word of the machine, which has 32 of them or 64. -/
def wordBits (word : IRType) : Nat :=
  if word = .i32 then 32 else 64

/-- The guard of a call, which holds when none is given. -/
def guardAtom (guard : Option IRAtom) : IRAtom := guard.getD (.const (.u1 true))

/-- A guard is an atom. -/
@[simp] theorem guardAtom_some (guard : IRAtom) : guardAtom (some guard) = guard := rfl

/-- Without a guard the call is always made. -/
@[simp] theorem guardAtom_none_value {World : Type} (state : State World) :
    state.value (guardAtom none) = 1 := rfl

/-- The events of calls under a guard: all of them if it holds, and none otherwise. -/
def guardedEvents {World : Type} (state : State World) (guard : Option IRAtom)
    (calls : List StoreCall) : List (Event ToolCall) :=
  if state.value (guardAtom guard) ≠ 0 then calls.map StoreCall.event else []

/-- Calls under one guard are made one by one. -/
theorem guardedEvents_cons {World : Type} (state : State World) (guard : Option IRAtom)
    (call : StoreCall) (calls : List StoreCall) :
    guardedEvents state guard (call :: calls) =
      guardedEvents state guard [call] ++ guardedEvents state guard calls := by
  simp only [guardedEvents]
  split <;> rfl

/-- The events do not depend on temporaries after those in the scope of the guard. -/
theorem guardedEvents_agree {World : Type} {count : Nat} {state next : State World}
    (agree : Agree count state next) {guard : Option IRAtom}
    (guardScope : (guardAtom guard).InScope count) (calls : List StoreCall) :
    guardedEvents next guard calls = guardedEvents state guard calls := by
  simp only [guardedEvents, agree.value guardScope]

/-- The block `after` has more statements than `sb`. They report a write of `size` bytes at `daddr`
when the guard holds, and change nothing but new temporaries. -/
def ReportsWrite (bits : Nat) (sb after : IRSB ToolCall) (daddr : IRAtom) (size : Nat)
    (guard : Option IRAtom) : Prop :=
  ∃ added, Extends sb after added ∧ (∀ st ∈ added, st.complete = true) ∧
    ∀ (World : Type) (machine : Machine World) (tyenv : List IRType) (state : State World),
      daddr.InScope sb.tyenv.length → (guardAtom guard).InScope sb.tyenv.length →
      ∃ calls : List StoreCall,
        Partition bits (calls.map StoreCall.range) [(state.value daddr, size)] ∧
        machine.Emits tyenv sb.tyenv.length added state (guardedEvents state guard calls)

section Builders

variable {hWordTy : IRType} {sb : IRSB ToolCall} {daddr : IRAtom} {guard : Option IRAtom}
variable {bits : Nat}

/-- A constant of the host has the value that was given when that fits into 32 bits. -/
theorem mkIRExprHWord_value {World : Type} (state : State World) {value : Nat}
    (fits : value < 2 ^ 32) : state.value (mkIRExprHWord hWordTy value) = value := by
  have wider : value < 2 ^ 64 := by omega
  simp only [mkIRExprHWord]
  split
  · simp only [State.value, IRConst.value, BitVec.toNat_ofNat, Nat.mod_eq_of_lt fits]
  · simp only [State.value, IRConst.value, BitVec.toNat_ofNat, Nat.mod_eq_of_lt wider]

/-- `make_expr` adds one assignment to one new temporary. -/
theorem makeExpr_eq {ty : IRType} {e : IRExpr} (typed : typeOfIRExpr sb.tyenv e = some ty) :
    makeExpr sb ty e = some (.rdTmp sb.tyenv.length,
      ⟨sb.tyenv ++ [ty], sb.stmts ++ [.wrTmp sb.tyenv.length e]⟩) := by
  simp [makeExpr, typed, newIRTemp, addStmtToIRSB]

/-- The call for a store is a complete statement. -/
theorem traceStore_complete (dsize : Nat) (value : IRAtom) :
    (traceStore hWordTy daddr dsize guard value).complete = true := rfl

/-- The events of one reporting call. -/
theorem traceStore_emits {World : Type} (machine : Machine World) (tyenv : List IRType)
    (state : State World) (count : Nat) {dsize : Nat} (fits : dsize < 2 ^ 32) (value : IRAtom) :
    machine.Emits tyenv count [traceStore hWordTy daddr dsize guard value] state
      (guardedEvents state guard [⟨state.value daddr, dsize, state.value value⟩]) := by
  have emitted : machine.Emits tyenv count _ state _ :=
    .call ToolCall.tracePmemStore [daddr, mkIRExprHWord hWordTy dsize, value] (guardAtom guard)
  simp only [List.map_cons, List.map_nil, mkIRExprHWord_value state fits] at emitted
  exact emitted

/-- A value that is passed as it is. -/
theorem reportsWrite_direct {dsize : Nat} (fits : dsize < 2 ^ 32) (value : IRAtom) :
    ReportsWrite bits sb (addStmtToIRSB sb (traceStore hWordTy daddr dsize guard value)) daddr dsize
      guard := by
  apply Exists.intro [traceStore hWordTy daddr dsize guard value]
  constructor
  · exact Extends.addStmt sb _
  · constructor
    · simp [traceStore_complete]
    · intro World machine tyenv state daddrScope guardScope
      apply Exists.intro [⟨state.value daddr, dsize, state.value value⟩]
      constructor
      · exact Partition.single _
      · exact traceStore_emits machine tyenv state _ fits value

/-- A value that is converted to a word of 64 bits first. -/
theorem reportsWrite_converted {dsize : Nat} (fits : dsize < 2 ^ 32) {op : IROp} {value : IRAtom}
    (wide : op.type = .i64) (defined : ∀ value, ∃ result, op.unary value = some result) :
    ∃ after, (do
        let (word, sb) ← makeExpr sb .i64 (.unop op value)
        some (addStmtToIRSB sb (traceStore hWordTy daddr dsize guard word))) = some after ∧
      ReportsWrite bits sb after daddr dsize guard := by
  have typed : typeOfIRExpr sb.tyenv (.unop op value) = some .i64 := by
    simp only [typeOfIRExpr, wide]
  simp only [makeExpr_eq typed, Option.bind_eq_bind, Option.bind_some]
  constructor
  constructor
  · rfl
  · apply Exists.intro [.wrTmp sb.tyenv.length (.unop op value),
      traceStore hWordTy daddr dsize guard (.rdTmp sb.tyenv.length)]
    constructor
    · constructor
      · simp [addStmtToIRSB]
      · exact List.prefix_append sb.tyenv [.i64]
    · constructor
      · obtain ⟨result, converted⟩ := defined 0
        simp [IRExpr.complete, converted, traceStore_complete]
      · intro World machine tyenv state daddrScope guardScope
        obtain ⟨result, converted⟩ := defined (state.value value)
        have evaluated : machine.eval state (.unop op value) = some result := converted
        have agree : Agree sb.tyenv.length state (state.assign sb.tyenv.length result) :=
          (Agree.refl _ state).assign_later (Nat.le_refl _) result
        apply Exists.intro [⟨state.value daddr, dsize, result⟩]
        constructor
        · exact Partition.single _
        · apply Machine.Emits.assign (Nat.le_refl _) evaluated
          have emitted : machine.Emits tyenv _ [traceStore hWordTy daddr dsize guard _] _ _ :=
            traceStore_emits machine tyenv (state.assign sb.tyenv.length result) sb.tyenv.length
              fits (.rdTmp sb.tyenv.length)
          simp only [agree.value daddrScope, guardedEvents_agree agree guardScope] at emitted
          simpa only [State.assign_value_self] using emitted

end Builders

/-- The statements that one turn of the loop over the parts of a vector adds. -/
def partStmts (hWordTy tyAddr : IRType) (addr data : IRAtom) (guard : Option IRAtom)
    (partSize next : Nat) (part : IROp × Nat) : List (IRStmt ToolCall) :=
  [.wrTmp next (.binop (mkAdd tyAddr) (some addr) (some (biasConst tyAddr part.2))),
    .wrTmp (next + 1) (.unop part.1 data),
    traceStore hWordTy (.rdTmp next) partSize guard (.rdTmp (next + 1))]

/-- The call for a part of a vector. Its address wraps around with the word, and its value is
what the operation takes out of the vector. -/
def partCall (tyAddr : IRType) (partSize addr data : Nat) (part : IROp × Nat) : StoreCall :=
  ⟨(addr + part.2) % 2 ^ wordBits tyAddr, partSize, (part.1.unary data).getD 0⟩

/-- An operation that takes 64 bits out of a value, and a small offset. The operations for both
vector types are of this kind. -/
structure IsPart (part : IROp × Nat) : Prop where
  wide : part.1.type = .i64
  defined : ∀ value, ∃ result, part.1.unary value = some result
  fits : part.2 < 2 ^ 32

/-- The listed parts are parts. -/
theorem isPart_wideParts {type : IRType} {endness : IREndness} {part : IROp × Nat}
    (member : part ∈ wideParts type endness) : IsPart part := by
  cases type <;> cases endness <;> simp only [wideParts, List.not_mem_nil, List.mem_cons,
    or_false] at member
  all_goals
    rcases member with rfl | rfl | rfl | rfl <;>
      exact ⟨rfl, fun value => ⟨_, rfl⟩, by decide⟩

section Vectors

variable {hWordTy tyAddr : IRType} {addr data : IRAtom} {guard : Option IRAtom} {partSize : Nat}

/-- One turn of the loop over the parts. -/
theorem widePart_eq (isAddr : tyAddr = .i32 ∨ tyAddr = .i64) {part : IROp × Nat}
    (isPart : IsPart part) (sb : IRSB ToolCall) :
    widePart hWordTy tyAddr addr data guard partSize sb part =
      some ⟨sb.tyenv ++ [tyAddr, .i64],
        sb.stmts ++ partStmts hWordTy tyAddr addr data guard partSize sb.tyenv.length part⟩ := by
  have added : (mkAdd tyAddr).type = tyAddr := by
    rcases isAddr with rfl | rfl <;> rfl
  simp [widePart, makeExpr, typeOfIRExpr, added, isPart.wide, newIRTemp, addStmtToIRSB, partStmts]

/-- The statements of a turn have their operands. -/
theorem partStmts_complete (isAddr : tyAddr = .i32 ∨ tyAddr = .i64) {part : IROp × Nat}
    (isPart : IsPart part) (next : Nat) {st : IRStmt ToolCall}
    (member : st ∈ partStmts hWordTy tyAddr addr data guard partSize next part) :
    st.complete = true := by
  simp only [partStmts, List.mem_cons, List.not_mem_nil, or_false] at member
  rcases member with rfl | rfl | rfl
  · rcases isAddr with rfl | rfl <;> rfl
  · obtain ⟨result, converted⟩ := isPart.defined 0
    simp [IRExpr.complete, converted]
  · exact traceStore_complete _ _

/-- The address of a part. -/
theorem eval_part {World : Type} (machine : Machine World) (state : State World)
    (isAddr : tyAddr = .i32 ∨ tyAddr = .i64) {offs : Nat} (fits : offs < 2 ^ 32) :
    machine.eval state (.binop (mkAdd tyAddr) (some addr) (some (biasConst tyAddr offs))) =
      some ((state.value addr + offs) % 2 ^ wordBits tyAddr) := by
  have bias : state.value (biasConst tyAddr offs) = offs := mkIRExprHWord_value state fits
  simp only [Machine.eval, bias]
  rcases isAddr with rfl | rfl <;> rfl

/-- The events of one turn. -/
theorem partStmts_emits {World : Type} (machine : Machine World) (tyenv : List IRType)
    (state : State World) {count next : Nat} {part : IROp × Nat}
    (isAddr : tyAddr = .i32 ∨ tyAddr = .i64) (isPart : IsPart part) (small : partSize < 2 ^ 32)
    (later : count ≤ next) (dataScope : data.InScope count)
    (guardScope : (guardAtom guard).InScope count) :
    machine.Emits tyenv count (partStmts hWordTy tyAddr addr data guard partSize next part) state
      (guardedEvents state guard
        [partCall tyAddr partSize (state.value addr) (state.value data) part]) := by
  obtain ⟨lane, converted⟩ := isPart.defined (state.value data)
  have located := @eval_part tyAddr addr World machine state isAddr part.2 isPart.fits
  simp only [partCall, converted, Option.getD_some]
  generalize (state.value addr + part.2) % 2 ^ wordBits tyAddr = place at located ⊢
  have placed : Agree count state (state.assign next place) :=
    (Agree.refl _ state).assign_later later place
  have both : Agree count state ((state.assign next place).assign (next + 1) lane) :=
    placed.assign_later (by omega) lane
  have evaluated : machine.eval (state.assign next place) (.unop part.1 data) = some lane := by
    simp only [Machine.eval, placed.value dataScope, converted]
  apply Machine.Emits.assign later located
  apply Machine.Emits.assign (by omega) evaluated
  have emitted : machine.Emits tyenv count
      [traceStore hWordTy (.rdTmp next) partSize guard (.rdTmp (next + 1))] _ _ :=
    traceStore_emits machine tyenv ((state.assign next place).assign (next + 1) lane) count small
      (.rdTmp (next + 1))
  rw [guardedEvents_agree both guardScope] at emitted
  simpa [State.value, State.assign] using emitted

/-- The loop over the parts. -/
theorem wideParts_emits (hWordTy : IRType) (isAddr : tyAddr = .i32 ∨ tyAddr = .i64)
    (small : partSize < 2 ^ 32) {count : Nat} (addrScope : addr.InScope count)
    (dataScope : data.InScope count) (guardScope : (guardAtom guard).InScope count)
    (parts : List (IROp × Nat)) (areParts : ∀ part ∈ parts, IsPart part) (sb : IRSB ToolCall)
    (later : count ≤ sb.tyenv.length) :
    ∃ after added,
      parts.foldlM (widePart hWordTy tyAddr addr data guard partSize) sb = some after ∧
      Extends sb after added ∧ (∀ st ∈ added, st.complete = true) ∧
      ∀ (World : Type) (machine : Machine World) (tyenv : List IRType) (state : State World),
        machine.Emits tyenv count added state (guardedEvents state guard
          (parts.map (partCall tyAddr partSize (state.value addr) (state.value data)))) := by
  induction parts generalizing sb with
  | nil =>
      apply Exists.intro sb
      apply Exists.intro []
      constructor
      · rfl
      · constructor
        · exact Extends.refl sb
        · constructor
          · simp
          · intro World machine tyenv state
            simpa [guardedEvents] using Machine.Emits.nil
  | cons part rest inductionHypothesis =>
      have isPart := areParts part (by simp)
      have turn := @widePart_eq hWordTy tyAddr addr data guard partSize isAddr part isPart sb
      have moreTemps : count ≤ (sb.tyenv ++ [tyAddr, .i64]).length := by
        simp only [List.length_append]
        omega
      obtain ⟨after, added, folded, extended, complete, emits⟩ := inductionHypothesis
        (fun part member => areParts part (by simp [member]))
        ⟨sb.tyenv ++ [tyAddr, .i64],
          sb.stmts ++ partStmts hWordTy tyAddr addr data guard partSize sb.tyenv.length part⟩
        moreTemps
      apply Exists.intro after
      apply Exists.intro
        (partStmts hWordTy tyAddr addr data guard partSize sb.tyenv.length part ++ added)
      constructor
      · simp only [List.foldlM_cons, turn, Option.bind_eq_bind, Option.bind_some, folded]
      · constructor
        · exact Extends.trans ⟨rfl, List.prefix_append _ _⟩ extended
        · constructor
          · intro st member
            rcases List.mem_append.mp member with first | later
            · exact partStmts_complete isAddr isPart _ first
            · exact complete st later
          · intro World machine tyenv state
            rw [List.map_cons, guardedEvents_cons]
            apply Machine.Emits.append
            · exact partStmts_emits machine tyenv state isAddr isPart small later dataScope
                guardScope
            · intro next agree
              have followed := emits World machine tyenv next
              rwa [guardedEvents_agree agree guardScope, agree.value addrScope,
                agree.value dataScope] at followed

end Vectors

/-! ## Every kind of value -/

/-- The types of the temporaries that can be reported. The instrumentation has no case for any
other, and the tool panics there. -/
def tracedTypes : List IRType := [.i8, .i16, .i32, .i64, .f64, .v128, .v256]

/-- The values whose stores can be reported: temporaries of these types and integer constants.
Constants of other types have no case in `widen_const`. -/
def Storable (tyenv : List IRType) : IRAtom → Prop
  | .rdTmp tmp => ∃ type ∈ tracedTypes, tyenv[tmp]? = some type
  | .const con => ∃ width : IntWidth, con.type = width.type

/-- A value that can be reported is an integer, a floating point number or a vector. -/
theorem storable_cases {tyenv : List IRType} {value : IRAtom} (storable : Storable tyenv value) :
    (∃ width : IntWidth, typeOfIRAtom tyenv value = some width.type) ∨
      ∃ tmp, value = .rdTmp tmp ∧ (tyenv[tmp]? = some .f64 ∨
        ∃ type, (type = .v128 ∨ type = .v256) ∧ tyenv[tmp]? = some type) := by
  cases value with
  | const con =>
      obtain ⟨width, typed⟩ := storable
      exact .inl ⟨width, congrArg some typed⟩
  | rdTmp tmp =>
      obtain ⟨type, member, typed⟩ := storable
      simp only [tracedTypes, List.mem_cons, List.not_mem_nil, or_false] at member
      rcases member with rfl | rfl | rfl | rfl | rfl | vector
      · exact .inl ⟨.w8, typed⟩
      · exact .inl ⟨.w16, typed⟩
      · exact .inl ⟨.w32, typed⟩
      · exact .inl ⟨.w64, typed⟩
      · exact .inr ⟨tmp, rfl, .inl typed⟩
      · exact .inr ⟨tmp, rfl, .inr ⟨type, vector, typed⟩⟩

section Values

variable {word : IRType} {sb : IRSB ToolCall} {daddr value : IRAtom} {guard : Option IRAtom}

/-- An integer constant goes through `widen_const`. -/
theorem addEventDwGuarded_const {con : IRConst} {width : IntWidth} (typed : con.type = width.type)
    (daddr : IRAtom) (guard : Option IRAtom) (sb : IRSB ToolCall) :
    ∃ after, addEventDwGuarded word sb daddr width.size guard (.const con) = some after ∧
      ReportsWrite (wordBits word) sb after daddr width.size guard := by
  have bound : 1 ≤ width.size ∧ width.size ≤ maxDsize := by cases width <;> decide
  have fits : width.size < 2 ^ 32 := by cases width <;> decide
  have widened : constNeedsWiden con = true ∧ ∃ wide, widenConst word con = some wide := by
    cases con with
    | u8 _ | u16 _ | u32 _ | u64 _ => exact ⟨rfl, _, rfl⟩
    | u1 _ | f32 _ | f64 _ | v128 _ | v256 _ =>
      cases width <;> simp [IRConst.type, IntWidth.type] at typed
  obtain ⟨needed, wide, isWide⟩ := widened
  apply Exists.intro (addStmtToIRSB sb (traceStore word daddr width.size guard wide))
  constructor
  · simp [addEventDwGuarded, bound, typeOfIRAtom, needed, isWide]
  · exact reportsWrite_direct fits wide

/-- The types that are converted to words of 64 bits, with the operations. A value of 64 bits
needs none and the vectors are taken apart. -/
def conversions : List (IRType × IROp) :=
  [(.i8, .u8to64), (.i16, .u16to64), (.i32, .u32to64), (.f64, .reinterpF64asI64)]

/-- A temporary that is converted to a word of 64 bits. -/
theorem addEventDwGuarded_converted {tmp size : Nat} {type : IRType} (op : IROp)
    (member : (type, op) ∈ conversions) (typed : sb.tyenv[tmp]? = some type)
    (bound : 1 ≤ size ∧ size ≤ maxDsize) (daddr : IRAtom) (guard : Option IRAtom) :
    ∃ after, addEventDwGuarded word sb daddr size guard (.rdTmp tmp) = some after ∧
      ReportsWrite (wordBits word) sb after daddr size guard := by
  have small : size < 2 ^ 32 := Nat.lt_of_le_of_lt bound.2 (by decide)
  have wide : op.type = .i64 ∧ ∀ value, ∃ result, op.unary value = some result := by
    simp only [conversions, List.mem_cons, Prod.mk.injEq, List.not_mem_nil, or_false] at member
    rcases member with ⟨_, rfl⟩ | ⟨_, rfl⟩ | ⟨_, rfl⟩ | ⟨_, rfl⟩ <;>
      exact ⟨rfl, fun value => ⟨_, rfl⟩⟩
  have branch : addEventDwGuarded word sb daddr size guard (.rdTmp tmp) = (do
      let (converted, sb) ← makeExpr sb .i64 (.unop op (.rdTmp tmp))
      some (addStmtToIRSB sb (traceStore word daddr size guard converted))) := by
    simp only [conversions, List.mem_cons, Prod.mk.injEq, List.not_mem_nil, or_false] at member
    rcases member with ⟨rfl, rfl⟩ | ⟨rfl, rfl⟩ | ⟨rfl, rfl⟩ | ⟨rfl, rfl⟩ <;>
      simp [addEventDwGuarded, bound, typeOfIRAtom, typed, tmpNeedsWiden, widenOperation]
  rw [branch]
  exact reportsWrite_converted small wide.1 wide.2

/-- A temporary of 64 bits. -/
theorem addEventDwGuarded_word {tmp : Nat} (typed : sb.tyenv[tmp]? = some .i64) (daddr : IRAtom)
    (guard : Option IRAtom) :
    ∃ after, addEventDwGuarded word sb daddr 8 guard (.rdTmp tmp) = some after ∧
      ReportsWrite (wordBits word) sb after daddr 8 guard := by
  apply Exists.intro (addStmtToIRSB sb (traceStore word daddr 8 guard (.rdTmp tmp)))
  constructor
  · simp [addEventDwGuarded, typeOfIRAtom, typed, maxDsize]
  · exact reportsWrite_direct (by decide) (.rdTmp tmp)

/-- A value of an integer type is reported whatever the address is. -/
theorem addEventDwGuarded_width {width : IntWidth}
    (typed : typeOfIRAtom sb.tyenv value = some width.type) (daddr : IRAtom)
    (guard : Option IRAtom) :
    ∃ after, addEventDwGuarded word sb daddr width.size guard value = some after ∧
      ReportsWrite (wordBits word) sb after daddr width.size guard := by
  cases value with
  | const con => exact addEventDwGuarded_const (Option.some.inj typed) daddr guard sb
  | rdTmp tmp =>
      cases width with
      | w8 => exact addEventDwGuarded_converted .u8to64 (by decide) typed (by decide) daddr guard
      | w16 => exact addEventDwGuarded_converted .u16to64 (by decide) typed (by decide) daddr guard
      | w32 => exact addEventDwGuarded_converted .u32to64 (by decide) typed (by decide) daddr guard
      | w64 => exact addEventDwGuarded_word typed daddr guard

/-- The ranges that the parts of a vector report. -/
theorem partCall_ranges {type tyAddr : IRType} {size : Nat} (vector : type = .v128 ∨ type = .v256)
    (sized : sizeofIRType type = some size) (addr data : Nat) :
    Partition (wordBits tyAddr)
      (((wideParts type .le).map (partCall tyAddr (size / (wideParts type .le).length) addr
        data)).map StoreCall.range) [(addr, size)] := by
  have room : 32 ≤ 2 ^ wordBits tyAddr := by
    simp only [wordBits]
    split <;> decide
  rcases vector with rfl | rfl <;> cases Option.some.inj sized
  · exact Partition.pieces addr 8 2 (by omega)
  · exact Partition.pieces addr 8 4 (by omega)

/-- A temporary that is a vector. -/
theorem addEventDwGuarded_vector {tmp size : Nat} {type : IRType}
    (isWord : word = .i32 ∨ word = .i64) (vector : type = .v128 ∨ type = .v256)
    (typed : sb.tyenv[tmp]? = some type) (sized : sizeofIRType type = some size)
    (isAddr : typeOfIRAtom sb.tyenv daddr = some word)
    (guardScope : (guardAtom guard).InScope sb.tyenv.length) :
    ∃ after, addEventDwGuarded word sb daddr size guard (.rdTmp tmp) = some after ∧
      ReportsWrite (wordBits word) sb after daddr size guard := by
  have bound : 1 ≤ size ∧ size ≤ maxDsize := by
    rcases vector with rfl | rfl <;> cases Option.some.inj sized <;> decide
  have small : size / (wideParts type .le).length < 2 ^ 32 :=
    Nat.lt_of_le_of_lt (Nat.div_le_self _ _) (Nat.lt_of_le_of_lt bound.2 (by decide))
  have dataTyped : typeOfIRAtom sb.tyenv (.rdTmp tmp) = some type := typed
  obtain ⟨after, added, folded, extended, complete, emits⟩ := wideParts_emits word isWord small
    (inScope_of_type isAddr) (inScope_of_type dataTyped) guardScope (wideParts type .le)
    (fun part member => isPart_wideParts member) sb (Nat.le_refl _)
  apply Exists.intro after
  constructor
  · have handled : handleWideExpr word sb .le daddr (.rdTmp tmp) guard size = some after := by
      simpa [handleWideExpr, isAddr, isWord, dataTyped] using folded
    rcases vector with rfl | rfl <;>
      simp [addEventDwGuarded, bound, typeOfIRAtom, typed, tmpNeedsWiden, handled]
  · apply Exists.intro added
    constructor
    · exact extended
    · apply And.intro complete
      intro World machine tyenv state daddrScope _
      exact ⟨_, partCall_ranges vector sized _ _, emits World machine tyenv state⟩

/-- Every value that can be reported is. -/
theorem addEventDwGuarded_reports {size : Nat} (isWord : word = .i32 ∨ word = .i64)
    (storable : Storable sb.tyenv value)
    (sized : (typeOfIRAtom sb.tyenv value).bind sizeofIRType = some size)
    (isAddr : typeOfIRAtom sb.tyenv daddr = some word)
    (guardScope : (guardAtom guard).InScope sb.tyenv.length) :
    ∃ after, addEventDwGuarded word sb daddr size guard value = some after ∧
      ReportsWrite (wordBits word) sb after daddr size guard := by
  rcases storable_cases storable with ⟨width, typed⟩ | ⟨tmp, rfl, floating | ⟨type, vector, typed⟩⟩
  · simp only [typed, Option.bind_some, IntWidth.sizeof_type] at sized
    cases Option.some.inj sized
    exact addEventDwGuarded_width typed daddr guard
  · simp only [typeOfIRAtom, floating, Option.bind_some] at sized
    cases Option.some.inj sized
    exact addEventDwGuarded_converted .reinterpF64asI64 (by decide) floating (by decide) daddr guard
  · simp only [typeOfIRAtom, typed, Option.bind_some] at sized
    exact addEventDwGuarded_vector isWord vector typed sized isAddr guardScope

end Values

end PmDebugger
