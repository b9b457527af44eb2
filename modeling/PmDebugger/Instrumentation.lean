import PmDebugger.Library.Vex

/-!
# Instrumentation of client code

The tool sees the code of the client as superblocks, before they are translated. It copies every
block and puts calls of its own helpers behind the statements that write, flush or fence, so that
the events of the tracker are raised while the block runs. The functions below build the new block
statement by statement, as the source does. Failed assertions and panics have no result.

Two expressions of the source are not what they look like. The constant against which a
double-width compare-and-swap compares is a null pointer, and the address of its second word is the
address of the first expression moved by a number of expressions. What such a pointer reads is not
determined by the source, so it is a parameter.
-/

namespace PmDebugger

open Vex

/-- The helpers of the tool that are called from instrumented code. Nothing else of the tool
runs with the client. -/
inductive ToolCall where
  | tracePmemStore
  | addOneSBEntered
  | tracePmemFlush
  | doFence
deriving DecidableEq, Repr

/-- The settings that the instrumentation reads: whether flushes and fences of the instruction set
are recognised, and whether `clflush` is weakly ordered. -/
structure IsaOptions where
  automaticIsaRec : Bool
  weakClflush : Bool

/-- `MAX_DSIZE`. A write of more bytes fails an assertion. -/
def maxDsize : Nat := 256

/-- `make_expr`: assign the expression to a new temporary. The type that the caller names must
be that of the expression. -/
def makeExpr (sb : IRSB ToolCall) (ty : IRType) (e : IRExpr) : Option (IRAtom × IRSB ToolCall) :=
  if typeOfIRExpr sb.tyenv e = some ty then
    let (t, typed) := newIRTemp sb ty
    some (.rdTmp t, addStmtToIRSB typed (.wrTmp t e))
  else none

/-- `tmp_needs_widen`. These types are shorter than a word. -/
def tmpNeedsWiden : IRType → Bool
  | .i1 | .i8 | .i16 | .i32 => true
  | _ => false

/-- `const_needs_widen`. A constant of 64 bits is among them. -/
def constNeedsWiden : IRConst → Bool
  | .u1 _ | .u8 _ | .u16 _ | .u32 _ | .u64 _ => true
  | _ => false

/-- `widen_const`. Every constant goes through an unsigned integer of 32 bits. -/
def widenConst (hWordTy : IRType) : IRConst → Option IRAtom
  | .u1 value => some (mkIRExprHWord hWordTy value.toNat)
  | .u8 value => some (mkIRExprHWord hWordTy value.toNat)
  | .u16 value => some (mkIRExprHWord hWordTy value.toNat)
  | .u32 value => some (mkIRExprHWord hWordTy value.toNat)
  | .u64 value => some (mkIRExprHWord hWordTy (value.toNat % 2 ^ 32))
  | _ => none

/-- `widen_operation`. Other types panic. -/
def widenOperation : IRType → Option IROp
  | .i1 => some .u1to64
  | .i8 => some .u8to64
  | .i16 => some .u16to64
  | .i32 => some .u32to64
  | _ => none

/-- The byte orders of a store. The tool is asked for the little one only. -/
inductive IREndness where
  | le | be
deriving DecidableEq, Repr

/-- The operations and offsets into which `handle_wide_expr` cuts a vector. The parts are
listed as the source reports them. -/
def wideParts : IRType → IREndness → List (IROp × Nat)
  | .v256, .le => [(.v256to64 0, 0), (.v256to64 1, 8), (.v256to64 2, 16), (.v256to64 3, 24)]
  | .v256, .be => [(.v256to64 0, 24), (.v256to64 1, 16), (.v256to64 2, 8), (.v256to64 3, 0)]
  | .v128, .le => [(.v128to64, 0), (.v128HIto64, 8)]
  | .v128, .be => [(.v128to64, 8), (.v128HIto64, 0)]
  | _, _ => []

/-- The offset of a part, as a constant of the type of the address. An address is a word of 32
or of 64 bits. -/
def biasConst (tyAddr : IRType) (offs : Nat) : IRAtom :=
  if tyAddr = .i32 then .const (.u32 (BitVec.ofNat 32 offs))
  else .const (.u64 (BitVec.ofNat 64 offs))

/-- The addition for addresses of the type. -/
def mkAdd (tyAddr : IRType) : IROp :=
  if tyAddr = .i32 then .add32 else .add64

/-- The call that reports a store. Its arguments are the address, the size and the value, each
of them a word. -/
def traceStore (hWordTy : IRType) (daddr : IRAtom) (dsize : Nat) (guard : Option IRAtom)
    (value : IRAtom) : IRStmt ToolCall :=
  unsafeIRDirty0N .tracePmemStore [daddr, mkIRExprHWord hWordTy dsize, value] guard

/-- One turn of the loop in `handle_wide_expr`: the address of the part, its value, and the
call with both. -/
def widePart (hWordTy tyAddr : IRType) (addr data : IRAtom) (guard : Option IRAtom)
    (partSize : Nat) (sb : IRSB ToolCall) (part : IROp × Nat) : Option (IRSB ToolCall) := do
  let (partAddr, sb) ←
    makeExpr sb tyAddr (.binop (mkAdd tyAddr) (some addr) (some (biasConst tyAddr part.2)))
  let (partData, sb) ← makeExpr sb .i64 (.unop part.1 data)
  some (addStmtToIRSB sb (traceStore hWordTy partAddr partSize guard partData))

/-- `handle_wide_expr`: report a vector in parts of eight bytes. An address of another type
panics. -/
def handleWideExpr (hWordTy : IRType) (sb : IRSB ToolCall) (endness : IREndness)
    (addr data : IRAtom) (guard : Option IRAtom) (size : Nat) : Option (IRSB ToolCall) := do
  let ty ← typeOfIRAtom sb.tyenv data
  let tyAddr ← typeOfIRAtom sb.tyenv addr
  if tyAddr = .i32 ∨ tyAddr = .i64 then
    let parts := wideParts ty endness
    parts.foldlM (widePart hWordTy tyAddr addr data guard (size / parts.length)) sb
  else none

/-- `add_event_dw_guarded`: report a write, in the way that fits the value. A value of another kind
is not reported. -/
def addEventDwGuarded (hWordTy : IRType) (sb : IRSB ToolCall) (daddr : IRAtom) (dsize : Nat)
    (guard : Option IRAtom) (value : IRAtom) : Option (IRSB ToolCall) := do
  if 1 ≤ dsize ∧ dsize ≤ maxDsize then
    let type ← typeOfIRAtom sb.tyenv value
    match value with
    | .rdTmp tmp =>
        if type = .i64 then
          some (addStmtToIRSB sb (traceStore hWordTy daddr dsize guard value))
        else if type = .f64 then
          let (bits, sb) ← makeExpr sb .i64 (.unop .reinterpF64asI64 (.rdTmp tmp))
          some (addStmtToIRSB sb (traceStore hWordTy daddr dsize guard bits))
        else if tmpNeedsWiden type then
          let op ← widenOperation type
          let (wide, sb) ← makeExpr sb .i64 (.unop op (.rdTmp tmp))
          some (addStmtToIRSB sb (traceStore hWordTy daddr dsize guard wide))
        else if type = .v128 ∨ type = .v256 then
          handleWideExpr hWordTy sb .le daddr value guard dsize
        else some sb
    | .const con =>
        if constNeedsWiden con then
          let wide ← widenConst hWordTy con
          some (addStmtToIRSB sb (traceStore hWordTy daddr dsize guard wide))
        else if type = .v128 ∨ type = .v256 then
          handleWideExpr hWordTy sb .le daddr value guard dsize
        else some sb
  else none

/-- `add_event_dw`: report a write that is always made. -/
def addEventDw (hWordTy : IRType) (sb : IRSB ToolCall) (daddr : IRAtom) (dsize : Nat)
    (value : IRAtom) : Option (IRSB ToolCall) :=
  addEventDwGuarded hWordTy sb daddr dsize none value

/-- `add_flush_event`. Only the address is handed on, since a flush is one line. -/
def addFlushEvent (sb : IRSB ToolCall) (daddr : IRAtom) : IRSB ToolCall :=
  addStmtToIRSB sb (unsafeIRDirty0N .tracePmemFlush [daddr] none)

/-- `add_simple_event`: a call without arguments. -/
def addSimpleEvent (sb : IRSB ToolCall) (helper : ToolCall) : IRSB ToolCall :=
  addStmtToIRSB sb (unsafeIRDirty0N helper [] none)

/-- The width of the operations that a compare-and-swap needs; other types fail an assertion. -/
def casWidth : IRType → Option IntWidth
  | .i8 => some .w8
  | .i16 => some .w16
  | .i32 => some .w32
  | .i64 => some .w64
  | _ => none

section Instrument

variable (opts : IsaOptions) (hWordTy : IRType) (stray : IRAtom → Nat → Option IRAtom)

/-- The case of a compare-and-swap in `pmc_instrument`. The expression at `cas->addr + dataSize` is
given by `stray`, and fails the assertion on atoms where it gives none. -/
def instrumentCas (tyenv : List IRType) (sb : IRSB ToolCall) (cas : IRCAS) :
    Option (IRSB ToolCall) := do
  let dataTy ← typeOfIRAtom tyenv cas.dataLo
  let dataSize ← sizeofIRType dataTy
  let sb := addStmtToIRSB sb (.cas cas)
  let zero : Option IRAtom := none
  let loType ← typeOfIRAtom tyenv cas.expdLo
  let width ← casWidth loType
  match cas.high with
  | some high =>
      let (xHi, sb) ← makeExpr sb loType
        (.binop (.xor width) (some high.expdHi) (some (.rdTmp high.oldHi)))
      let (xLo, sb) ← makeExpr sb loType
        (.binop (.xor width) (some cas.expdLo) (some (.rdTmp cas.oldLo)))
      let (xHL, sb) ← makeExpr sb loType (.binop (.or width) (some xHi) (some xLo))
      let (guard, sb) ← makeExpr sb .i1 (.binop (.casCmpEQ width) (some xHL) zero)
      let sb ← addEventDwGuarded hWordTy sb cas.addr dataSize (some guard) cas.dataLo
      let second ← stray cas.addr dataSize
      addEventDwGuarded hWordTy sb second dataSize (some guard) high.dataHi
  | none =>
      let (guard, sb) ← makeExpr sb .i1
        (.binop (.casCmpEQ width) (some cas.expdLo) (some (.rdTmp cas.oldLo)))
      addEventDwGuarded hWordTy sb cas.addr dataSize (some guard) cas.dataLo

/-- One turn of the main loop of `pmc_instrument`. A statement is copied, and what it writes,
flushes or fences is reported behind it. -/
def instrumentStmt (tyenv : List IRType) (sb : IRSB ToolCall) (st : IRStmt ToolCall) :
    Option (IRSB ToolCall) :=
  match st with
  | .noOp => some sb
  | .iMark _ _ | .plain _ _ _ _ | .wrTmp _ _ | .exit _ | .dirty _ _ _ => some (addStmtToIRSB sb st)
  | .flush addr kind =>
      let sb := addStmtToIRSB sb st
      if opts.automaticIsaRec then do
        let _ ← typeOfIRAtom tyenv addr
        let sb := addFlushEvent sb addr
        if kind = .flush ∧ opts.weakClflush = false then some (addSimpleEvent sb .doFence)
        else some sb
      else some sb
  | .mbe event =>
      let sb := addStmtToIRSB sb st
      if opts.automaticIsaRec then
        match event with
        | .fence | .sFence => some (addSimpleEvent sb .doFence)
        | _ => some sb
      else some sb
  | .store addr data => do
      let sb := addStmtToIRSB sb st
      let type ← typeOfIRAtom tyenv data
      let size ← sizeofIRType type
      addEventDw hWordTy sb addr size data
  | .storeG addr data guard => do
      let sb := addStmtToIRSB sb st
      let type ← typeOfIRAtom tyenv data
      let size ← sizeofIRType type
      addEventDwGuarded hWordTy sb addr size (some guard) data
  | .cas details => instrumentCas hWordTy stray tyenv sb details
  | .llsc _ addr storedata =>
      let sb := addStmtToIRSB sb st
      match storedata with
      | none => some sb
      | some data => do
          let dataTy ← typeOfIRAtom tyenv data
          let size ← sizeofIRType dataTy
          addEventDw hWordTy sb addr size data

/-- A statement before the first instruction mark. Such statements are copied and nothing is
reported for them. -/
def beforeIMark : IRStmt ToolCall → Bool
  | .iMark _ _ => false
  | _ => true

/-- `pmc_instrument`. The new block begins with what stands before the first mark, counts the
superblock, and goes on with the instrumented rest. A host whose words are not those of the
guest panics. -/
def pmcInstrument (bb : IRSB ToolCall) (gWordTy : IRType) : Option (IRSB ToolCall) :=
  if gWordTy ≠ hWordTy then none
  else
    let sbOut : IRSB ToolCall := ⟨bb.tyenv, bb.stmts.takeWhile beforeIMark⟩
    let counted := addStmtToIRSB sbOut (unsafeIRDirty0N .addOneSBEntered [] none)
    (bb.stmts.dropWhile beforeIMark).foldlM (instrumentStmt opts hWordTy stray bb.tyenv) counted

end Instrument

end PmDebugger
