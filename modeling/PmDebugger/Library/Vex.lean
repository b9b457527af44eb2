import Mathlib.Data.Nat.ModEq
import Mathlib.Tactic.Common

/-!
# Superblocks of a binary translator

Superblocks in the intermediate representation of VEX: a straight line of statements over
temporaries that are assigned once, with side exits, guarded stores, compare-and-swap and calls
of helpers. The kind of the helpers is a parameter. Statements and expressions that a tool copies
without looking at them are kept as the temporaries that they read and assign, and a machine says
what they do.

Execution is given step by step, and its events are the ranges of memory that statements write
and the calls of helpers. A block with an operation on a null pointer has no execution. A statement
does the same from two states that agree on the temporaries in its scope, so new temporaries may be
added to a block.
-/

namespace Vex

/-- The types of expressions, as many as the instrumentation tells apart. -/
inductive IRType where
  | i1 | i8 | i16 | i32 | i64 | i128
  | f16 | f32 | f64 | f128
  | d32 | d64 | d128
  | v128 | v256
deriving DecidableEq, Repr

/-- `sizeofIRType`. A single bit has no size, and asking for it panics. -/
def sizeofIRType : IRType → Option Nat
  | .i1 => none
  | .i8 => some 1
  | .i16 | .f16 => some 2
  | .i32 | .f32 | .d32 => some 4
  | .i64 | .f64 | .d64 => some 8
  | .i128 | .f128 | .d128 | .v128 => some 16
  | .v256 => some 32

/-- The widths of the integer operations. One operation of the source is meant for each. -/
inductive IntWidth where
  | w8 | w16 | w32 | w64
deriving DecidableEq, Repr

namespace IntWidth

/-- The number of bytes. -/
def size : IntWidth → Nat
  | .w8 => 1
  | .w16 => 2
  | .w32 => 4
  | .w64 => 8

/-- The integer type of the width. -/
def type : IntWidth → IRType
  | .w8 => .i8
  | .w16 => .i16
  | .w32 => .i32
  | .w64 => .i64

/-- The type of an integer has its width. -/
@[simp] theorem sizeof_type (width : IntWidth) : sizeofIRType width.type = some width.size := by
  cases width <;> rfl

end IntWidth

/-- The constants. Floating point constants are given by their bits, vector constants by one bit
for each byte. -/
inductive IRConst where
  | u1 (value : Bool)
  | u8 (value : BitVec 8)
  | u16 (value : BitVec 16)
  | u32 (value : BitVec 32)
  | u64 (value : BitVec 64)
  | f32 (bits : BitVec 32)
  | f64 (bits : BitVec 64)
  | v128 (mask : BitVec 16)
  | v256 (mask : BitVec 32)
deriving DecidableEq, Repr

/-- The vector whose bytes are all ones where the mask has a bit. Constants of vectors are
given by such masks. -/
def maskValue {lanes : Nat} (mask : BitVec lanes) : Nat :=
  ((List.range lanes).map (fun lane => if mask.getLsbD lane then 255 * 256 ^ lane else 0)).sum

namespace IRConst

/-- `typeOfIRConst`. -/
def type : IRConst → IRType
  | .u1 _ => .i1
  | .u8 _ => .i8
  | .u16 _ => .i16
  | .u32 _ => .i32
  | .u64 _ => .i64
  | .f32 _ => .f32
  | .f64 _ => .f64
  | .v128 _ => .v128
  | .v256 _ => .v256

/-- The bits of the constant. -/
def value : IRConst → Nat
  | .u1 value => value.toNat
  | .u8 value => value.toNat
  | .u16 value => value.toNat
  | .u32 value => value.toNat
  | .u64 value => value.toNat
  | .f32 bits => bits.toNat
  | .f64 bits => bits.toNat
  | .v128 mask => maskValue mask
  | .v256 mask => maskValue mask

end IRConst

/-- The operations on the way from a value to the arguments of a helper. Others are not looked
into, and the client's own are among `other` expressions. -/
inductive IROp where
  | add32 | add64
  | xor (width : IntWidth)
  | or (width : IntWidth)
  | casCmpEQ (width : IntWidth)
  | reinterpF64asI64
  | u1to64 | u8to64 | u16to64 | u32to64
  | v128to64 | v128HIto64
  | v256to64 (lane : Fin 4)
deriving DecidableEq, Repr

namespace IROp

/-- The type of the result, as `typeOfPrimop` gives it. -/
def type : IROp → IRType
  | .add32 => .i32
  | .xor width | .or width => width.type
  | .casCmpEQ _ => .i1
  | .add64 | .reinterpF64asI64 | .u1to64 | .u8to64 | .u16to64 | .u32to64 | .v128to64
  | .v128HIto64 | .v256to64 _ => .i64

/-- The result of an operation with one operand. An operation that takes two has none. -/
def unary : IROp → Nat → Option Nat
  | .reinterpF64asI64, value => some (value % 2 ^ 64)
  | .u1to64, value => some (value % 2)
  | .u8to64, value => some (value % 2 ^ 8)
  | .u16to64, value => some (value % 2 ^ 16)
  | .u32to64, value => some (value % 2 ^ 32)
  | .v128to64, value => some (value % 2 ^ 64)
  | .v128HIto64, value => some (value / 2 ^ 64 % 2 ^ 64)
  | .v256to64 lane, value => some (value / 2 ^ (64 * lane.val) % 2 ^ 64)
  | _, _ => none

/-- The result of an operation with two operands. An operation that takes one has none. -/
def binary : IROp → Nat → Nat → Option Nat
  | .add32, left, right => some ((left + right) % 2 ^ 32)
  | .add64, left, right => some ((left + right) % 2 ^ 64)
  | .xor width, left, right => some ((left ^^^ right) % 2 ^ (8 * width.size))
  | .or width, left, right => some ((left ||| right) % 2 ^ (8 * width.size))
  | .casCmpEQ width, left, right =>
      some (if left % 2 ^ (8 * width.size) = right % 2 ^ (8 * width.size) then 1 else 0)
  | _, _, _ => none

end IROp

/-- Expressions without operations: temporaries and constants. Flat code has no others as
operands. -/
inductive IRAtom where
  | rdTmp (tmp : Nat)
  | const (con : IRConst)
deriving DecidableEq, Repr

/-- Expressions over atoms. The operands of an operation with two of them are pointers and may
be null. Every other expression is kept as what it reads. -/
inductive IRExpr where
  | atom (value : IRAtom)
  | unop (op : IROp) (arg : IRAtom)
  | binop (op : IROp) (arg1 arg2 : Option IRAtom)
  | other (type : IRType) (reads : List IRAtom) (code : Nat)
deriving DecidableEq, Repr

/-- `typeOfIRExpr` of an atom. A temporary that the block does not declare has no type. -/
def typeOfIRAtom (tyenv : List IRType) : IRAtom → Option IRType
  | .rdTmp tmp => tyenv[tmp]?
  | .const con => some con.type

/-- `typeOfIRExpr`. The operands of an operation do not matter, not even if one of them is
missing. -/
def typeOfIRExpr (tyenv : List IRType) : IRExpr → Option IRType
  | .atom value => typeOfIRAtom tyenv value
  | .unop op _ => some op.type
  | .binop op _ _ => some op.type
  | .other type _ _ => some type

/-- An expression whose operations have the operands that they need. A null operand makes it
incomplete. -/
def IRExpr.complete : IRExpr → Bool
  | .unop op _ => (op.unary 0).isSome
  | .binop op (some _) (some _) => (op.binary 0 0).isSome
  | .binop _ _ _ => false
  | .atom _ | .other _ _ _ => true

/-- The high half of a double-width compare-and-swap: where the old word goes, what is expected
and what is stored. -/
structure IRCASHigh where
  oldHi : Nat
  expdHi : IRAtom
  dataHi : IRAtom
deriving DecidableEq, Repr

/-- A compare-and-swap of one word or of two adjacent ones. It stores if memory holds what is
expected. -/
structure IRCAS where
  oldLo : Nat
  addr : IRAtom
  expdLo : IRAtom
  dataLo : IRAtom
  high : Option IRCASHigh
deriving DecidableEq, Repr

/-- Memory bus events. Two of them order stores. -/
inductive IRMBusEvent where
  | fence | cancelReservation | sFence | lFence
deriving DecidableEq, Repr

/-- Kinds of cache flushes. The kinds differ in how strongly they are ordered. -/
inductive IRFlushKind where
  | flush | flushopt | clwb
deriving DecidableEq, Repr

/-- Kinds of statements of which only the temporaries matter here. What they do to the world is
left to the machine, and they raise no event. -/
inductive PlainKind where
  | abiHint | put | putI | loadG | dirty
deriving DecidableEq, Repr

/-- Statements, with calls of helpers of the kind `κ`. The helpers are those that a tool adds. -/
inductive IRStmt (κ : Type) where
  | noOp
  | iMark (addr len : Nat)
  | plain (kind : PlainKind) (reads : List IRAtom) (dst : Option Nat) (code : Nat)
  | wrTmp (tmp : Nat) (data : IRExpr)
  | store (addr data : IRAtom)
  | storeG (addr data guard : IRAtom)
  | cas (details : IRCAS)
  | llsc (result : Nat) (addr : IRAtom) (storedata : Option IRAtom)
  | mbe (event : IRMBusEvent)
  | flush (addr : IRAtom) (kind : IRFlushKind)
  | exit (guard : IRAtom)
  | dirty (call : κ) (args : List IRAtom) (guard : IRAtom)
deriving DecidableEq, Repr

/-- A statement without null operands. Only assignments can have one. -/
def IRStmt.complete {κ : Type} : IRStmt κ → Bool
  | .wrTmp _ data => data.complete
  | _ => true

/-- An assignment is complete if its expression is. -/
@[simp] theorem IRStmt.complete_wrTmp {κ : Type} (tmp : Nat) (data : IRExpr) :
    (IRStmt.wrTmp tmp data : IRStmt κ).complete = data.complete := rfl

/-- A superblock: the types of its temporaries and its statements. It is entered at the top and
left at the end or at a side exit. -/
structure IRSB (κ : Type) where
  tyenv : List IRType
  stmts : List (IRStmt κ)
deriving DecidableEq, Repr

section Building

variable {κ : Type}

/-- `addStmtToIRSB`. Statements are added behind the others. -/
def addStmtToIRSB (sb : IRSB κ) (st : IRStmt κ) : IRSB κ :=
  { sb with stmts := sb.stmts ++ [st] }

/-- `newIRTemp`: the next temporary, of the given type. It is the number of those before it. -/
def newIRTemp (sb : IRSB κ) (type : IRType) : Nat × IRSB κ :=
  (sb.tyenv.length, { sb with tyenv := sb.tyenv ++ [type] })

/-- `mkIRExpr_HWord`: a constant of the word size of the host. The value is cut to that size. -/
def mkIRExprHWord (hWordTy : IRType) (value : Nat) : IRAtom :=
  if hWordTy = .i32 then .const (.u32 (BitVec.ofNat 32 value))
  else .const (.u64 (BitVec.ofNat 64 value))

/-- `unsafeIRDirty_0_N`: a call of a helper that is always made, unless the guard is replaced.
It reads its arguments and writes nothing that the client sees. -/
def unsafeIRDirty0N (call : κ) (args : List IRAtom) (guard : Option IRAtom) : IRStmt κ :=
  .dirty call args (guard.getD (.const (.u1 true)))

end Building

/-! ## Execution -/

/-- The machine on which a block runs: its memory, and what the statements and expressions do that
are kept as what they read. -/
structure Machine (World : Type) where
  load : World → Nat → Nat → Nat
  write : World → Nat → Nat → Nat → World
  reserved : World → Nat → Bool
  compute : Nat → List Nat → World → Nat
  act : Nat → List Nat → World → Nat × World

/-- The temporaries and the rest of the machine. The rest may be anything; a machine says how
it is read and written. -/
structure State (World : Type) where
  temps : Nat → Nat
  world : World

/-- What an execution shows: ranges of memory that one statement wrote, or the call of a helper. -/
inductive Event (κ : Type) where
  | wrote (ranges : List (Nat × Nat))
  | called (call : κ) (args : List Nat)
deriving DecidableEq, Repr

/-- The end of a part of an execution: the state, the events, and whether the block was left. -/
structure Outcome (World κ : Type) where
  state : State World
  events : List (Event κ)
  leaves : Bool

section Semantics

variable {World κ : Type}

namespace State

/-- The value of an atom. A temporary that was not assigned yet has whatever value the state
begins with. -/
def value (state : State World) : IRAtom → Nat
  | .rdTmp tmp => state.temps tmp
  | .const con => con.value

/-- Assign a temporary. The others keep their values. -/
def assign (tmp result : Nat) (state : State World) : State World :=
  { state with temps := fun other => if other = tmp then result else state.temps other }

/-- An assignment leaves the world as it is. -/
@[simp] theorem assign_world (tmp result : Nat) (state : State World) :
    (state.assign tmp result).world = state.world := rfl

/-- A temporary has the value that it was assigned. -/
@[simp] theorem assign_value_self (tmp result : Nat) (state : State World) :
    (state.assign tmp result).value (.rdTmp tmp) = result := by
  simp [value, assign]

/-- The other atoms keep their values. -/
theorem assign_value_other {tmp : Nat} {atom : IRAtom} (other : atom ≠ .rdTmp tmp) (result : Nat)
    (state : State World) : (state.assign tmp result).value atom = state.value atom := by
  cases atom with
  | rdTmp named =>
      have apart : named ≠ tmp := fun same => other (congrArg IRAtom.rdTmp same)
      simp [value, assign, apart]
  | const con => rfl

end State

namespace Machine

variable (machine : Machine World)

/-- The value of an expression. A null operand has none, and nothing is said about running a
block with one. -/
def eval (state : State World) : IRExpr → Option Nat
  | .atom value => some (state.value value)
  | .unop op arg => op.unary (state.value arg)
  | .binop op (some arg1) (some arg2) => op.binary (state.value arg1) (state.value arg2)
  | .binop _ _ _ => none
  | .other _ reads code => some (machine.compute code (reads.map state.value) state.world)

/-- Write a value of that many bytes. Only the world changes. -/
def put (addr size result : Nat) (state : State World) : State World :=
  { state with world := machine.write state.world addr size result }

/-- A write to memory changes no atom. -/
@[simp] theorem put_value (addr size result : Nat) (state : State World) (atom : IRAtom) :
    (machine.put addr size result state).value atom = state.value atom := by
  cases atom <;> rfl

/-- A compare-and-swap of words of that many bytes. The old words are assigned in any case, and
the new ones are written if all of the old are as expected. -/
def execCas (details : IRCAS) (size : Nat) (state : State World) : Outcome World κ :=
  let addr := state.value details.addr
  let old := machine.load state.world addr size % 2 ^ (8 * size)
  let read := state.assign details.oldLo old
  match details.high with
  | none =>
      if old = state.value details.expdLo % 2 ^ (8 * size) then
        ⟨machine.put addr size (state.value details.dataLo) read, [.wrote [(addr, size)]], false⟩
      else ⟨read, [], false⟩
  | some high =>
      let oldHi := machine.load state.world (addr + size) size % 2 ^ (8 * size)
      let both := read.assign high.oldHi oldHi
      if old = state.value details.expdLo % 2 ^ (8 * size) ∧
          oldHi = state.value high.expdHi % 2 ^ (8 * size) then
        ⟨machine.put (addr + size) size (state.value high.dataHi)
          (machine.put addr size (state.value details.dataLo) both),
          [.wrote [(addr, size), (addr + size, size)]], false⟩
      else ⟨both, [], false⟩

/-- The number of bytes of an atom, where its type has one. -/
def sizeofAtom (tyenv : List IRType) (atom : IRAtom) : Option Nat :=
  (typeOfIRAtom tyenv atom).bind sizeofIRType

/-- The execution of a statement. What it writes and what it calls comes out as events, in
their order. -/
def exec (tyenv : List IRType) (state : State World) : IRStmt κ → Option (Outcome World κ)
  | .noOp | .iMark _ _ | .mbe _ | .flush _ _ => some ⟨state, [], false⟩
  | .plain _ reads dst code =>
      let (result, world) := machine.act code (reads.map state.value) state.world
      let assigned := match dst with
        | none => state
        | some tmp => state.assign tmp result
      some ⟨{ assigned with world := world }, [], false⟩
  | .wrTmp tmp data =>
      (machine.eval state data).map (fun result => ⟨state.assign tmp result, [], false⟩)
  | .store addr data =>
      (sizeofAtom tyenv data).map (fun size =>
        ⟨machine.put (state.value addr) size (state.value data) state,
          [.wrote [(state.value addr, size)]], false⟩)
  | .storeG addr data guard =>
      (sizeofAtom tyenv data).map (fun size =>
        if state.value guard ≠ 0 then
          ⟨machine.put (state.value addr) size (state.value data) state,
            [.wrote [(state.value addr, size)]], false⟩
        else ⟨state, [], false⟩)
  | .cas details =>
      (sizeofAtom tyenv details.dataLo).map (fun size => machine.execCas details size state)
  | .llsc result addr none =>
      (tyenv[result]?.bind sizeofIRType).map (fun size =>
        ⟨state.assign result (machine.load state.world (state.value addr) size), [], false⟩)
  | .llsc result addr (some data) =>
      (sizeofAtom tyenv data).map (fun size =>
        if machine.reserved state.world (state.value addr) then
          ⟨(machine.put (state.value addr) size (state.value data) state).assign result 1,
            [.wrote [(state.value addr, size)]], false⟩
        else ⟨state.assign result 0, [], false⟩)
  | .exit guard => some ⟨state, [], decide (state.value guard ≠ 0)⟩
  | .dirty call args guard =>
      some ⟨state, if state.value guard ≠ 0 then [.called call (args.map state.value)] else [],
        false⟩

/-- The execution of statements up to a side exit. Statements behind an exit that is taken are
not executed. -/
def run (tyenv : List IRType) : List (IRStmt κ) → State World → Option (Outcome World κ)
  | [], state => some ⟨state, [], false⟩
  | stmt :: rest, state =>
      (machine.exec tyenv state stmt).bind (fun first =>
        if first.leaves then some first
        else (run tyenv rest first.state).map (fun later =>
          { later with events := first.events ++ later.events }))

/-- The execution of a block. All its statements are walked over when it is translated, so a block
with a null operand is never run. -/
def runBlock (block : IRSB κ) (state : State World) : Option (Outcome World κ) :=
  if block.stmts.all IRStmt.complete then machine.run block.tyenv block.stmts state else none

end Machine

end Semantics

/-! ## Scope -/

namespace IRAtom

/-- An atom that reads none but the first temporaries. Those are the temporaries of the client;
later ones belong to a tool. -/
def InScope (count : Nat) : IRAtom → Prop
  | .rdTmp tmp => tmp < count
  | .const _ => True

instance (count : Nat) : DecidablePred (InScope count)
  | .rdTmp tmp => inferInstanceAs (Decidable (tmp < count))
  | .const _ => inferInstanceAs (Decidable True)

end IRAtom

/-- The atoms that an expression reads, null operands left out. -/
def IRExpr.reads : IRExpr → List IRAtom
  | .atom value => [value]
  | .unop _ arg => [arg]
  | .binop _ arg1 arg2 => arg1.toList ++ arg2.toList
  | .other _ reads _ => reads

/-- The high half of a compare-and-swap reads what it expects and what it stores. -/
def IRCASHigh.reads (high : IRCASHigh) : List IRAtom := [high.expdHi, high.dataHi]

/-- The atoms that a compare-and-swap reads: address, expected and stored words. -/
def IRCAS.reads (details : IRCAS) : List IRAtom :=
  [details.addr, details.expdLo, details.dataLo] ++ (details.high.map IRCASHigh.reads).getD []

/-- The temporaries that a compare-and-swap assigns: the old words. -/
def IRCAS.assigns (details : IRCAS) : List Nat :=
  details.oldLo :: (details.high.map IRCASHigh.oldHi).toList

namespace IRStmt

variable {κ : Type}

/-- The atoms that a statement reads, with the guard if it has one. -/
def reads : IRStmt κ → List IRAtom
  | .noOp | .iMark _ _ | .mbe _ => []
  | .plain _ reads _ _ => reads
  | .wrTmp _ data => data.reads
  | .store addr data => [addr, data]
  | .storeG addr data guard => [addr, data, guard]
  | .cas details => details.reads
  | .llsc _ addr storedata => addr :: storedata.toList
  | .flush addr _ => [addr]
  | .exit guard => [guard]
  | .dirty _ args guard => guard :: args

/-- The temporaries that a statement assigns. In flat code a statement reads none of these. -/
def assigns : IRStmt κ → List Nat
  | .plain _ _ dst _ => dst.toList
  | .wrTmp tmp _ => [tmp]
  | .cas details => details.assigns
  | .llsc result _ _ => [result]
  | _ => []

/-- A statement of a block with that many temporaries: it names only these, and as every temporary
is assigned once and read later, it reads none of those it assigns. -/
structure WellScoped (count : Nat) (stmt : IRStmt κ) : Prop where
  reads : ∀ atom ∈ stmt.reads, atom.InScope count
  assigns : ∀ tmp ∈ stmt.assigns, tmp < count
  once : ∀ tmp ∈ stmt.assigns, IRAtom.rdTmp tmp ∉ stmt.reads

instance (count : Nat) (stmt : IRStmt κ) : Decidable (stmt.WellScoped count) :=
  decidable_of_iff ((∀ atom ∈ stmt.reads, atom.InScope count) ∧
    (∀ tmp ∈ stmt.assigns, tmp < count) ∧ ∀ tmp ∈ stmt.assigns, IRAtom.rdTmp tmp ∉ stmt.reads)
    ⟨fun holds => ⟨holds.1, holds.2.1, holds.2.2⟩, fun named =>
      ⟨named.reads, named.assigns, named.once⟩⟩

end IRStmt

section Agreement

variable {World κ : Type}

/-- Two states that differ at most in later temporaries. To the client they are one state. -/
structure Agree (count : Nat) (first second : State World) : Prop where
  world : second.world = first.world
  temps : ∀ tmp, tmp < count → second.temps tmp = first.temps tmp

namespace Agree

variable {count : Nat} {first second third : State World}

/-- A state agrees with itself. -/
theorem refl (count : Nat) (state : State World) : Agree count state state :=
  ⟨rfl, fun _ _ => rfl⟩

/-- Agreement goes from state to state. -/
theorem trans (left : Agree count first second) (right : Agree count second third) :
    Agree count first third where
  world := right.world.trans left.world
  temps := by
    intro tmp early
    exact (right.temps tmp early).trans (left.temps tmp early)

/-- States that agree on more temporaries agree on fewer. -/
theorem mono {fewer : Nat} (agree : Agree count first second) (fits : fewer ≤ count) :
    Agree fewer first second :=
  ⟨agree.world, fun tmp early => agree.temps tmp (by omega)⟩

/-- Assigning a later temporary is not seen. -/
theorem assign_later (agree : Agree count first second) {tmp : Nat} (later : count ≤ tmp)
    (result : Nat) : Agree count first (second.assign tmp result) where
  world := agree.world
  temps := by
    intro other early
    simp only [State.assign, if_neg (show other ≠ tmp by omega)]
    exact agree.temps other early

/-- The same assignment keeps the agreement. -/
theorem assign (agree : Agree count first second) (tmp result : Nat) :
    Agree count (first.assign tmp result) (second.assign tmp result) where
  world := agree.world
  temps := by
    intro other early
    simp only [State.assign]
    split
    · rfl
    · exact agree.temps other early

/-- An atom in scope has the same value. -/
theorem value (agree : Agree count first second) {atom : IRAtom} (inScope : atom.InScope count) :
    second.value atom = first.value atom := by
  cases atom with
  | rdTmp tmp => exact agree.temps tmp inScope
  | const con => rfl

/-- States that agree give a list of atoms in scope the same values. -/
theorem values (agree : Agree count first second) {atoms : List IRAtom}
    (inScope : ∀ atom ∈ atoms, atom.InScope count) :
    atoms.map second.value = atoms.map first.value :=
  List.map_congr_left (fun atom member => agree.value (inScope atom member))

/-- The same write keeps the agreement. -/
theorem put (machine : Machine World) (agree : Agree count first second)
    (addr size result : Nat) :
    Agree count (machine.put addr size result first) (machine.put addr size result second) where
  world := by simp only [Machine.put, agree.world]
  temps := agree.temps

end Agree

/-- The type of an atom stays when temporaries are added. -/
theorem typeOfIRAtom_mono {tyenv larger : List IRType} (fits : tyenv <+: larger) {atom : IRAtom}
    {type : IRType} (typed : typeOfIRAtom tyenv atom = some type) :
    typeOfIRAtom larger atom = some type := by
  obtain ⟨more, rfl⟩ := fits
  cases atom with
  | rdTmp tmp =>
      have early : tmp < tyenv.length := (List.getElem?_eq_some_iff.mp typed).1
      exact (List.getElem?_append_left early).trans typed
  | const con => exact typed

/-- An atom in scope has a type. -/
theorem type_of_inScope {tyenv : List IRType} {atom : IRAtom}
    (inScope : atom.InScope tyenv.length) : ∃ type, typeOfIRAtom tyenv atom = some type := by
  cases atom with
  | rdTmp tmp => exact ⟨tyenv[tmp], List.getElem?_eq_getElem inScope⟩
  | const con => exact ⟨con.type, rfl⟩

/-- The type of an atom in scope does not depend on later temporaries. -/
theorem typeOfIRAtom_append (tyenv more : List IRType) {atom : IRAtom}
    (inScope : atom.InScope tyenv.length) :
    typeOfIRAtom (tyenv ++ more) atom = typeOfIRAtom tyenv atom := by
  obtain ⟨type, typed⟩ := type_of_inScope inScope
  rw [typed]
  exact typeOfIRAtom_mono (List.prefix_append tyenv more) typed

/-- What has a type is in scope. -/
theorem inScope_of_type {tyenv : List IRType} {atom : IRAtom} {type : IRType}
    (typed : typeOfIRAtom tyenv atom = some type) : atom.InScope tyenv.length := by
  cases atom with
  | rdTmp tmp => exact (List.getElem?_eq_some_iff.mp typed).1
  | const con => trivial

namespace Machine

variable (machine : Machine World)

/-- Executing one statement. -/
theorem run_singleton (tyenv : List IRType) (stmt : IRStmt κ) (state : State World) :
    machine.run tyenv [stmt] state = machine.exec tyenv state stmt := by
  simp only [run]
  cases machine.exec tyenv state stmt with
  | none => rfl
  | some first =>
      obtain ⟨after, events, leaves⟩ := first
      cases leaves <;> simp

/-- Executing a statement that does not leave the block, and the rest. -/
theorem run_cons {tyenv : List IRType} {stmt : IRStmt κ} {rest : List (IRStmt κ)}
    {state : State World} {first : Outcome World κ}
    (executed : machine.exec tyenv state stmt = some first) (stays : first.leaves = false) :
    machine.run tyenv (stmt :: rest) state = (machine.run tyenv rest first.state).map (fun later =>
      { later with events := first.events ++ later.events }) := by
  simp [run, executed, stays]

/-- Executing one list of statements after another. -/
theorem run_append (tyenv : List IRType) (before after : List (IRStmt κ)) (state : State World) :
    machine.run tyenv (before ++ after) state = (machine.run tyenv before state).bind (fun first =>
      if first.leaves then some first
      else (machine.run tyenv after first.state).map (fun later =>
        { later with events := first.events ++ later.events })) := by
  induction before generalizing state with
  | nil =>
      cases machine.run tyenv after state with
      | none => simp [run]
      | some later => simp [run]
  | cons stmt rest inductionHypothesis =>
      simp only [List.cons_append, run]
      cases machine.exec tyenv state stmt with
      | none => rfl
      | some first =>
          simp only [Option.bind_some]
          split
          · simp [*]
          · rw [inductionHypothesis]
            cases machine.run tyenv rest first.state with
            | none => rfl
            | some second =>
                simp only [Option.bind_some, Option.map_some]
                split
                · simp
                · cases machine.run tyenv after second.state with
                  | none => rfl
                  | some later => simp

/-- A complete expression has a value. -/
theorem eval_complete (state : State World) {data : IRExpr} (complete : data.complete = true) :
    ∃ result, machine.eval state data = some result := by
  cases data with
  | atom value => exact ⟨_, rfl⟩
  | other type reads code => exact ⟨_, rfl⟩
  | unop op arg =>
      cases op <;> first | exact ⟨_, rfl⟩ | cases complete
  | binop op arg1 arg2 =>
      cases arg1 with
      | none => cases complete
      | some left =>
          cases arg2 with
          | none => cases complete
          | some right => cases op <;> first | exact ⟨_, rfl⟩ | cases complete

/-- An expression in scope has the same value in states that agree. -/
theorem eval_agree {count : Nat} {first second : State World} (agree : Agree count first second)
    {data : IRExpr} (inScope : ∀ atom ∈ data.reads, atom.InScope count) :
    machine.eval second data = machine.eval first data := by
  cases data with
  | atom value => simp [eval, agree.value (inScope value (by simp [IRExpr.reads]))]
  | unop op arg => simp [eval, agree.value (inScope arg (by simp [IRExpr.reads]))]
  | binop op arg1 arg2 =>
      cases arg1 with
      | none => rfl
      | some left =>
          cases arg2 with
          | none => rfl
          | some right =>
              simp [eval, agree.value (inScope left (by simp [IRExpr.reads])),
                agree.value (inScope right (by simp [IRExpr.reads]))]
  | other type reads code =>
      have same : reads.map second.value = reads.map first.value := agree.values inScope
      simp only [eval, same, agree.world]

end Machine

/-- Two ends with the same events whose states agree, and which leave the block in the same
way. -/
structure Matches (count : Nat) (first second : Outcome World κ) : Prop where
  state : Agree count first.state second.state
  events : second.events = first.events
  leaves : second.leaves = first.leaves

namespace Machine

variable (machine : Machine World)

/-- The size of an atom in scope does not depend on later temporaries. -/
theorem sizeofAtom_append (tyenv more : List IRType) {atom : IRAtom}
    (inScope : atom.InScope tyenv.length) :
    sizeofAtom (tyenv ++ more) atom = sizeofAtom tyenv atom := by
  simp only [sizeofAtom, typeOfIRAtom_append tyenv more inScope]

/-- A compare-and-swap does the same in states that agree. -/
theorem execCas_agree {count : Nat} {first second : State World}
    (agree : Agree count first second) {details : IRCAS}
    (inScope : ∀ atom ∈ details.reads, atom.InScope count) (size : Nat) :
    Matches count (machine.execCas details size first : Outcome World κ)
      (machine.execCas details size second) := by
  obtain ⟨oldLo, addr, expdLo, dataLo, high⟩ := details
  have sameAddr := agree.value (inScope addr (by simp [IRCAS.reads]))
  have sameExpd := agree.value (inScope expdLo (by simp [IRCAS.reads]))
  have sameData := agree.value (inScope dataLo (by simp [IRCAS.reads]))
  cases high with
  | none =>
      simp only [execCas, sameAddr, sameExpd, sameData, agree.world]
      split
      · exact ⟨(agree.assign _ _).put machine _ _ _, rfl, rfl⟩
      · exact ⟨agree.assign _ _, rfl, rfl⟩
  | some high =>
      have sameExpdHi := agree.value (inScope high.expdHi (by simp [IRCAS.reads, IRCASHigh.reads]))
      have sameDataHi := agree.value (inScope high.dataHi (by simp [IRCAS.reads, IRCASHigh.reads]))
      simp only [execCas, sameAddr, sameExpd, sameData, sameExpdHi, sameDataHi, agree.world]
      split
      · constructor
        · exact (((agree.assign _ _).assign _ _).put machine _ _ _).put machine _ _ _
        · rfl
        · rfl
      · exact ⟨(agree.assign _ _).assign _ _, rfl, rfl⟩

/-- A statement of the block does the same in states that agree, also when temporaries were added
to the block. -/
theorem exec_agree (tyenv more : List IRType) {stmt : IRStmt κ}
    (named : stmt.WellScoped tyenv.length) {first second : State World}
    (agree : Agree tyenv.length first second) {ending : Outcome World κ}
    (executed : machine.exec tyenv first stmt = some ending) :
    ∃ other, machine.exec (tyenv ++ more) second stmt = some other ∧
      Matches tyenv.length ending other := by
  have inScope := named.reads
  cases stmt with
  | noOp | iMark _ _ | mbe _ | flush _ _ =>
      cases Option.some.inj executed
      exact ⟨_, rfl, agree, rfl, rfl⟩
  | plain kind reads dst code =>
      have same : reads.map second.value = reads.map first.value := agree.values inScope
      cases Option.some.inj executed
      constructor
      constructor
      · rfl
      · simp only [same, agree.world]
        cases dst with
        | none => exact ⟨⟨rfl, agree.temps⟩, rfl, rfl⟩
        | some tmp => exact ⟨⟨rfl, (agree.assign tmp _).temps⟩, rfl, rfl⟩
  | wrTmp tmp data =>
      obtain ⟨result, evaluated, rfl⟩ := Option.map_eq_some_iff.mp executed
      constructor
      constructor
      · simp only [exec, machine.eval_agree agree inScope, evaluated, Option.map_some]
        rfl
      · exact ⟨agree.assign tmp result, rfl, rfl⟩
  | store addr data =>
      obtain ⟨size, sized, rfl⟩ := Option.map_eq_some_iff.mp executed
      have addrScope := inScope addr (by simp [IRStmt.reads])
      have dataScope := inScope data (by simp [IRStmt.reads])
      constructor
      constructor
      · simp only [exec, sizeofAtom_append tyenv more dataScope, sized, Option.map_some]
        rfl
      · simp only [agree.value addrScope, agree.value dataScope]
        exact ⟨agree.put machine _ _ _, rfl, rfl⟩
  | storeG addr data guard =>
      obtain ⟨size, sized, rfl⟩ := Option.map_eq_some_iff.mp executed
      have addrScope := inScope addr (by simp [IRStmt.reads])
      have dataScope := inScope data (by simp [IRStmt.reads])
      have guardScope := inScope guard (by simp [IRStmt.reads])
      constructor
      constructor
      · simp only [exec, sizeofAtom_append tyenv more dataScope, sized, Option.map_some]
        rfl
      · simp only [agree.value addrScope, agree.value dataScope, agree.value guardScope]
        split
        · exact ⟨agree.put machine _ _ _, rfl, rfl⟩
        · exact ⟨agree, rfl, rfl⟩
  | cas details =>
      obtain ⟨size, sized, rfl⟩ := Option.map_eq_some_iff.mp executed
      have dataScope := inScope details.dataLo (by simp [IRStmt.reads, IRCAS.reads])
      constructor
      constructor
      · simp only [exec, sizeofAtom_append tyenv more dataScope, sized, Option.map_some]
        rfl
      · exact machine.execCas_agree agree inScope size
  | llsc result addr storedata =>
      have addrScope := inScope addr (by simp [IRStmt.reads])
      cases storedata with
      | none =>
          obtain ⟨size, sized, rfl⟩ := Option.map_eq_some_iff.mp executed
          have early : result < tyenv.length := named.assigns result (by simp [IRStmt.assigns])
          constructor
          constructor
          · simp only [exec, List.getElem?_append_left early, sized, Option.map_some]
            rfl
          · simp only [agree.value addrScope, agree.world]
            exact ⟨agree.assign _ _, rfl, rfl⟩
      | some data =>
          obtain ⟨size, sized, rfl⟩ := Option.map_eq_some_iff.mp executed
          have dataScope := inScope data (by simp [IRStmt.reads])
          constructor
          constructor
          · simp only [exec, sizeofAtom_append tyenv more dataScope, sized, Option.map_some]
            rfl
          · simp only [agree.value addrScope, agree.value dataScope, agree.world]
            split
            · exact ⟨(agree.put machine _ _ _).assign _ _, rfl, rfl⟩
            · exact ⟨agree.assign _ _, rfl, rfl⟩
  | exit guard =>
      cases Option.some.inj executed
      have guardScope := inScope guard (by simp [IRStmt.reads])
      constructor
      constructor
      · rfl
      · simp only [agree.value guardScope]
        exact ⟨agree, rfl, rfl⟩
  | dirty call args guard =>
      cases Option.some.inj executed
      have guardScope := inScope guard (by simp [IRStmt.reads])
      have same : args.map second.value = args.map first.value :=
        agree.values (fun atom member => inScope atom (by simp [IRStmt.reads, member]))
      constructor
      constructor
      · rfl
      · simp only [agree.value guardScope, same]
        exact ⟨agree, rfl, rfl⟩

/-- Statements of the block do the same in states that agree, also when temporaries were added to
the block. -/
theorem run_agree (tyenv more : List IRType) {stmts : List (IRStmt κ)}
    (named : ∀ stmt ∈ stmts, stmt.WellScoped tyenv.length) {first second : State World}
    (agree : Agree tyenv.length first second) {ending : Outcome World κ}
    (executed : machine.run tyenv stmts first = some ending) :
    ∃ other, machine.run (tyenv ++ more) stmts second = some other ∧
      Matches tyenv.length ending other := by
  induction stmts generalizing first second ending with
  | nil =>
      cases Option.some.inj executed
      exact ⟨_, rfl, agree, rfl, rfl⟩
  | cons stmt rest inductionHypothesis =>
      obtain ⟨step, stepped, followed⟩ := Option.bind_eq_some_iff.mp executed
      obtain ⟨other, repeated, same⟩ :=
        machine.exec_agree tyenv more (named stmt (by simp)) agree stepped
      simp only [run, repeated, Option.bind_some, same.leaves]
      split at followed
      · cases Option.some.inj followed
        exact ⟨other, by simp [*], same⟩
      · obtain ⟨later, ran, rfl⟩ := Option.map_eq_some_iff.mp followed
        obtain ⟨last, reran, alike⟩ :=
          inductionHypothesis (fun stmt member => named stmt (by simp [member])) same.state ran
        simp only [*, Option.map_some]
        exact ⟨_, rfl, alike.state, by simp [alike.events, same.events], alike.leaves⟩

end Machine

end Agreement

/-! ## Added statements -/

section Additions

variable {World κ : Type}

/-- A block that was built from another one by adding statements and temporaries. What was
there before is untouched. -/
structure Extends (before after : IRSB κ) (added : List (IRStmt κ)) : Prop where
  stmts : after.stmts = before.stmts ++ added
  tyenv : before.tyenv <+: after.tyenv

namespace Extends

variable {first second third : IRSB κ} {left right : List (IRStmt κ)}

/-- A block extends itself by nothing. -/
theorem refl (sb : IRSB κ) : Extends sb sb [] :=
  ⟨by simp, List.prefix_rfl⟩

/-- An extension of an extension has the statements of both. -/
theorem trans (early : Extends first second left) (late : Extends second third right) :
    Extends first third (left ++ right) where
  stmts := by simp [late.stmts, early.stmts]
  tyenv := early.tyenv.trans late.tyenv

/-- One statement extends a block. -/
theorem addStmt (sb : IRSB κ) (st : IRStmt κ) : Extends sb (addStmtToIRSB sb st) [st] :=
  ⟨rfl, List.prefix_rfl⟩

end Extends

namespace Machine

variable (machine : Machine World)

/-- Statements that change nothing but later temporaries and make these events. They can be put
between the client's statements unseen. -/
def Emits (tyenv : List IRType) (count : Nat) (added : List (IRStmt κ)) (state : State World)
    (events : List (Event κ)) : Prop :=
  ∃ after, machine.run tyenv added state = some ⟨after, events, false⟩ ∧ Agree count state after

variable {machine} {tyenv : List IRType} {count : Nat} {state : State World}

/-- No statement emits nothing. -/
theorem Emits.nil : machine.Emits tyenv count ([] : List (IRStmt κ)) state [] :=
  ⟨state, rfl, Agree.refl count state⟩

/-- The events of a call. -/
theorem Emits.call (call : κ) (args : List IRAtom) (guard : IRAtom) :
    machine.Emits tyenv count [.dirty call args guard] state
      (if state.value guard ≠ 0 then [.called call (args.map state.value)] else []) := by
  apply Exists.intro state
  constructor
  · simp [run, exec]
  · exact Agree.refl count state

/-- Assigning a later temporary first. -/
theorem Emits.assign {tmp result : Nat} {data : IRExpr} {rest : List (IRStmt κ)}
    {events : List (Event κ)} (later : count ≤ tmp)
      (evaluated : machine.eval state data = some result)
    (emits : machine.Emits tyenv count rest (state.assign tmp result) events) :
    machine.Emits tyenv count (.wrTmp tmp data :: rest) state events := by
  obtain ⟨after, ran, agree⟩ := emits
  apply Exists.intro after
  constructor
  · simp [run, exec, evaluated, ran]
  · exact ((Agree.refl count state).assign_later later result).trans agree

/-- One list of added statements after another. -/
theorem Emits.append {left right : List (IRStmt κ)} {early late : List (Event κ)}
    (first : machine.Emits tyenv count left state early)
    (second : ∀ next, Agree count state next → machine.Emits tyenv count right next late) :
    machine.Emits tyenv count (left ++ right) state (early ++ late) := by
  obtain ⟨middle, ran, agree⟩ := first
  obtain ⟨after, followed, kept⟩ := second middle agree
  apply Exists.intro after
  constructor
  · simp [run_append, ran, followed]
  · exact agree.trans kept

end Machine

end Additions

/-! ## Ranges of memory -/

/-- The bytes of a range in a memory of that many address bits. A range may wrap round. -/
def rangeBytes (bits : Nat) (range : Nat × Nat) : List Nat :=
  (List.range range.2).map (fun offset => (range.1 + offset) % 2 ^ bits)

/-- The bytes of a range in an address space of so many bits, which may wrap round. -/
theorem mem_rangeBytes {bits byte : Nat} {range : Nat × Nat} :
    byte ∈ rangeBytes bits range ↔ ∃ offset, offset < range.2 ∧
      (range.1 + offset) % 2 ^ bits = byte := by
  simp [rangeBytes]

/-- Ranges that have no byte in common and together have the bytes of the others. -/
def Partition (bits : Nat) (parts wholes : List (Nat × Nat)) : Prop :=
  parts.Pairwise (fun left right => (rangeBytes bits left).Disjoint (rangeBytes bits right)) ∧
    ∀ byte, (∃ part ∈ parts, byte ∈ rangeBytes bits part) ↔
      ∃ whole ∈ wholes, byte ∈ rangeBytes bits whole

namespace Partition

variable {bits : Nat}

/-- A range is a partition of itself. -/
theorem single (range : Nat × Nat) : Partition bits [range] [range] :=
  ⟨List.pairwise_singleton _ _, fun _ => Iff.rfl⟩

/-- A range with a byte is not partitioned into nothing. -/
theorem ne_nil {parts wholes : List (Nat × Nat)} (partition : Partition bits parts wholes)
    {whole : Nat × Nat} (member : whole ∈ wholes) (nonempty : 0 < whole.2) : parts ≠ [] := by
  rintro rfl
  have covered := (partition.2 (whole.1 % 2 ^ bits)).mpr
    ⟨whole, member, mem_rangeBytes.mpr ⟨0, nonempty, rfl⟩⟩
  simp at covered

/-- Offsets within the memory that lead from one address to the same byte are the same. -/
theorem offset_unique {addr left right : Nat} (leftFits : left < 2 ^ bits)
    (rightFits : right < 2 ^ bits) (same : (addr + left) % 2 ^ bits = (addr + right) % 2 ^ bits) :
    left = right := by
  have congruent : left ≡ right [MOD 2 ^ bits] := Nat.ModEq.add_left_cancel' addr same
  exact Nat.ModEq.eq_of_lt_of_lt congruent leftFits rightFits

/-- Consecutive pieces of one size are a partition of the whole. -/
theorem pieces (addr piece count : Nat) (fits : piece * count ≤ 2 ^ bits) :
    Partition bits
      ((List.range count).map (fun index => ((addr + piece * index) % 2 ^ bits, piece)))
      [(addr, piece * count)] := by
  constructor
  · rw [List.pairwise_map]
    apply List.pairwise_lt_range.imp_of_mem
    intro left right leftMember rightMember less byte inLeft inRight
    obtain ⟨near, nearFits, nearIs⟩ := mem_rangeBytes.mp inLeft
    obtain ⟨far, farFits, farIs⟩ := mem_rangeBytes.mp inRight
    simp only [Nat.mod_add_mod, Nat.add_assoc] at nearIs farIs
    have before : piece * (left + 1) ≤ piece * right := Nat.mul_le_mul_left piece less
    have within : piece * (right + 1) ≤ piece * count :=
      Nat.mul_le_mul_left piece (List.mem_range.mp rightMember)
    simp only [Nat.mul_add, Nat.mul_one] at before within
    have same := offset_unique (by omega) (by omega) (nearIs.trans farIs.symm)
    simp only at nearFits farFits
    omega
  · intro byte
    simp only [List.mem_map, List.mem_range, List.mem_singleton, exists_eq_left, mem_rangeBytes]
    constructor
    · rintro ⟨_, ⟨index, early, rfl⟩, offset, fitsPiece, rfl⟩
      have within : piece * (index + 1) ≤ piece * count := Nat.mul_le_mul_left piece early
      simp only [Nat.mul_add, Nat.mul_one] at within
      exact ⟨piece * index + offset, by simp only at fitsPiece ⊢; omega, by simp [Nat.add_assoc]⟩
    · rintro ⟨offset, fitsWhole, rfl⟩
      have positive : 0 < piece := Nat.pos_of_ne_zero (by rintro rfl; simp at fitsWhole)
      apply Exists.intro ((addr + piece * (offset / piece)) % 2 ^ bits, piece)
      constructor
      · exact ⟨offset / piece, Nat.div_lt_of_lt_mul fitsWhole, rfl⟩
      · apply Exists.intro (offset % piece)
        constructor
        · exact Nat.mod_lt offset positive
        · simp only [Nat.mod_add_mod, Nat.add_assoc, Nat.div_add_mod]

end Partition

end Vex
