import PmDebugger.TracedWrites

/-!
# Runs of instrumented code

The block that `pmc_instrument` returns is compared with the block of the client over executions of
both from states that agree on the temporaries of the client. The log of the one may be read off the
log of the other: every write is followed at once by the calls of `trace_pmem_store` that report it,
and there are no other calls of that helper.

For one statement this is shown here, with the exception of a double-width compare-and-swap: behind
it stands an operation on a null pointer.
-/

namespace PmDebugger

open Vex

/-- A double-width compare-and-swap, which writes two words at once. -/
def doubleWidth : IRStmt ToolCall → Bool
  | .cas details => details.high.isSome
  | _ => false

/-- The statements for which the calls are meant, with what VEX checks of them: operations have
their operands, addresses are words, and stored values can be reported. Blocks of the client have no
calls of the tool yet, and linked loads and conditional stores are left out. -/
def WellTyped (word : IRType) (tyenv : List IRType) : IRStmt ToolCall → Prop
  | .store addr data => typeOfIRAtom tyenv addr = some word ∧ Storable tyenv data
  | .storeG addr data _ => typeOfIRAtom tyenv addr = some word ∧ Storable tyenv data
  | .cas details =>
      typeOfIRAtom tyenv details.addr = some word ∧ ∃ width : IntWidth,
        typeOfIRAtom tyenv details.expdLo = some width.type ∧
        typeOfIRAtom tyenv details.dataLo = some width.type ∧
        ∀ high ∈ details.high, typeOfIRAtom tyenv high.expdHi = some width.type ∧
          typeOfIRAtom tyenv high.dataHi = some width.type
  | .wrTmp _ data => data.complete = true
  | .llsc _ _ _ | .dirty _ _ _ => False
  | _ => True

/-- A block of the client. Its statements use the temporaries that it declares, and what they
write is of a type that the tool can report. -/
structure ClientBlock (word : IRType) (bb : IRSB ToolCall) : Prop where
  isWord : word = .i32 ∨ word = .i64
  named : ∀ st ∈ bb.stmts, st.WellScoped bb.tyenv.length
  typed : ∀ st ∈ bb.stmts, WellTyped word bb.tyenv st

/-- The second log is the first one with the calls of the tool: every write is followed by calls
that partition it, and the other calls report no store. -/
inductive Reported (bits : Nat) : List (Event ToolCall) → List (Event ToolCall) → Prop
  | nil : Reported bits [] []
  | silent {call : ToolCall} {args : List Nat} {log told : List (Event ToolCall)} :
      call ≠ .tracePmemStore → Reported bits log told →
      Reported bits log (.called call args :: told)
  | wrote {ranges : List (Nat × Nat)} {calls : List StoreCall} {log told : List (Event ToolCall)} :
      Partition bits (calls.map StoreCall.range) ranges → Reported bits log told →
      Reported bits (.wrote ranges :: log) (.wrote ranges :: (calls.map StoreCall.event ++ told))

/-- Logs may be told one after the other. -/
theorem Reported.append {bits : Nat} {log told more moreTold : List (Event ToolCall)}
    (first : Reported bits log told) (second : Reported bits more moreTold) :
    Reported bits (log ++ more) (told ++ moreTold) := by
  induction first with
  | nil => exact second
  | silent other _ inductionHypothesis => exact .silent other inductionHypothesis
  | wrote partition _ inductionHypothesis =>
      simp only [List.cons_append, List.append_assoc]
      exact .wrote partition inductionHypothesis

section Outcomes

variable {World : Type}

/-- The end of an instrumented execution tells that of the other one. The writes are the same,
and behind each of them the calls report its bytes. -/
structure Tells (bits count : Nat) (ending other : Outcome World ToolCall) : Prop where
  state : Agree count ending.state other.state
  events : Reported bits ending.events other.events
  leaves : other.leaves = ending.leaves

/-- Both blocks have an execution from the state, and that of the instrumented one tells the
other. -/
def Reports (machine : Machine World) (bits : Nat) (bb output : IRSB ToolCall)
    (start : State World) : Prop :=
  ∃ ending other, machine.runBlock bb start = some ending ∧
    machine.runBlock output start = some other ∧ Tells bits bb.tyenv.length ending other

/-- An execution of a block that has no double-width compare-and-swap after the first instruction
mark, and that writes nothing before it. -/
def reportable (machine : Machine World) (bb : IRSB ToolCall) (start : State World) : Bool :=
  (bb.stmts.dropWhile beforeIMark).all (fun st => !doubleWidth st) &&
    match machine.run bb.tyenv (bb.stmts.takeWhile beforeIMark) start with
    | none => false
    | some first => first.events.isEmpty

end Outcomes

/-! ## One statement -/

/-- The statements that were added for one statement of the client do what it does and tell it. -/
def Transcribes (bits : Nat) (tyenv : List IRType) (st : IRStmt ToolCall)
    (added : List (IRStmt ToolCall)) : Prop :=
  ∀ (World : Type) (machine : Machine World) (more : List IRType) (first second : State World)
    (ending : Outcome World ToolCall), Agree tyenv.length first second →
    machine.exec tyenv first st = some ending →
    ∃ other, machine.run (tyenv ++ more) added second = some other ∧
      Tells bits tyenv.length ending other

section Statements

variable {bits : Nat} {tyenv : List IRType} {st : IRStmt ToolCall}

/-- The statements with events of their own. All others are copied and that is all. -/
def hasEvents : IRStmt ToolCall → Bool
  | .store _ _ | .storeG _ _ _ | .cas _ | .llsc _ _ _ | .dirty _ _ _ => true
  | _ => false

/-- The other statements have none. -/
theorem exec_quiet {World : Type} {machine : Machine World} {state : State World}
    {ending : Outcome World ToolCall} (quiet : hasEvents st = false)
    (executed : machine.exec tyenv state st = some ending) : ending.events = [] := by
  cases st with
  | noOp | iMark _ _ | plain _ _ _ _ | exit _ | flush _ _ | mbe _ =>
      cases Option.some.inj executed
      rfl
  | wrTmp tmp data =>
      obtain ⟨result, _, rfl⟩ := Option.map_eq_some_iff.mp executed
      rfl
  | store _ _ | storeG _ _ _ | cas _ | llsc _ _ _ | dirty _ _ _ => cases quiet

/-- A statement without events is told by its copy. -/
theorem transcribes_copy (named : st.WellScoped tyenv.length) (quiet : hasEvents st = false) :
    Transcribes bits tyenv st [st] := by
  intro World machine more first second ending agree executed
  obtain ⟨other, repeated, same⟩ := machine.exec_agree tyenv more named agree executed
  have nothing : ending.events = [] := exec_quiet quiet executed
  apply Exists.intro other
  constructor
  · exact (machine.run_singleton _ st second).trans repeated
  · constructor
    · exact same.state
    · rw [same.events, nothing]
      exact .nil
    · exact same.leaves

/-- A further call that reports no store. -/
theorem Transcribes.call {added : List (IRStmt ToolCall)} (told : Transcribes bits tyenv st added)
    {call : ToolCall} (other : call ≠ .tracePmemStore) (args : List IRAtom) :
    Transcribes bits tyenv st (added ++ [unsafeIRDirty0N call args none]) := by
  intro World machine more first second ending agree executed
  obtain ⟨middle, ran, tells⟩ := told World machine more first second ending agree executed
  simp only [Machine.run_append, ran, Option.bind_some]
  split
  · exact ⟨middle, rfl, tells⟩
  · apply Exists.intro ⟨middle.state, middle.events ++ [.called call (args.map middle.state.value)],
      false⟩
    constructor
    · simp [Machine.run, Machine.exec, unsafeIRDirty0N, State.value, IRConst.value]
    · constructor
      · exact tells.state
      · simpa using tells.events.append (.silent other .nil)
      · rw [← tells.leaves]
        simp [*]

/-- A statement that writes one range when its guard holds. The guard and the address are read in
the state after the statement and the statements that compute the guard. -/
def WritesWhen (tyenv : List IRType) (lead : List (IRStmt ToolCall)) (st : IRStmt ToolCall)
    (daddr : IRAtom) (size : Nat) (guard : Option IRAtom) : Prop :=
  ∀ (World : Type) (machine : Machine World) (more : List IRType) (first second : State World)
    (ending : Outcome World ToolCall), Agree tyenv.length first second →
    machine.exec tyenv first st = some ending →
    ∃ middle, machine.run (tyenv ++ more) lead second = some ⟨middle, ending.events, false⟩ ∧
      Agree tyenv.length ending.state middle ∧ ending.leaves = false ∧
      ending.events = if middle.value (guardAtom guard) ≠ 0
        then [.wrote [(middle.value daddr, size)]] else []

/-- The calls behind such a statement tell it. -/
theorem WritesWhen.transcribed {lead : List (IRStmt ToolCall)} {daddr : IRAtom} {size : Nat}
    {guard : Option IRAtom} (writes : WritesWhen tyenv lead st daddr size guard)
    {sb after : IRSB ToolCall} (fits : tyenv.length ≤ sb.tyenv.length)
    (daddrScope : daddr.InScope sb.tyenv.length)
    (guardScope : (guardAtom guard).InScope sb.tyenv.length)
    (reports : ReportsWrite bits sb after daddr size guard) :
    ∃ added, Extends sb after added ∧ (∀ st ∈ added, st.complete = true) ∧
      Transcribes bits tyenv st (lead ++ added) := by
  obtain ⟨added, extended, complete, emits⟩ := reports
  apply Exists.intro added
  constructor
  · exact extended
  · apply And.intro complete
    intro World machine more first second ending agree executed
    obtain ⟨middle, ran, same, stays, wrote⟩ :=
      writes World machine more first second ending agree executed
    obtain ⟨calls, partition, after, followed, kept⟩ :=
      emits World machine (tyenv ++ more) middle daddrScope guardScope
    apply Exists.intro ⟨after, ending.events ++ guardedEvents middle guard calls, false⟩
    constructor
    · simp [Machine.run_append, ran, followed]
    · constructor
      · exact same.trans (kept.mono fits)
      · simp only [wrote, guardedEvents]
        split
        · simpa using Reported.wrote partition .nil
        · exact .nil
      · exact stays.symm

/-- A statement whose guard is a value of the client needs no further statements. -/
theorem writesWhen_copy {daddr : IRAtom} {size : Nat} {guard : Option IRAtom}
    (named : st.WellScoped tyenv.length) (daddrScope : daddr.InScope tyenv.length)
    (guardScope : (guardAtom guard).InScope tyenv.length)
    (shape : ∀ (World : Type) (machine : Machine World) (state : State World) ending,
      machine.exec tyenv state st = some ending → ending.leaves = false ∧
        ending.events = if ending.state.value (guardAtom guard) ≠ 0
          then [.wrote [(ending.state.value daddr, size)]] else []) :
    WritesWhen tyenv [st] st daddr size guard := by
  intro World machine more first second ending agree executed
  obtain ⟨other, repeated, same⟩ := machine.exec_agree tyenv more named agree executed
  obtain ⟨stays, wrote⟩ := shape World machine first ending executed
  have noLeave : other.leaves = false := same.leaves.trans stays
  apply Exists.intro other.state
  constructor
  · rw [Machine.run_singleton, repeated, ← same.events, ← noLeave]
  · rw [same.state.value daddrScope, same.state.value guardScope]
    exact ⟨same.state, stays, wrote⟩

/-- An unguarded store. -/
theorem store_writesWhen {addr data : IRAtom} {size : Nat}
    (named : (IRStmt.store addr data : IRStmt ToolCall).WellScoped tyenv.length)
    (sized : Machine.sizeofAtom tyenv data = some size) :
    WritesWhen tyenv [.store addr data] (.store addr data) addr size none := by
  have guardScope : (guardAtom none).InScope tyenv.length := trivial
  apply writesWhen_copy named (named.reads addr (by simp [IRStmt.reads])) guardScope
  intro World machine state ending executed
  simp only [Machine.exec, sized, Option.map_some, Option.some.injEq] at executed
  subst executed
  simp

/-- A guarded store. -/
theorem storeG_writesWhen {addr data guard : IRAtom} {size : Nat}
    (named : (IRStmt.storeG addr data guard : IRStmt ToolCall).WellScoped tyenv.length)
    (sized : Machine.sizeofAtom tyenv data = some size) :
    WritesWhen tyenv [.storeG addr data guard] (.storeG addr data guard) addr size
      (some guard) := by
  have guardScope : (guardAtom (some guard)).InScope tyenv.length :=
    named.reads guard (by simp [IRStmt.reads])
  apply writesWhen_copy named (named.reads addr (by simp [IRStmt.reads])) guardScope
  intro World machine state ending executed
  simp only [Machine.exec, sized, Option.map_some, Option.some.injEq] at executed
  subst executed
  split <;> simp_all

/-- A compare-and-swap of one word, in terms of the state after it. It reads none of the temporaries
that it assigns. -/
theorem execCas_single {World : Type} (machine : Machine World) (state : State World)
    {details : IRCAS} (size : Nat) (single : details.high = none)
    (addrOther : details.addr ≠ .rdTmp details.oldLo)
    (expdOther : details.expdLo ≠ .rdTmp details.oldLo) {ending : Outcome World ToolCall}
    (executed : machine.execCas details size state = ending) :
    ending.leaves = false ∧
      ending.events =
        if ending.state.value details.expdLo % 2 ^ (8 * size) =
            ending.state.value (.rdTmp details.oldLo) % 2 ^ (8 * size)
        then [.wrote [(ending.state.value details.addr, size)]] else [] := by
  simp only [Machine.execCas, single] at executed
  split at executed <;> subst executed
  · simp [State.assign_value_other addrOther, State.assign_value_other expdOther, *]
  · rename_i differs
    simp [State.assign_value_other expdOther, Ne.symm differs]

/-- A compare-and-swap of one word, with the comparison that the tool puts behind it. -/
theorem cas_writesWhen {details : IRCAS} {width : IntWidth} {next : Nat}
    (named : (IRStmt.cas details : IRStmt ToolCall).WellScoped tyenv.length)
    (single : details.high = none)
    (sized : Machine.sizeofAtom tyenv details.dataLo = some width.size)
    (later : tyenv.length ≤ next) :
    WritesWhen tyenv
      [.cas details, .wrTmp next
        (.binop (.casCmpEQ width) (some details.expdLo) (some (.rdTmp details.oldLo)))]
      (.cas details) details.addr width.size (some (.rdTmp next)) := by
  intro World machine more first second ending agree executed
  obtain ⟨other, repeated, same⟩ := machine.exec_agree tyenv more named agree executed
  have addrScope := named.reads details.addr (by simp [IRStmt.reads, IRCAS.reads])
  have expdScope := named.reads details.expdLo (by simp [IRStmt.reads, IRCAS.reads])
  have oldEarly := named.assigns details.oldLo (by simp [IRStmt.assigns, IRCAS.assigns])
  have unread := named.once details.oldLo (by simp [IRStmt.assigns, IRCAS.assigns])
  simp only [IRStmt.reads, IRCAS.reads, List.mem_append, List.mem_cons, not_or] at unread
  simp only [Machine.exec, sized, Option.map_some, Option.some.injEq] at executed
  obtain ⟨stays, wrote⟩ := execCas_single machine first width.size single (Ne.symm unread.1.1)
    (Ne.symm unread.1.2.1) executed
  have oldScope : (IRAtom.rdTmp details.oldLo).InScope tyenv.length := oldEarly
  have noLeave : other.leaves = false := same.leaves.trans stays
  obtain ⟨result, evaluated, meaning⟩ : ∃ result, machine.eval other.state
      (.binop (.casCmpEQ width) (some details.expdLo) (some (.rdTmp details.oldLo))) =
        some result ∧
      (result ≠ 0 ↔ ending.state.value details.expdLo % 2 ^ (8 * width.size) =
        ending.state.value (.rdTmp details.oldLo) % 2 ^ (8 * width.size)) := by
    simp only [Machine.eval, IROp.binary, same.state.value expdScope, same.state.value oldScope,
      Option.some.injEq, exists_eq_left']
    split <;> simp [*]
  have addrOther : details.addr ≠ .rdTmp next := by
    intro clash
    rw [clash] at addrScope
    exact absurd addrScope (Nat.not_lt.mpr later)
  apply Exists.intro (other.state.assign next result)
  constructor
  · rw [machine.run_cons repeated noLeave, Machine.run_singleton]
    simp only [Machine.exec, evaluated, Option.map_some, same.events, List.append_nil]
  · constructor
    · exact same.state.assign_later later result
    · constructor
      · exact stays
      · simp only [wrote, guardAtom_some, State.assign_value_self, meaning,
          State.assign_value_other addrOther, same.state.value addrScope]

/-- The statements that compare both words of a double-width compare-and-swap, with a null
pointer in the last one. -/
def doubleComparison (details : IRCAS) (high : IRCASHigh) (width : IntWidth) (next : Nat) :
    List (IRStmt ToolCall) :=
  [.wrTmp next (.binop (.xor width) (some high.expdHi) (some (.rdTmp high.oldHi))),
    .wrTmp (next + 1) (.binop (.xor width) (some details.expdLo) (some (.rdTmp details.oldLo))),
    .wrTmp (next + 2) (.binop (.or width) (some (.rdTmp next)) (some (.rdTmp (next + 1)))),
    .wrTmp (next + 3) (.binop (.casCmpEQ width) (some (.rdTmp (next + 2))) none)]

end Statements

/-! ## One turn of the loop -/

/-- The statements that are not skipped. The source drops those that do nothing. -/
def kept (stmts : List (IRStmt ToolCall)) : List (IRStmt ToolCall) :=
  stmts.filter (fun st => decide (st ≠ .noOp))

/-- A statement is kept or left out. -/
theorem kept_sublist (st : IRStmt ToolCall) (rest : List (IRStmt ToolCall)) :
    (kept [st]).Sublist (st :: rest) :=
  List.filter_sublist.trans (List.singleton_sublist.mpr (by simp))

/-- The block was extended by a copy of the statement and calls that tell it. -/
def Instruments (bits : Nat) (tyenv : List IRType) (st : IRStmt ToolCall)
    (sb after : IRSB ToolCall) : Prop :=
  ∃ added, Extends sb after added ∧ (kept [st]).Sublist added ∧
    (∀ stmt ∈ added, stmt.complete = true) ∧ Transcribes bits tyenv st added

section Turns

variable {bits : Nat} {tyenv : List IRType} {st : IRStmt ToolCall} {sb after : IRSB ToolCall}

/-- The statements of the client have their operands. -/
theorem wellTyped_complete {word : IRType} (typed : WellTyped word tyenv st) :
    st.complete = true := by
  cases st with
  | wrTmp tmp data => exact typed
  | noOp | iMark _ _ | plain _ _ _ _ | exit _ | flush _ _ | mbe _ | store _ _ | storeG _ _ _ | cas _
  | llsc _ _ _ | dirty _ _ _ => rfl

/-- A statement without events is copied. -/
theorem instruments_copy {word : IRType} (named : st.WellScoped tyenv.length)
    (typed : WellTyped word tyenv st) (quiet : hasEvents st = false) :
    Instruments bits tyenv st sb (addStmtToIRSB sb st) := by
  apply Exists.intro [st]
  constructor
  · exact Extends.addStmt sb st
  · constructor
    · exact kept_sublist st []
    · constructor
      · simp [wellTyped_complete typed]
      · exact transcribes_copy named quiet

/-- Calls that trace no store may follow. -/
theorem Instruments.call (copied : Instruments bits tyenv st sb after) {call : ToolCall}
    (other : call ≠ .tracePmemStore) (args : List IRAtom) :
    Instruments bits tyenv st sb (addStmtToIRSB after (unsafeIRDirty0N call args none)) := by
  obtain ⟨added, extended, sublist, complete, told⟩ := copied
  apply Exists.intro (added ++ [unsafeIRDirty0N call args none])
  constructor
  · exact extended.trans (Extends.addStmt after _)
  · constructor
    · exact sublist.trans (List.sublist_append_left _ _)
    · constructor
      · intro stmt member
        rcases List.mem_append.mp member with early | last
        · exact complete stmt early
        · cases List.mem_singleton.mp last
          rfl
      · exact told.call other args

/-- A statement that writes, with the calls that report it. -/
theorem instruments_writes {word : IRType} {lead : List (IRStmt ToolCall)} {middle : IRSB ToolCall}
    {daddr : IRAtom} {size : Nat} {guard : Option IRAtom}
    (writes : WritesWhen tyenv (st :: lead) st daddr size guard)
    (isAddr : typeOfIRAtom tyenv daddr = some word) (fits : tyenv <+: sb.tyenv)
    (extended : Extends sb middle (st :: lead))
    (leadComplete : ∀ stmt ∈ st :: lead, stmt.complete = true)
    (guardScope : (guardAtom guard).InScope middle.tyenv.length)
    (reports : ReportsWrite bits middle after daddr size guard) :
    Instruments bits tyenv st sb after := by
  have larger : tyenv <+: middle.tyenv := fits.trans extended.tyenv
  obtain ⟨added, further, complete, told⟩ := writes.transcribed larger.length_le
    (inScope_of_type (typeOfIRAtom_mono larger isAddr)) guardScope reports
  apply Exists.intro (st :: lead ++ added)
  constructor
  · exact extended.trans further
  · constructor
    · exact kept_sublist st _
    · constructor
      · intro stmt member
        rcases List.mem_append.mp member with early | late
        · exact leadComplete stmt early
        · exact complete stmt late
      · exact told

end Turns

section Loop

variable {opts : IsaOptions} {word : IRType} {stray : IRAtom → Nat → Option IRAtom}
variable {tyenv : List IRType} {sb : IRSB ToolCall}

/-- A value that can be reported still can when temporaries are added. -/
theorem storable_mono {larger : List IRType} (fits : tyenv <+: larger) {value : IRAtom}
    (storable : Storable tyenv value) : Storable larger value := by
  cases value with
  | const con => exact storable
  | rdTmp tmp =>
      obtain ⟨type, member, typed⟩ := storable
      exact ⟨type, member, typeOfIRAtom_mono fits
        (show typeOfIRAtom tyenv (.rdTmp tmp) = _ from typed)⟩

/-- A value that can be reported has a size. -/
theorem storable_sized {value : IRAtom} (storable : Storable tyenv value) :
    ∃ type size, typeOfIRAtom tyenv value = some type ∧ sizeofIRType type = some size := by
  rcases storable_cases storable with ⟨width, typed⟩ | ⟨tmp, rfl, typed | ⟨type, rfl | rfl, typed⟩⟩
  · exact ⟨width.type, width.size, typed, width.sizeof_type⟩
  · exact ⟨.f64, 8, typed, rfl⟩
  · exact ⟨.v128, 16, typed, rfl⟩
  · exact ⟨.v256, 32, typed, rfl⟩

/-- A store, with or without a guard, in the loop. -/
theorem store_instruments {addr data : IRAtom} {guard : Option IRAtom} {st : IRStmt ToolCall}
    {type : IRType} {size : Nat} (isWord : word = .i32 ∨ word = .i64) (fits : tyenv <+: sb.tyenv)
    (isAddr : typeOfIRAtom tyenv addr = some word) (storable : Storable tyenv data)
    (typed : typeOfIRAtom tyenv data = some type) (sized : sizeofIRType type = some size)
    (complete : st.complete = true) (guardScope : (guardAtom guard).InScope sb.tyenv.length)
    (writes : WritesWhen tyenv [st] st addr size guard) :
    ∃ after, addEventDwGuarded word (addStmtToIRSB sb st) addr size guard data = some after ∧
      Instruments (wordBits word) tyenv st sb after := by
  have larger : tyenv <+: (addStmtToIRSB sb st).tyenv := fits
  have stillSized : (typeOfIRAtom (addStmtToIRSB sb st).tyenv data).bind sizeofIRType =
      some size := by
    rw [typeOfIRAtom_mono larger typed]
    exact sized
  obtain ⟨after, built, reports⟩ := addEventDwGuarded_reports isWord (storable_mono larger storable)
    stillSized (typeOfIRAtom_mono larger isAddr) guardScope
  have alone : ∀ stmt ∈ [st], stmt.complete = true := by simp [complete]
  exact ⟨after, built,
    instruments_writes writes isAddr fits (Extends.addStmt sb st) alone guardScope reports⟩

/-- The operations for a compare-and-swap of a width exist. -/
theorem casWidth_type (width : IntWidth) : casWidth width.type = some width := by
  cases width <;> rfl

/-- A compare-and-swap of one word in the loop. -/
theorem cas_instruments {details : IRCAS} {width : IntWidth}
    (fits : tyenv <+: sb.tyenv)
    (named : (IRStmt.cas details : IRStmt ToolCall).WellScoped tyenv.length)
    (single : details.high = none) (isAddr : typeOfIRAtom tyenv details.addr = some word)
    (expdTyped : typeOfIRAtom tyenv details.expdLo = some width.type)
    (dataTyped : typeOfIRAtom tyenv details.dataLo = some width.type) :
    ∃ after, instrumentCas word stray tyenv sb details = some after ∧
      Instruments (wordBits word) tyenv (.cas details) sb after := by
  have sized : Machine.sizeofAtom tyenv details.dataLo = some width.size := by
    simp [Machine.sizeofAtom, dataTyped]
  have extended : Extends sb
      ⟨sb.tyenv ++ [.i1], sb.stmts ++ [.cas details] ++ [.wrTmp sb.tyenv.length
        (.binop (.casCmpEQ width) (some details.expdLo) (some (.rdTmp details.oldLo)))]⟩
      [.cas details, .wrTmp sb.tyenv.length
        (.binop (.casCmpEQ width) (some details.expdLo) (some (.rdTmp details.oldLo)))] :=
    ⟨by simp, List.prefix_append _ _⟩
  obtain ⟨after, built, reports⟩ := addEventDwGuarded_width
    (typeOfIRAtom_mono (fits.trans extended.tyenv) dataTyped) details.addr
    (some (.rdTmp sb.tyenv.length))
  apply Exists.intro after
  constructor
  · simpa [instrumentCas, dataTyped, expdTyped, casWidth_type, single, makeExpr, typeOfIRExpr,
      IROp.type, newIRTemp, addStmtToIRSB] using built
  · apply instruments_writes _ isAddr fits extended _ _ reports
    · exact cas_writesWhen named single sized fits.length_le
    · simp [IRStmt.complete, IRExpr.complete, IROp.binary]
    · simp [IRAtom.InScope]

/-- Reporting an integer only adds statements, whatever the address is. -/
theorem addEventDwGuarded_extends {width : IntWidth} {value daddr : IRAtom} {guard : Option IRAtom}
    {after : IRSB ToolCall} (typed : typeOfIRAtom sb.tyenv value = some width.type)
    (built : addEventDwGuarded word sb daddr width.size guard value = some after) :
    ∃ added, Extends sb after added := by
  obtain ⟨result, same, added, extended, _⟩ := @addEventDwGuarded_width word sb value width typed
    daddr guard
  cases Option.some.inj (built.symm.trans same)
  exact ⟨added, extended⟩

/-- A double-width compare-and-swap in the loop. The block that is built has an operation on a null
pointer. -/
theorem cas_incomplete {details : IRCAS} {high : IRCASHigh} {width : IntWidth}
    {after : IRSB ToolCall} (fits : tyenv <+: sb.tyenv) (double : details.high = some high)
    (expdTyped : typeOfIRAtom tyenv details.expdLo = some width.type)
    (dataTyped : typeOfIRAtom tyenv details.dataLo = some width.type)
    (highTyped : typeOfIRAtom tyenv high.dataHi = some width.type)
    (built : instrumentCas word stray tyenv sb details = some after) :
    ∃ added, Extends sb after added ∧ ∃ st ∈ added, st.complete = false := by
  have compared : Extends sb
      ⟨sb.tyenv ++ [width.type, width.type, width.type, .i1],
        sb.stmts ++ .cas details :: doubleComparison details high width sb.tyenv.length⟩
      (.cas details :: doubleComparison details high width sb.tyenv.length) :=
    ⟨rfl, List.prefix_append _ _⟩
  simp only [instrumentCas, dataTyped, expdTyped, casWidth_type, double, makeExpr, typeOfIRExpr,
    IROp.type, newIRTemp, addStmtToIRSB, IntWidth.sizeof_type, Option.bind_eq_bind,
    Option.bind_some, if_true, List.length_append, List.length_cons, List.length_nil,
    List.append_assoc, List.cons_append, List.nil_append] at built
  obtain ⟨middle, firstBuilt, followed⟩ := Option.bind_eq_some_iff.mp built
  obtain ⟨second, strayed, secondBuilt⟩ := Option.bind_eq_some_iff.mp followed
  obtain ⟨first, firstExtended⟩ := addEventDwGuarded_extends
    (typeOfIRAtom_mono (fits.trans compared.tyenv) dataTyped) firstBuilt
  have larger : tyenv <+: middle.tyenv := fits.trans (compared.tyenv.trans firstExtended.tyenv)
  obtain ⟨last, lastExtended⟩ := addEventDwGuarded_extends (typeOfIRAtom_mono larger highTyped)
    secondBuilt
  apply Exists.intro
    (.cas details :: doubleComparison details high width sb.tyenv.length ++ (first ++ last))
  constructor
  · exact compared.trans (firstExtended.trans lastExtended)
  · apply Exists.intro (.wrTmp (sb.tyenv.length + 3)
      (.binop (.casCmpEQ width) (some (.rdTmp (sb.tyenv.length + 2))) none))
    constructor
    · simp [doubleComparison]
    · rfl

/-- One turn of the loop for a statement that is not a double-width compare-and-swap. -/
theorem instrumentStmt_instruments {st : IRStmt ToolCall} (isWord : word = .i32 ∨ word = .i64)
    (fits : tyenv <+: sb.tyenv) (named : st.WellScoped tyenv.length)
    (typed : WellTyped word tyenv st) (single : doubleWidth st = false) :
    ∃ after, instrumentStmt opts word stray tyenv sb st = some after ∧
      Instruments (wordBits word) tyenv st sb after := by
  cases st with
  | noOp =>
      apply Exists.intro sb
      constructor
      · rfl
      · apply Exists.intro []
        constructor
        · exact Extends.refl sb
        · constructor
          · exact List.Sublist.slnil
          · constructor
            · simp
            · intro World machine more first second ending agree executed
              cases Option.some.inj executed
              exact ⟨_, rfl, agree, .nil, rfl⟩
  | iMark _ _ | plain _ _ _ _ | wrTmp _ _ | exit _ =>
    exact ⟨_, rfl, instruments_copy named typed rfl⟩
  | flush addr kind =>
      have copied : Instruments (wordBits word) tyenv (.flush addr kind) sb _ :=
        instruments_copy named typed rfl
      obtain ⟨type, addrTyped⟩ := type_of_inScope (named.reads addr (by simp [IRStmt.reads]))
      have flushed : Instruments (wordBits word) tyenv _ sb (addFlushEvent _ addr) :=
        copied.call (by decide) [addr]
      simp only [instrumentStmt, addrTyped, Option.bind_eq_bind, Option.bind_some]
      split
      · split
        · exact ⟨_, rfl, flushed.call (by decide) []⟩
        · exact ⟨_, rfl, flushed⟩
      · exact ⟨_, rfl, copied⟩
  | mbe event =>
      have copied : Instruments (wordBits word) tyenv (.mbe event) sb _ :=
        instruments_copy named typed rfl
      simp only [instrumentStmt]
      split
      · split
        · exact ⟨_, rfl, copied.call (by decide) []⟩
        · exact ⟨_, rfl, copied.call (by decide) []⟩
        · exact ⟨_, rfl, copied⟩
      · exact ⟨_, rfl, copied⟩
  | store addr data =>
      obtain ⟨isAddr, storable⟩ := typed
      obtain ⟨type, size, dataTyped, sized⟩ := storable_sized storable
      have atomSized : Machine.sizeofAtom tyenv data = some size := by
        simp [Machine.sizeofAtom, dataTyped, sized]
      obtain ⟨after, built, instruments⟩ := store_instruments isWord fits isAddr storable dataTyped
        sized rfl (show (guardAtom none).InScope sb.tyenv.length from trivial)
        (store_writesWhen named atomSized)
      refine ⟨after, ?_, instruments⟩
      simpa [instrumentStmt, addEventDw, dataTyped, sized] using built
  | storeG addr data guard =>
      obtain ⟨isAddr, storable⟩ := typed
      obtain ⟨type, size, dataTyped, sized⟩ := storable_sized storable
      have atomSized : Machine.sizeofAtom tyenv data = some size := by
        simp [Machine.sizeofAtom, dataTyped, sized]
      obtain ⟨guardType, guardTyped⟩ := type_of_inScope (named.reads guard (by simp [IRStmt.reads]))
      obtain ⟨after, built, instruments⟩ := store_instruments isWord fits isAddr storable dataTyped
        sized rfl (show (guardAtom (some guard)).InScope sb.tyenv.length from
          inScope_of_type (typeOfIRAtom_mono fits guardTyped)) (storeG_writesWhen named atomSized)
      exact ⟨after, by simpa [instrumentStmt, dataTyped, sized] using built, instruments⟩
  | cas details =>
      obtain ⟨isAddr, width, expdTyped, dataTyped, _⟩ := typed
      have low : details.high = none := by simpa [doubleWidth] using single
      exact cas_instruments fits named low isAddr expdTyped dataTyped
  | llsc _ _ _ => exact absurd typed id
  | dirty _ _ _ => exact absurd typed id

/-- One turn of the loop for a double-width compare-and-swap. -/
theorem instrumentStmt_incomplete {st : IRStmt ToolCall} {after : IRSB ToolCall}
    (fits : tyenv <+: sb.tyenv) (typed : WellTyped word tyenv st) (double : doubleWidth st = true)
    (built : instrumentStmt opts word stray tyenv sb st = some after) :
    ∃ added, Extends sb after added ∧ ∃ st ∈ added, st.complete = false := by
  cases st with
  | cas details =>
      obtain ⟨high, isHigh⟩ := Option.isSome_iff_exists.mp double
      obtain ⟨_, width, expdTyped, dataTyped, highTyped⟩ := typed
      exact cas_incomplete fits isHigh expdTyped dataTyped (highTyped high isHigh).2 built
  | noOp | iMark _ _ | plain _ _ _ _ | wrTmp _ _ | exit _ | flush _ _ | mbe _ | store _ _
  | storeG _ _ _ | llsc _ _ _ | dirty _ _ _ => exact absurd double (by simp [doubleWidth])

end Loop

end PmDebugger
