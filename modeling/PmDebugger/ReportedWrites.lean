import PmDebugger.InstrumentedRuns

/-!
# Writes of a block and their reports

The main loop of `pmc_instrument` is followed statement by statement, next to an execution of the
block of the client. Without a double-width compare-and-swap the new block does what the old one
does and tells it. With one it has an operation on a null pointer and is never run.

The statements before the first instruction mark are copied without calls, so what they write is
never reported. With both facts the executions whose writes are reported are known exactly.
-/

namespace PmDebugger

open Vex

/-! ## The main loop -/

/-- Ends that tell others one after the other. -/
theorem Tells.append {World : Type} {bits count : Nat}
    {step other later last : Outcome World ToolCall}
    (first : Tells bits count step other) (second : Tells bits count later last) :
    Tells bits count { later with events := step.events ++ later.events }
      { last with events := other.events ++ last.events } :=
  ⟨second.state, first.events.append second.events, second.leaves⟩

/-- What is kept of a list of statements is kept of each of them. -/
theorem kept_cons (st : IRStmt ToolCall) (rest : List (IRStmt ToolCall)) :
    kept (st :: rest) = kept [st] ++ kept rest := by
  simp [kept, ← List.filter_append]

section Loop

variable {opts : IsaOptions} {word : IRType} {stray : IRAtom → Nat → Option IRAtom}
variable {tyenv : List IRType} {stmts : List (IRStmt ToolCall)}

/-- The statements that the loop adds for statements of the client do what these do and tell it. -/
def Retells (bits : Nat) (tyenv : List IRType) (stmts added : List (IRStmt ToolCall)) : Prop :=
  ∀ (World : Type) (machine : Machine World) (more : List IRType) (first second : State World)
    (ending : Outcome World ToolCall), Agree tyenv.length first second →
    machine.run tyenv stmts first = some ending →
    ∃ other, machine.run (tyenv ++ more) added second = some other ∧
      Tells bits tyenv.length ending other

/-- No statement is told of by no call. -/
theorem retells_nil {bits : Nat} : Retells bits tyenv [] [] := by
  intro World machine more first second ending agree executed
  cases Option.some.inj executed
  exact ⟨_, rfl, agree, .nil, rfl⟩

/-- One turn of the loop, and the turns after it. -/
theorem retells_cons {bits : Nat} {st : IRStmt ToolCall} {rest left right : List (IRStmt ToolCall)}
    (told : Transcribes bits tyenv st left) (follows : Retells bits tyenv rest right) :
    Retells bits tyenv (st :: rest) (left ++ right) := by
  intro World machine more first second ending agree executed
  obtain ⟨step, stepped, followed⟩ := Option.bind_eq_some_iff.mp executed
  obtain ⟨other, ran, tells⟩ := told World machine more first second step agree stepped
  simp only [Machine.run_append, ran, Option.bind_some, tells.leaves]
  split at followed
  · rename_i leaves
    cases Option.some.inj followed
    exact ⟨other, by simp [leaves], tells⟩
  · rename_i stays
    obtain ⟨later, ranLater, rfl⟩ := Option.map_eq_some_iff.mp followed
    obtain ⟨last, ranLast, tellsLater⟩ :=
      follows World machine more step.state other.state later tells.state ranLater
    exact ⟨_, by simp [stays, ranLast], tells.append tellsLater⟩

/-- The loop over statements without a double-width compare-and-swap. -/
theorem loop_follows (opts : IsaOptions) (stray : IRAtom → Nat → Option IRAtom)
    (isWord : word = .i32 ∨ word = .i64) (named : ∀ st ∈ stmts, st.WellScoped tyenv.length)
    (typed : ∀ st ∈ stmts, WellTyped word tyenv st)
    (single : ∀ st ∈ stmts, doubleWidth st = false) (sb : IRSB ToolCall)
    (fits : tyenv <+: sb.tyenv) :
    ∃ output added, stmts.foldlM (instrumentStmt opts word stray tyenv) sb = some output ∧
      Extends sb output added ∧ (kept stmts).Sublist added ∧
      (∀ st ∈ added, st.complete = true) ∧ Retells (wordBits word) tyenv stmts added := by
  induction stmts generalizing sb with
  | nil => exact ⟨sb, [], rfl, Extends.refl sb, List.Sublist.slnil, by simp, retells_nil⟩
  | cons st rest inductionHypothesis =>
      obtain ⟨after, turned, left, extended, sublist, complete, told⟩ :=
        @instrumentStmt_instruments opts word stray tyenv sb st isWord fits (named st (by simp))
          (typed st (by simp)) (single st (by simp))
      obtain ⟨output, right, followed, further, restKept, restComplete, follows⟩ :=
        inductionHypothesis (fun st member => named st (by simp [member]))
          (fun st member => typed st (by simp [member]))
          (fun st member => single st (by simp [member])) after (fits.trans extended.tyenv)
      apply Exists.intro output
      apply Exists.intro (left ++ right)
      constructor
      · simp [List.foldlM_cons, turned, followed]
      · constructor
        · exact extended.trans further
        · constructor
          · rw [kept_cons]
            exact sublist.append restKept
          · constructor
            · intro st member
              rcases List.mem_append.mp member with early | late
              · exact complete st early
              · exact restComplete st late
            · exact retells_cons told follows

/-- The loop only adds statements, and among them one with a null operand for every double-width
compare-and-swap. -/
theorem loop_extends (isWord : word = .i32 ∨ word = .i64)
    (named : ∀ st ∈ stmts, st.WellScoped tyenv.length)
    (typed : ∀ st ∈ stmts, WellTyped word tyenv st) {sb output : IRSB ToolCall}
    (fits : tyenv <+: sb.tyenv)
    (built : stmts.foldlM (instrumentStmt opts word stray tyenv) sb = some output) :
    ∃ added, Extends sb output added ∧
      ∀ st ∈ stmts, doubleWidth st = true → ∃ stmt ∈ added, stmt.complete = false := by
  induction stmts generalizing sb with
  | nil =>
      cases Option.some.inj built
      exact ⟨[], Extends.refl _, by simp⟩
  | cons st rest inductionHypothesis =>
      simp only [List.foldlM_cons, Option.bind_eq_bind] at built
      obtain ⟨after, turned, followed⟩ := Option.bind_eq_some_iff.mp built
      have stNamed := named st (by simp)
      have stTyped := typed st (by simp)
      have turn : ∃ left, Extends sb after left ∧
          (doubleWidth st = true → ∃ stmt ∈ left, stmt.complete = false) := by
        cases double : doubleWidth st with
        | true =>
            obtain ⟨left, extended, incomplete⟩ :=
              instrumentStmt_incomplete fits stTyped double turned
            exact ⟨left, extended, fun _ => incomplete⟩
        | false =>
            obtain ⟨result, same, left, extended, _⟩ :=
              @instrumentStmt_instruments opts word stray tyenv sb st isWord fits stNamed stTyped
                double
            cases Option.some.inj (turned.symm.trans same)
            exact ⟨left, extended, fun holds => by cases holds⟩
      obtain ⟨left, extended, first⟩ := turn
      obtain ⟨right, further, later⟩ := inductionHypothesis
        (fun st member => named st (by simp [member]))
        (fun st member => typed st (by simp [member])) (fits.trans extended.tyenv) followed
      apply Exists.intro (left ++ right)
      constructor
      · exact extended.trans further
      · intro stmt member double
        rcases List.mem_cons.mp member with rfl | inRest
        · obtain ⟨found, inLeft, incomplete⟩ := first double
          exact ⟨found, List.mem_append_left _ inLeft, incomplete⟩
        · obtain ⟨found, inRight, incomplete⟩ := later stmt inRest double
          exact ⟨found, List.mem_append_right _ inRight, incomplete⟩

end Loop

/-! ## Writes that are not reported -/

/-- A write of at least one byte. A guarded store or a compare-and-swap that does nothing makes
none. -/
def Written (event : Event ToolCall) : Prop :=
  ∃ ranges, event = .wrote ranges ∧ ∃ range ∈ ranges, 0 < range.2

/-- A type with a size has a positive one. -/
theorem sizeofIRType_pos {type : IRType} {size : Nat} (sized : sizeofIRType type = some size) :
    0 < size := by
  cases type <;> cases sized <;> decide

/-- So has an atom. -/
theorem sizeofAtom_pos {tyenv : List IRType} {atom : IRAtom} {size : Nat}
    (sized : Machine.sizeofAtom tyenv atom = some size) : 0 < size := by
  obtain ⟨type, _, typeSized⟩ := Option.bind_eq_some_iff.mp sized
  exact sizeofIRType_pos typeSized

section Unreported

variable {World : Type} {machine : Machine World} {word : IRType} {tyenv : List IRType}

/-- A statement of the client has an execution. -/
theorem exec_defined (machine : Machine World) {st : IRStmt ToolCall}
    (typed : WellTyped word tyenv st) (state : State World) :
    ∃ ending, machine.exec tyenv state st = some ending := by
  cases st with
  | noOp | iMark _ _ | plain _ _ _ _ | exit _ | flush _ _ | mbe _ => exact ⟨_, rfl⟩
  | wrTmp tmp data =>
      obtain ⟨result, evaluated⟩ := machine.eval_complete state typed
      simp [Machine.exec, evaluated]
  | store addr data | storeG addr data guard =>
      obtain ⟨type, size, dataTyped, sized⟩ := storable_sized typed.2
      simp [Machine.exec, Machine.sizeofAtom, dataTyped, sized]
  | cas details =>
      obtain ⟨_, width, _, dataTyped, _⟩ := typed
      simp [Machine.exec, Machine.sizeofAtom, dataTyped]
  | llsc _ _ _ => exact absurd typed id
  | dirty _ _ _ => exact absurd typed id

/-- So have its blocks. -/
theorem run_defined (machine : Machine World) {stmts : List (IRStmt ToolCall)}
    (typed : ∀ st ∈ stmts, WellTyped word tyenv st) (state : State World) :
    ∃ ending, machine.run tyenv stmts state = some ending := by
  induction stmts generalizing state with
  | nil => exact ⟨_, rfl⟩
  | cons st rest inductionHypothesis =>
      obtain ⟨step, stepped⟩ := exec_defined machine (typed st (by simp)) state
      obtain ⟨later, ran⟩ :=
        inductionHypothesis (fun st member => typed st (by simp [member])) step.state
      simp only [Machine.run, stepped, Option.bind_some, ran, Option.map_some]
      split
      · exact ⟨_, rfl⟩
      · exact ⟨_, rfl⟩

/-- The events of a statement of the client are writes. -/
theorem exec_written {st : IRStmt ToolCall} {state : State World} {ending : Outcome World ToolCall}
    (typed : WellTyped word tyenv st) (executed : machine.exec tyenv state st = some ending)
    {event : Event ToolCall} (member : event ∈ ending.events) : Written event := by
  cases st with
  | noOp | iMark _ _ | plain _ _ _ _ | wrTmp _ _ | exit _ | flush _ _ | mbe _ =>
      rw [exec_quiet rfl executed] at member
      cases member
  | store addr data =>
      obtain ⟨size, sized, rfl⟩ := Option.map_eq_some_iff.mp executed
      have positive := sizeofAtom_pos sized
      cases List.mem_singleton.mp member
      exact ⟨_, rfl, _, List.mem_singleton_self _, positive⟩
  | storeG addr data guard =>
      obtain ⟨size, sized, rfl⟩ := Option.map_eq_some_iff.mp executed
      have positive := sizeofAtom_pos sized
      split at member
      · cases List.mem_singleton.mp member
        exact ⟨_, rfl, _, List.mem_singleton_self _, positive⟩
      · cases member
  | cas details =>
      obtain ⟨size, sized, rfl⟩ := Option.map_eq_some_iff.mp executed
      have positive := sizeofAtom_pos sized
      simp only [Machine.execCas] at member
      split at member <;> split at member
      · cases List.mem_singleton.mp member
        exact ⟨_, rfl, _, List.mem_singleton_self _, positive⟩
      · cases member
      · cases List.mem_singleton.mp member
        exact ⟨_, rfl, _, List.mem_cons_self, positive⟩
      · cases member
  | llsc _ _ _ => exact absurd typed id
  | dirty _ _ _ => exact absurd typed id

/-- So are the events of an execution. -/
theorem run_written {stmts : List (IRStmt ToolCall)} {state : State World}
    {ending : Outcome World ToolCall} (typed : ∀ st ∈ stmts, WellTyped word tyenv st)
    (executed : machine.run tyenv stmts state = some ending) {event : Event ToolCall}
    (member : event ∈ ending.events) : Written event := by
  induction stmts generalizing state ending with
  | nil =>
      cases Option.some.inj executed
      cases member
  | cons st rest inductionHypothesis =>
      obtain ⟨step, stepped, followed⟩ := Option.bind_eq_some_iff.mp executed
      split at followed
      · cases Option.some.inj followed
        exact exec_written (typed st (by simp)) stepped member
      · obtain ⟨later, ran, rfl⟩ := Option.map_eq_some_iff.mp followed
        rcases List.mem_append.mp member with early | late
        · exact exec_written (typed st (by simp)) stepped early
        · exact inductionHypothesis (fun st member => typed st (by simp [member])) ran late

end Unreported

/-- What follows a write that is told. -/
theorem Reported.after_write {bits : Nat} {ranges others : List (Nat × Nat)}
    {log told : List (Event ToolCall)}
    (reported : Reported bits (.wrote ranges :: log) (.wrote others :: told)) :
    ∃ (calls : List StoreCall) (rest : List (Event ToolCall)),
      told = calls.map StoreCall.event ++ rest ∧
      Partition bits (calls.map StoreCall.range) ranges := by
  generalize first : Event.wrote ranges :: log = before at reported
  generalize second : Event.wrote others :: told = after at reported
  cases reported with
  | nil => cases first
  | silent other _ => cases second
  | wrote partition _ =>
      injection first with sameWrite
      injection sameWrite with sameRanges
      injection second with _ sameTold
      subst sameRanges
      exact ⟨_, _, sameTold, partition⟩

/-- Writes that stand in the second log as they are, before anything but a report, are not told:
there are none. -/
theorem unreported_nil {bits : Nat} {log more rest : List (Event ToolCall)}
    (written : ∀ event ∈ log, Written event)
    (noReport : ∀ (call : StoreCall) (tail : List (Event ToolCall)), rest ≠ call.event :: tail)
    (reported : Reported bits (log ++ more) (log ++ rest)) : log = [] := by
  cases log with
  | nil => rfl
  | cons event tail =>
      obtain ⟨ranges, rfl, range, member, positive⟩ := written event (by simp)
      obtain ⟨calls, others, following, partition⟩ := reported.after_write
      have someCall : calls.map StoreCall.range ≠ [] := partition.ne_nil member positive
      cases calls with
      | nil => exact absurd rfl someCall
      | cons call further =>
          cases tail with
          | nil => exact absurd following (noReport call _)
          | cons next _ =>
              obtain ⟨nextRanges, isWrite, _⟩ := written next (by simp)
              have head : next = call.event := (List.cons.inj following).1
              rw [isWrite] at head
              cases head

/-! ## Whole blocks -/

section Blocks

variable {opts : IsaOptions} {word : IRType} {stray : IRAtom → Nat → Option IRAtom}
variable {bb output : IRSB ToolCall}

/-- The block that `pmc_instrument` returns for a block without a double-width compare-and-swap: the
statements before the first mark, the count of blocks, and what the loop adds. -/
theorem pmcInstrument_parts (opts : IsaOptions) (stray : IRAtom → Nat → Option IRAtom)
    (client : ClientBlock word bb)
    (single : ∀ st ∈ bb.stmts.dropWhile beforeIMark, doubleWidth st = false) :
    ∃ output more added, pmcInstrument opts word stray bb word = some output ∧
      output = ⟨bb.tyenv ++ more, bb.stmts.takeWhile beforeIMark ++
        unsafeIRDirty0N .addOneSBEntered [] none :: added⟩ ∧
      (kept (bb.stmts.dropWhile beforeIMark)).Sublist added ∧
      (∀ st ∈ added, st.complete = true) ∧
      Retells (wordBits word) bb.tyenv (bb.stmts.dropWhile beforeIMark) added := by
  have within : ∀ st ∈ bb.stmts.dropWhile beforeIMark, st ∈ bb.stmts :=
    fun st member => (List.dropWhile_sublist _).mem member
  obtain ⟨output, added, built, extended, sublist, complete, follows⟩ := loop_follows opts stray
    client.isWord (fun st member => client.named st (within st member))
    (fun st member => client.typed st (within st member)) single
    (addStmtToIRSB ⟨bb.tyenv, bb.stmts.takeWhile beforeIMark⟩
      (unsafeIRDirty0N .addOneSBEntered [] none)) List.prefix_rfl
  obtain ⟨more, larger⟩ := extended.tyenv
  have stmts := extended.stmts
  simp only [addStmtToIRSB, List.append_assoc, List.cons_append, List.nil_append] at larger stmts
  apply Exists.intro output
  apply Exists.intro more
  apply Exists.intro added
  constructor
  · simpa [pmcInstrument] using built
  · constructor
    · rw [larger, ← stmts]
    · exact ⟨sublist, complete, follows⟩

/-- The statements of the client stand in that block in their order. -/
theorem kept_of_parts {added : List (IRStmt ToolCall)}
    (sublist : (kept (bb.stmts.dropWhile beforeIMark)).Sublist added) :
    (kept bb.stmts).Sublist (bb.stmts.takeWhile beforeIMark ++
      unsafeIRDirty0N .addOneSBEntered [] none :: added) := by
  have parted : kept bb.stmts = kept (bb.stmts.takeWhile beforeIMark) ++
      kept (bb.stmts.dropWhile beforeIMark) := by
    rw [kept, kept, kept, ← List.filter_append, List.takeWhile_append_dropWhile]
  rw [parted]
  exact List.filter_sublist.append (sublist.trans (List.sublist_cons_self _ _))

/-- A block that is run was made from one without a double-width compare-and-swap after the first
mark. -/
theorem single_of_complete (client : ClientBlock word bb)
    (built : pmcInstrument opts word stray bb word = some output)
    (complete : ∀ st ∈ output.stmts, st.complete = true) :
    ∀ st ∈ bb.stmts.dropWhile beforeIMark, doubleWidth st = false := by
  have within : ∀ st ∈ bb.stmts.dropWhile beforeIMark, st ∈ bb.stmts :=
    fun st member => (List.dropWhile_sublist _).mem member
  have fits : bb.tyenv <+: (addStmtToIRSB ⟨bb.tyenv, bb.stmts.takeWhile beforeIMark⟩
      (unsafeIRDirty0N ToolCall.addOneSBEntered [] none)).tyenv := List.prefix_rfl
  simp only [pmcInstrument, ne_eq, not_true_eq_false, if_false] at built
  obtain ⟨added, extended, incomplete⟩ := loop_extends client.isWord
    (fun st member => client.named st (within st member))
    (fun st member => client.typed st (within st member)) fits built
  intro st member
  cases double : doubleWidth st with
  | false => rfl
  | true =>
      obtain ⟨stmt, inAdded, lacking⟩ := incomplete st member double
      have inOutput : stmt ∈ output.stmts := by
        rw [extended.stmts]
        exact List.mem_append_right _ inAdded
      rw [complete stmt inOutput] at lacking
      cases lacking

section Executions

variable {World : Type} {machine : Machine World} {start : State World}

/-- The statements before the first mark. -/
theorem preamble_again (client : ClientBlock word bb) (more : List IRType)
    {first : Outcome World ToolCall}
    (ran : machine.run bb.tyenv (bb.stmts.takeWhile beforeIMark) start = some first) :
    (∀ event ∈ first.events, Written event) ∧
      ∃ other, machine.run (bb.tyenv ++ more) (bb.stmts.takeWhile beforeIMark) start = some other ∧
        Matches bb.tyenv.length first other := by
  have within : ∀ st ∈ bb.stmts.takeWhile beforeIMark, st ∈ bb.stmts :=
    fun st member => (List.takeWhile_sublist _).mem member
  constructor
  · intro event member
    exact run_written (fun st member => client.typed st (within st member)) ran member
  · exact machine.run_agree bb.tyenv more (fun st member => client.named st (within st member))
      (Agree.refl _ start) ran

/-- The call that counts the block comes first. -/
theorem run_counted (env : List IRType) (added : List (IRStmt ToolCall)) (state : State World) :
    machine.run env (unsafeIRDirty0N .addOneSBEntered [] none :: added) state =
      (machine.run env added state).map (fun last =>
        { last with events := .called .addOneSBEntered [] :: last.events }) := by
  simp [Machine.run, Machine.exec, unsafeIRDirty0N, State.value, IRConst.value]

/-- When the block is left before the first mark, nothing may have been written. -/
theorem reported_left {bits : Nat} {log : List (Event ToolCall)}
    (written : ∀ event ∈ log, Written event) : Reported bits log log ↔ log = [] := by
  constructor
  · intro reported
    have padded : Reported bits (log ++ []) (log ++ []) := by simpa using reported
    exact unreported_nil written (by simp) padded
  · rintro rfl
    exact .nil

/-- When the first mark is reached, nothing may have been written either. -/
theorem reported_entered {bits : Nat} {log more told : List (Event ToolCall)}
    (written : ∀ event ∈ log, Written event) (reported : Reported bits more told) :
    Reported bits (log ++ more) (log ++ .called .addOneSBEntered [] :: told) ↔ log = [] := by
  constructor
  · intro whole
    apply unreported_nil written _ whole
    intro call tail clash
    cases clash
  · rintro rfl
    exact .silent (by decide) reported

/-- A block without null operands is run. -/
theorem runBlock_complete {block : IRSB ToolCall}
    (complete : ∀ st ∈ block.stmts, st.complete = true) :
    machine.runBlock block start = machine.run block.tyenv block.stmts start := by
  have all : block.stmts.all IRStmt.complete = true := List.all_eq_true.mpr complete
  simp only [Machine.runBlock, all, if_true]

/-- The execution of the block that the loop built: the statements before the first mark, and
unless these leave the block, the count and what was added. -/
theorem run_built (client : ClientBlock word bb) {more : List IRType}
    {added : List (IRStmt ToolCall)} (complete : ∀ st ∈ added, st.complete = true)
    {other : Outcome World ToolCall}
    (again : machine.run (bb.tyenv ++ more) (bb.stmts.takeWhile beforeIMark) start = some other) :
    machine.runBlock ⟨bb.tyenv ++ more, bb.stmts.takeWhile beforeIMark ++
        unsafeIRDirty0N .addOneSBEntered [] none :: added⟩ start =
      if other.leaves then some other
      else (machine.run (bb.tyenv ++ more) added other.state).map (fun last =>
        { last with events := other.events ++ .called .addOneSBEntered [] :: last.events }) := by
  rw [runBlock_complete]
  · simp only [Machine.run_append, again, Option.bind_some, run_counted, Option.map_map]
    rfl
  · intro st member
    rcases List.mem_append.mp member with early | late
    · exact wellTyped_complete (client.typed st ((List.takeWhile_sublist _).mem early))
    · rcases List.mem_cons.mp late with rfl | inAdded
      · rfl
      · exact complete st inAdded

/-- Where the loop met no double-width compare-and-swap, the writes of an execution are reported
exactly when it writes nothing before the first mark. -/
theorem reports_iff_quiet (client : ClientBlock word bb) {bits : Nat} {more : List IRType}
    {added : List (IRStmt ToolCall)} (complete : ∀ st ∈ added, st.complete = true)
    (follows : Retells bits bb.tyenv (bb.stmts.dropWhile beforeIMark) added)
    {first : Outcome World ToolCall}
    (ranFirst : machine.run bb.tyenv (bb.stmts.takeWhile beforeIMark) start = some first) :
    Reports machine bits bb ⟨bb.tyenv ++ more, bb.stmts.takeWhile beforeIMark ++
        unsafeIRDirty0N .addOneSBEntered [] none :: added⟩ start ↔ first.events = [] := by
  obtain ⟨ending, ran⟩ : ∃ ending, machine.run bb.tyenv bb.stmts start = some ending :=
    run_defined machine client.typed start
  have clientComplete : ∀ st ∈ bb.stmts, st.complete = true :=
    fun st member => wellTyped_complete (client.typed st member)
  have parted : bb.stmts = bb.stmts.takeWhile beforeIMark ++ bb.stmts.dropWhile beforeIMark :=
    List.takeWhile_append_dropWhile.symm
  have ranRest := ran
  rw [parted, Machine.run_append, ranFirst, Option.bind_some] at ranRest
  obtain ⟨written, other, again, same⟩ := preamble_again client more ranFirst
  simp only [Reports, runBlock_complete clientComplete, ran, run_built client complete again,
    same.leaves, same.events, Option.some.injEq, exists_and_left, exists_eq_left']
  cases leaves : first.leaves with
  | true =>
      simp only [leaves, if_true, Option.some.injEq] at ranRest
      subst ranRest
      simp only [if_true, Option.some.injEq, exists_eq_left']
      constructor
      · intro tells
        have reported := tells.events
        rw [same.events] at reported
        exact (reported_left written).mp reported
      · intro nothing
        constructor
        · exact same.state
        · rw [same.events]
          exact (reported_left written).mpr nothing
        · exact same.leaves
  | false =>
      simp only [leaves, Bool.false_eq_true, if_false] at ranRest
      obtain ⟨later, ranLater, rfl⟩ := Option.map_eq_some_iff.mp ranRest
      obtain ⟨last, ranLast, tells⟩ :=
        follows World machine more first.state other.state later same.state ranLater
      simp only [Bool.false_eq_true, if_false, ranLast, Option.map_some, Option.some.injEq,
        exists_eq_left']
      constructor
      · intro whole
        exact (reported_entered written tells.events).mp whole.events
      · intro nothing
        exact ⟨tells.state, (reported_entered written tells.events).mpr nothing, tells.leaves⟩

end Executions

end Blocks

/-! ## The whole instrumentation -/

/-- The condition, with the execution of the statements before the first mark. -/
theorem reportable_iff {World : Type} {machine : Machine World} {bb : IRSB ToolCall}
    {start : State World} {first : Outcome World ToolCall}
    (ranFirst : machine.run bb.tyenv (bb.stmts.takeWhile beforeIMark) start = some first) :
    reportable machine bb start = true ↔
      (∀ st ∈ bb.stmts.dropWhile beforeIMark, doubleWidth st = false) ∧ first.events = [] := by
  simp [reportable, ranFirst]

/-- Nothing is reported without the condition. -/
theorem reportable_of_reports {opts : IsaOptions} {stray : IRAtom → Nat → Option IRAtom}
    {word : IRType} {bb output : IRSB ToolCall} (client : ClientBlock word bb) {World : Type}
    {machine : Machine World} {start : State World}
    (built : pmcInstrument opts word stray bb word = some output)
    (reports : Reports machine (wordBits word) bb output start) :
    reportable machine bb start = true := by
  obtain ⟨first, ranFirst⟩ : ∃ first,
      machine.run bb.tyenv (bb.stmts.takeWhile beforeIMark) start = some first :=
    run_defined machine
      (fun st member => client.typed st ((List.takeWhile_sublist _).mem member)) start
  have complete : ∀ st ∈ output.stmts, st.complete = true := by
    obtain ⟨_, other, _, ran, _⟩ := reports
    simp only [Machine.runBlock, Option.ite_none_right_eq_some] at ran
    exact List.all_eq_true.mp ran.1
  have single := single_of_complete client built complete
  obtain ⟨result, more, added, same, rfl, _, addedComplete, follows⟩ :=
    pmcInstrument_parts opts stray client single
  cases Option.some.inj (built.symm.trans same)
  rw [reportable_iff ranFirst]
  exact ⟨single, (reports_iff_quiet client addedComplete follows ranFirst).mp reports⟩

/-- `pmc_instrument` on a block of the client, for every machine and every start: it returns a
block with the statements of the client in their order, in whose execution the calls of
`trace_pmem_store` report the bytes that each statement writes, exactly when the block has no
double-width compare-and-swap after the first mark and its execution writes nothing before that
mark.

Proof: the output is the part before the mark, which is copied as it is, and the instrumented
rest. Each statement of the rest is followed by calls that report what it writes. In the part
before the mark nothing is reported, which is right if and only if nothing is written there. A
double-width compare-and-swap is followed by a comparison with an atom that the source never
assigns, and no block with such an expression runs. -/
theorem instrumentation_reports_iff (opts : IsaOptions) (stray : IRAtom → Nat → Option IRAtom)
    {word : IRType} {bb : IRSB ToolCall} (client : ClientBlock word bb) {World : Type}
    (machine : Machine World) (start : State World) :
    (∃ output, pmcInstrument opts word stray bb word = some output ∧
      (kept bb.stmts).Sublist output.stmts ∧
      Reports machine (wordBits word) bb output start) ↔ reportable machine bb start = true := by
  constructor
  · rintro ⟨output, built, _, reports⟩
    exact reportable_of_reports client built reports
  · intro holds
    obtain ⟨first, ranFirst⟩ : ∃ first,
        machine.run bb.tyenv (bb.stmts.takeWhile beforeIMark) start = some first :=
      run_defined machine
        (fun st member => client.typed st ((List.takeWhile_sublist _).mem member)) start
    obtain ⟨single, nothing⟩ := (reportable_iff ranFirst).mp holds
    obtain ⟨output, more, added, built, rfl, sublist, complete, follows⟩ :=
      pmcInstrument_parts opts stray client single
    apply Exists.intro _
    constructor
    · exact built
    · constructor
      · exact kept_of_parts sublist
      · exact (reports_iff_quiet client complete follows ranFirst).mpr nothing

/-- A machine with a memory of bytes. Loads read the lowest byte first, no reservation is ever
held and nothing else is computed. -/
def byteMachine : Machine (Nat → Nat) where
  load memory addr size :=
    ((List.range size).map (fun offset => memory (addr + offset) * 256 ^ offset)).sum
  write memory addr size value := fun byte =>
    if addr ≤ byte ∧ byte < addr + size then value / 256 ^ (byte - addr) % 256 else memory byte
  reserved _ _ := false
  compute _ _ _ := 0
  act _ _ memory := (0, memory)

/-- All temporaries hold the address 4096, and the memory is empty. -/
def addressState : State (Nat → Nat) := ⟨fun _ => 4096, fun _ => 0⟩

/-- A store of a vector, a guarded store of a byte that is not made, and a compare-and-swap of an
integer that succeeds. -/
def mixedBlock : IRSB ToolCall where
  tyenv := [.i64, .v256, .i8, .i32]
  stmts := [.noOp, .iMark 4194304 4, .store (.rdTmp 0) (.rdTmp 1),
    .storeG (.rdTmp 0) (.rdTmp 2) (.const (.u1 false)), .noOp,
    .cas ⟨3, .const (.u64 8192), .const (.u32 0), .const (.u32 7), none⟩, .mbe .sFence]

/-- The block is one that a client could run. -/
theorem mixedBlock_client : ClientBlock .i64 mixedBlock where
  isWord := .inr rfl
  named := by decide
  typed := by
    intro st member
    simp only [mixedBlock, List.mem_cons, List.not_mem_nil, or_false] at member
    rcases member with rfl | rfl | rfl | rfl | rfl | rfl | rfl
    · trivial
    · trivial
    · exact ⟨rfl, .v256, by decide, rfl⟩
    · exact ⟨rfl, .i8, by decide, rfl⟩
    · trivial
    · exact ⟨rfl, .w32, rfl, rfl, fun _ none => by cases none⟩
    · trivial

/-- All of these are reported. -/
theorem instrumentation_reports_mixed :
    ClientBlock .i64 mixedBlock ∧
      ∃ output, pmcInstrument ⟨true, false⟩ .i64 (fun _ _ => none) mixedBlock .i64 = some output ∧
        (kept mixedBlock.stmts).Sublist output.stmts ∧
        Reports byteMachine (wordBits .i64) mixedBlock output addressState := by
  have isReportable : reportable byteMachine mixedBlock addressState = true := by decide
  exact ⟨mixedBlock_client, (instrumentation_reports_iff ⟨true, false⟩ (fun _ _ => none)
    mixedBlock_client byteMachine addressState).mpr isReportable⟩

/-- A compare-and-swap of sixteen bytes. Its element is eight bytes wide, so this is one swap
of two elements next to each other. -/
def doubleSwap : IRSB ToolCall where
  tyenv := [.i64, .i64, .i64]
  stmts := [.iMark 4194304 5,
    .cas ⟨1, .rdTmp 0, .const (.u64 0), .const (.u64 1),
      some ⟨2, .const (.u64 0), .const (.u64 2)⟩⟩]

/-- The block is one that a client could run. -/
theorem doubleSwap_client : ClientBlock .i64 doubleSwap where
  isWord := .inr rfl
  named := by decide
  typed := by
    intro st member
    simp only [doubleSwap, List.mem_cons, List.not_mem_nil, or_false] at member
    rcases member with rfl | rfl
    · trivial
    · apply And.intro rfl
      apply Exists.intro IntWidth.w64
      constructor
      · rfl
      · constructor
        · rfl
        · intro high isHigh
          cases isHigh
          exact ⟨rfl, rfl⟩

/-- Its bytes are written and not reported, whatever the stray pointer reads. -/
theorem instrumentation_reports_fails :
    ClientBlock .i64 doubleSwap ∧
      (byteMachine.run doubleSwap.tyenv doubleSwap.stmts addressState).map Outcome.events =
        some [.wrote [(4096, 8), (4104, 8)]] ∧
      ¬ ∃ opts stray output, pmcInstrument opts .i64 stray doubleSwap .i64 = some output ∧
        Reports byteMachine (wordBits .i64) doubleSwap output addressState := by
  constructor
  · exact doubleSwap_client
  · constructor
    · decide
    · rintro ⟨opts, stray, output, built, reports⟩
      have isReportable := reportable_of_reports doubleSwap_client built reports
      revert isReportable
      decide

end PmDebugger
