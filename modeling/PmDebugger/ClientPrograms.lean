import PmDebugger.Client
import PmDebugger.ClientEffects

/-!
# Programs under the tool

A program runs block after block, on any of its threads, and makes requests of the tool between
them. Under the tool every block is replaced by what `pmc_instrument` makes of it. The program is
then the same: after every sequence of blocks the machine is in the same state, so the same block
comes next. And everything that it does to memory is relayed to the tool, in the order in which it
is done.

This holds for blocks without a double-width compare-and-swap, and with nothing that touches memory
before the first instruction mark.
-/

namespace PmDebugger

open Vex

/-! ## The main loop -/

section Loop

variable {opts : IsaOptions} {bits : Nat} {word : IRType} {stray : IRAtom → Nat → Option IRAtom}
variable {tyenv : List IRType} {stmts : List (IRStmt ToolCall)}

/-- An execution of instrumented statements that ends like the other one, and whose calls relay the
effects. -/
structure Parallels {World : Type} (opts : IsaOptions) (bits count : Nat) (seen : List Effect)
    (ending other : Outcome World ToolCall) : Prop where
  state : Agree count ending.state other.state
  leaves : other.leaves = ending.leaves
  told : Relayed opts bits seen (helperCalls other.events)

/-- The statements that the loop adds have such executions. States that agree are taken to
states that agree, and the calls relay the effects. -/
def GoesAlong (opts : IsaOptions) (bits : Nat) (tyenv : List IRType)
    (stmts added : List (IRStmt ToolCall)) : Prop :=
  ∀ (World : Type) (machine : Machine World) (more : List IRType) (first second : State World)
    (ending : Outcome World ToolCall), Agree tyenv.length first second →
    machine.run tyenv stmts first = some ending →
    ∃ other, machine.run (tyenv ++ more) added second = some other ∧
      Parallels opts bits tyenv.length (observe machine tyenv stmts first) ending other

/-- No statements go along with themselves. -/
theorem goesAlong_nil : GoesAlong opts bits tyenv [] [] := by
  intro World machine more first second ending agree executed
  cases Option.some.inj executed
  exact ⟨_, rfl, agree, rfl, .nil⟩

/-- One turn of the loop, and the turns after it. -/
theorem goesAlong_cons {st : IRStmt ToolCall} {rest left right : List (IRStmt ToolCall)}
    (transcribes : Transcribes bits tyenv st left) (recounts : Recounts opts bits tyenv st left)
    (along : GoesAlong opts bits tyenv rest right) :
    GoesAlong opts bits tyenv (st :: rest) (left ++ right) := by
  intro World machine more first second ending agree executed
  obtain ⟨step, stepped, followed⟩ := Option.bind_eq_some_iff.mp executed
  obtain ⟨other, ran, tells⟩ := transcribes World machine more first second step agree stepped
  have told := recounts World machine more first second step other agree stepped ran
  simp only [Machine.run_append, ran, Option.bind_some, tells.leaves, observe, stepped]
  split at followed
  · rename_i leaves
    cases Option.some.inj followed
    apply Exists.intro other
    constructor
    · simp [leaves]
    · constructor
      · exact tells.state
      · exact tells.leaves
      · simpa [leaves] using told
  · rename_i stays
    obtain ⟨later, ranLater, rfl⟩ := Option.map_eq_some_iff.mp followed
    obtain ⟨last, ranLast, parallels⟩ :=
      along World machine more step.state other.state later tells.state ranLater
    apply Exists.intro { last with events := other.events ++ last.events }
    constructor
    · simp [stays, ranLast]
    · constructor
      · exact parallels.state
      · exact parallels.leaves
      · simpa [stays] using told.append parallels.told

/-- The loop over statements without a double-width compare-and-swap. -/
theorem loop_goesAlong (opts : IsaOptions) (stray : IRAtom → Nat → Option IRAtom)
    (isWord : word = .i32 ∨ word = .i64) (named : ∀ st ∈ stmts, st.WellScoped tyenv.length)
    (typed : ∀ st ∈ stmts, WellTyped word tyenv st)
    (single : ∀ st ∈ stmts, doubleWidth st = false) (sb : IRSB ToolCall)
    (fits : tyenv <+: sb.tyenv) :
    ∃ output added, stmts.foldlM (instrumentStmt opts word stray tyenv) sb = some output ∧
      Extends sb output added ∧ (∀ st ∈ added, st.complete = true) ∧
      GoesAlong opts (wordBits word) tyenv stmts added := by
  induction stmts generalizing sb with
  | nil => exact ⟨sb, [], rfl, Extends.refl sb, by simp, goesAlong_nil⟩
  | cons st rest inductionHypothesis =>
      obtain ⟨after, left, turned, extended, complete, transcribes, recounts⟩ :=
        @instrumentStmt_recounts opts word stray tyenv sb st isWord fits (named st (by simp))
          (typed st (by simp)) (single st (by simp))
      obtain ⟨output, right, followed, further, restComplete, along⟩ :=
        inductionHypothesis (fun st member => named st (by simp [member]))
          (fun st member => typed st (by simp [member]))
          (fun st member => single st (by simp [member])) after (fits.trans extended.tyenv)
      apply Exists.intro output
      apply Exists.intro (left ++ right)
      constructor
      · simp [List.foldlM_cons, turned, followed]
      · constructor
        · exact extended.trans further
        · constructor
          · intro st member
            rcases List.mem_append.mp member with early | late
            · exact complete st early
            · exact restComplete st late
          · exact goesAlong_cons transcribes recounts along

end Loop

/-! ## Blocks -/

/-- A statement that writes, flushes or orders memory. Before the first mark none may stand,
since nothing is reported there. -/
def touchesMemory : IRStmt ToolCall → Bool
  | .store _ _ | .storeG _ _ _ | .cas _ | .llsc _ _ _ | .flush _ _ | .mbe _ => true
  | _ => false

/-- A block that is relayed completely: nothing touches memory before the first instruction mark,
and there is no double-width compare-and-swap after it. -/
def relayable (bb : IRSB ToolCall) : Bool :=
  (bb.stmts.takeWhile beforeIMark).all (fun st => !touchesMemory st) &&
    (bb.stmts.dropWhile beforeIMark).all (fun st => !doubleWidth st)

section Blocks

variable {World : Type}

/-- The effects of a block: those of the statements before the first mark, and unless these leave
the block, the entry and the effects of the others. -/
def observeBlock (machine : Machine World) (bb : IRSB ToolCall) (start : State World) :
    List Effect :=
  observe machine bb.tyenv (bb.stmts.takeWhile beforeIMark) start ++
    match machine.run bb.tyenv (bb.stmts.takeWhile beforeIMark) start with
    | none => []
    | some first =>
        if first.leaves then []
        else .entered :: observe machine bb.tyenv (bb.stmts.dropWhile beforeIMark) first.state

/-- A block under the tool: it is instrumented, and what comes out is executed. A block that
cannot be instrumented does not run. -/
def runUnder (machine : Machine World) (opts : IsaOptions) (word : IRType)
    (stray : IRAtom → Nat → Option IRAtom) (bb : IRSB ToolCall) (start : State World) :
    Option (Outcome World ToolCall) :=
  (pmcInstrument opts word stray bb word).bind (fun output => machine.runBlock output start)

variable {machine : Machine World} {word : IRType}

/-- A statement of the client that does not touch memory has no events. -/
theorem hasEvents_untouched {tyenv : List IRType} {st : IRStmt ToolCall}
    (typed : WellTyped word tyenv st) (untouched : touchesMemory st = false) :
    hasEvents st = false := by
  cases st with
  | dirty _ _ _ => exact absurd typed id
  | store _ _ | storeG _ _ _ | cas _ | llsc _ _ _ => cases untouched
  | noOp | iMark _ _ | plain _ _ _ _ | wrTmp _ _ | exit _ | flush _ _ | mbe _ => rfl

section Untouched

variable {tyenv : List IRType} {stmts : List (IRStmt ToolCall)}
variable (typed : ∀ st ∈ stmts, WellTyped word tyenv st)
variable (untouched : ∀ st ∈ stmts, touchesMemory st = false)

include typed untouched

/-- Such statements have no effects. -/
theorem observe_untouched (state : State World) : observe machine tyenv stmts state = [] := by
  induction stmts generalizing state with
  | nil => rfl
  | cons st rest inductionHypothesis =>
      have quiet := hasEvents_untouched (typed st (by simp)) (untouched st (by simp))
      have writes : onlyWrites st = true := by
        have stUntouched := untouched st (by simp)
        cases st with
        | flush _ _ | mbe _ => cases stUntouched
        | _ => rfl
      simp only [observe]
      split
      · rfl
      · rename_i ending executed
        rw [effects_writes writes, exec_quiet quiet executed,
          inductionHypothesis (fun st member => typed st (by simp [member]))
            (fun st member => untouched st (by simp [member]))]
        split <;> rfl

/-- Such statements call nothing. -/
theorem events_untouched {env : List IRType} {state : State World}
    {ending : Outcome World ToolCall} (ran : machine.run env stmts state = some ending) :
    ending.events = [] := by
  have each : ∀ st ∈ stmts, ∀ (reached : State World) (step : Outcome World ToolCall),
      machine.exec env reached st = some step → ∀ event ∈ step.events, False := by
    intro st member reached step stepped event inEvents
    rw [exec_quiet (hasEvents_untouched (typed st member) (untouched st member))
      stepped] at inEvents
    cases inEvents
  exact List.eq_nil_iff_forall_not_mem.mpr (run_events each ran)

end Untouched

/-- The block that `pmc_instrument` returns: the statements before the first mark, the count of
blocks, and what the loop adds. -/
theorem pmcInstrument_along (opts : IsaOptions) (stray : IRAtom → Nat → Option IRAtom)
    {bb : IRSB ToolCall} (client : ClientBlock word bb)
    (single : ∀ st ∈ bb.stmts.dropWhile beforeIMark, doubleWidth st = false) :
    ∃ more added, pmcInstrument opts word stray bb word = some ⟨bb.tyenv ++ more,
        bb.stmts.takeWhile beforeIMark ++ unsafeIRDirty0N .addOneSBEntered [] none :: added⟩ ∧
      (∀ st ∈ added, st.complete = true) ∧
      GoesAlong opts (wordBits word) bb.tyenv (bb.stmts.dropWhile beforeIMark) added := by
  have within : ∀ st ∈ bb.stmts.dropWhile beforeIMark, st ∈ bb.stmts :=
    fun st member => (List.dropWhile_sublist _).mem member
  obtain ⟨output, added, built, extended, complete, along⟩ := loop_goesAlong opts stray
    client.isWord (fun st member => client.named st (within st member))
    (fun st member => client.typed st (within st member)) single
    (addStmtToIRSB ⟨bb.tyenv, bb.stmts.takeWhile beforeIMark⟩
      (unsafeIRDirty0N .addOneSBEntered [] none)) List.prefix_rfl
  obtain ⟨more, larger⟩ := extended.tyenv
  have stmts := extended.stmts
  simp only [addStmtToIRSB, List.append_assoc, List.cons_append, List.nil_append] at larger stmts
  apply Exists.intro more
  apply Exists.intro added
  constructor
  · rw [larger, ← stmts]
    simpa [pmcInstrument] using built
  · exact ⟨complete, along⟩

/-- A block under the tool and by itself, from the same state. -/
theorem block_parallels (opts : IsaOptions) (stray : IRAtom → Nat → Option IRAtom)
    {bb : IRSB ToolCall} (client : ClientBlock word bb) (relayed : relayable bb = true)
    (machine : Machine World) (start : State World) :
    ∃ ending other, machine.runBlock bb start = some ending ∧
      runUnder machine opts word stray bb start = some other ∧
      Parallels opts (wordBits word) bb.tyenv.length (observeBlock machine bb start) ending
        other := by
  simp only [relayable, Bool.and_eq_true, List.all_eq_true, Bool.not_eq_true'] at relayed
  obtain ⟨untouched, single⟩ := relayed
  obtain ⟨more, added, built, complete, along⟩ := pmcInstrument_along opts stray client single
  -- Both executions up to the first mark.
  have typed : ∀ st ∈ bb.stmts.takeWhile beforeIMark, WellTyped word bb.tyenv st :=
    fun st member => client.typed st ((List.takeWhile_sublist _).mem member)
  obtain ⟨first, ranFirst⟩ := run_defined machine typed start
  obtain ⟨_, again, ranAgain, same⟩ := preamble_again client more ranFirst
  have silent : again.events = [] := events_untouched typed untouched ranAgain
  -- The whole execution of the client, cut at the first mark.
  obtain ⟨ending, ran⟩ := run_defined machine client.typed start
  have clientRuns : machine.runBlock bb start = some ending := by
    rw [runBlock_complete (fun st member => wellTyped_complete (client.typed st member))]
    exact ran
  have parted : bb.stmts = bb.stmts.takeWhile beforeIMark ++ bb.stmts.dropWhile beforeIMark :=
    List.takeWhile_append_dropWhile.symm
  rw [parted, Machine.run_append, ranFirst, Option.bind_some] at ran
  simp only [runUnder, built, Option.bind_some, run_built client complete ranAgain, same.leaves,
    observeBlock, observe_untouched typed untouched, ranFirst, List.nil_append]
  apply Exists.intro ending
  cases leaves : first.leaves with
  | true =>
      simp only [leaves, if_true, Option.some.injEq] at ran
      subst ran
      exact ⟨again, clientRuns, rfl, same.state, same.leaves, by rw [silent]; exact .nil⟩
  | false =>
      simp only [leaves, Bool.false_eq_true, if_false] at ran
      obtain ⟨later, ranLater, rfl⟩ := Option.map_eq_some_iff.mp ran
      obtain ⟨last, ranLast, parallels⟩ :=
        along World machine more first.state again.state later same.state ranLater
      apply Exists.intro
        { last with events := again.events ++ .called .addOneSBEntered [] :: last.events }
      constructor
      · exact clientRuns
      · constructor
        · simp [ranLast]
        · constructor
          · exact parallels.state
          · exact parallels.leaves
          · rw [silent]
            exact .entered parallels.told

end Blocks

/-! ## Programs -/

/-- What a program does next: one of its threads runs a block, with what its temporaries hold, or it
makes a request of the tool. The contexts are those recorded at the calls of the block. -/
inductive Action where
  | block (threadId : Nat) (contexts : Nat → Option ExeContext) (temps : Nat → Nat)
      (bb : IRSB ToolCall)
  | request (request : ClientRequest)

/-- What a program has done: the effects of a block, or a request. -/
inductive Occurrence where
  | effect (effect : Effect)
  | request (request : ClientRequest)

/-- What reaches the tool: the call of a helper by a thread, or a request. -/
inductive Signal where
  | helper (threadId : Nat) (context : Option ExeContext) (call : HelperCall)
  | request (request : ClientRequest)

/-- The calls of a block as they reach the tool. Each is made with the context that the tool
records at that moment. -/
def blockSignals (threadId : Nat) (contexts : Nat → Option ExeContext) (calls : List HelperCall) :
    List Signal :=
  calls.mapIdx (fun index call => .helper threadId (contexts index) call)

/-- The first call is signalled first, with the first context. -/
theorem blockSignals_cons (threadId : Nat) (contexts : Nat → Option ExeContext) (call : HelperCall)
    (rest : List HelperCall) :
    blockSignals threadId contexts (call :: rest) =
      .helper threadId (contexts 0) call ::
        blockSignals threadId (fun index => contexts (index + 1)) rest := by
  simp [blockSignals, List.mapIdx_cons]

section Programs

variable {World : Type}

/-- The program by itself. A request does nothing there, as the tool is not there to answer it. -/
def clientRun (machine : Machine World) : List Action → World → Option (World × List Occurrence)
  | [], world => some (world, [])
  | .block _ _ temps bb :: rest, world => do
      let ending ← machine.runBlock bb ⟨temps, world⟩
      let (last, seen) ← clientRun machine rest ending.state.world
      some (last, (observeBlock machine bb ⟨temps, world⟩).map .effect ++ seen)
  | .request request :: rest, world => do
      let (last, seen) ← clientRun machine rest world
      some (last, .request request :: seen)

/-- The program under the tool. Blocks are instrumented before they run, and requests go
straight to the tool. -/
def toolRun (machine : Machine World) (opts : IsaOptions) (word : IRType)
    (stray : IRAtom → Nat → Option IRAtom) :
    List Action → World → Option (World × List Signal)
  | [], world => some (world, [])
  | .block threadId contexts temps bb :: rest, world => do
      let ending ← runUnder machine opts word stray bb ⟨temps, world⟩
      let (last, heard) ← toolRun machine opts word stray rest ending.state.world
      some (last, blockSignals threadId contexts (helperCalls ending.events) ++ heard)
  | .request request :: rest, world => do
      let (last, heard) ← toolRun machine opts word stray rest world
      some (last, .request request :: heard)

end Programs

/-- The tool is told of everything that the program does, in its order. Nothing is left out and
nothing is told twice. -/
inductive Relays (opts : IsaOptions) (bits : Nat) : List Occurrence → List Signal → Prop
  | nil : Relays opts bits [] []
  | block {seen : List Effect} {told : List HelperCall} {rest : List Occurrence}
      {heard : List Signal} (threadId : Nat) (contexts : Nat → Option ExeContext) :
      Relayed opts bits seen told → Relays opts bits rest heard →
      Relays opts bits (seen.map .effect ++ rest) (blockSignals threadId contexts told ++ heard)
  | request {rest : List Occurrence} {heard : List Signal} (request : ClientRequest) :
      Relays opts bits rest heard →
      Relays opts bits (.request request :: rest) (.request request :: heard)

/-- A request, or a block of the client that is relayed completely. The conditions on a block
are those under which the instrumentation reports what it does. -/
def Runnable (word : IRType) : Action → Prop
  | .block _ _ _ bb => ClientBlock word bb ∧ relayable bb = true
  | .request _ => True

/-- A program under the tool does what it does by itself, and the tool is told. -/
theorem toolRun_relays (opts : IsaOptions) (stray : IRAtom → Nat → Option IRAtom) {word : IRType}
    {program : List Action} (runnable : ∀ action ∈ program, Runnable word action) {World : Type}
    (machine : Machine World) (world : World) :
    ∃ last seen heard, clientRun machine program world = some (last, seen) ∧
      toolRun machine opts word stray program world = some (last, heard) ∧
      Relays opts (wordBits word) seen heard := by
  induction program generalizing world with
  | nil => exact ⟨world, [], [], rfl, rfl, .nil⟩
  | cons action rest inductionHypothesis =>
      have later := inductionHypothesis (fun action member => runnable action (by simp [member]))
      cases action with
      | block threadId contexts temps bb =>
          obtain ⟨client, relayed⟩ := runnable _ (List.mem_cons_self)
          obtain ⟨ending, other, ran, ranUnder, parallels⟩ :=
            block_parallels opts stray client relayed machine ⟨temps, world⟩
          have sameWorld : other.state.world = ending.state.world := parallels.state.world
          obtain ⟨last, seen, heard, followed, followedUnder, relays⟩ := later ending.state.world
          apply Exists.intro last
          apply Exists.intro ((observeBlock machine bb ⟨temps, world⟩).map .effect ++ seen)
          apply Exists.intro (blockSignals threadId contexts (helperCalls other.events) ++ heard)
          constructor
          · simp [clientRun, ran, followed]
          · constructor
            · simp [toolRun, ranUnder, sameWorld, followedUnder]
            · exact .block threadId contexts parallels.told relays
      | request request =>
          obtain ⟨last, seen, heard, followed, followedUnder, relays⟩ := later world
          apply Exists.intro last
          apply Exists.intro (.request request :: seen)
          apply Exists.intro (.request request :: heard)
          constructor
          · simp [clientRun, followed]
          · constructor
            · simp [toolRun, followedUnder]
            · exact .request request relays

/-- At every point of a run under the tool the machine is in the state in which it would be
without the tool, and the tool has been told of everything that was done.

Proof: induction on the program. A block is instrumented and then executed, and its execution
relays its own effects; a request is passed on as it is. -/
theorem programs_relayed (opts : IsaOptions) (stray : IRAtom → Nat → Option IRAtom) {word : IRType}
    {program : List Action} (runnable : ∀ action ∈ program, Runnable word action) {World : Type}
    (machine : Machine World) (world : World) {made : List Action} (isMade : made <+: program) :
    ∃ last seen heard, clientRun machine made world = some (last, seen) ∧
      toolRun machine opts word stray made world = some (last, heard) ∧
      Relays opts (wordBits word) seen heard :=
  toolRun_relays opts stray (fun action member => runnable action (isMade.subset member)) machine
    world

/-- A store that is made persistent: it is followed by a flush of its line and a fence. -/
def persistBlock : IRSB ToolCall where
  tyenv := [.i64]
  stmts := [.iMark 4194304 3, .store (.rdTmp 0) (.const (.u64 7)), .iMark 4194307 4,
    .flush (.rdTmp 0) .clwb, .iMark 4194311 3, .mbe .sFence]

/-- The block is one that a client could run. -/
theorem persistBlock_client : ClientBlock .i64 persistBlock where
  isWord := .inr rfl
  named := by decide
  typed := by
    intro st member
    simp only [persistBlock, List.mem_cons, List.not_mem_nil, or_false] at member
    rcases member with rfl | rfl | rfl | rfl | rfl | rfl
    · trivial
    · exact ⟨rfl, .w64, rfl⟩
    · trivial
    · trivial
    · trivial
    · trivial

/-- A vector that is stored under a guard, and flushed by an address in its line. -/
def vectorBlock : IRSB ToolCall where
  tyenv := [.i64, .v128, .i64]
  stmts := [.iMark 4194314 5, .wrTmp 2 (.binop .add64 (some (.rdTmp 0)) (some (.const (.u64 15)))),
    .storeG (.rdTmp 0) (.rdTmp 1) (.const (.u1 true)), .flush (.rdTmp 2) .flushopt]

/-- The block is one that a client could run. -/
theorem vectorBlock_client : ClientBlock .i64 vectorBlock where
  isWord := .inr rfl
  named := by decide
  typed := by
    intro st member
    simp only [vectorBlock, List.mem_cons, List.not_mem_nil, or_false] at member
    rcases member with rfl | rfl | rfl | rfl
    · trivial
    · rfl
    · exact ⟨rfl, .v128, by decide, rfl⟩
    · trivial

/-- The first thread registers a page and makes eight bytes of it persistent. The second one writes
a vector to the next cache line, and flushes it by its last byte, without a fence. -/
def twoThreads : List Action :=
  [.request (.access (.registerMapping 4096 4096)),
    .block 1 (fun _ => none) (fun _ => 4096) persistBlock,
    .block 2 (fun _ => none) (fun _ => 4160) vectorBlock]

/-- The program has blocks of that kind only. -/
theorem twoThreads_runnable : ∀ action ∈ twoThreads, Runnable .i64 action := by
  intro action member
  simp only [twoThreads, List.mem_cons, List.not_mem_nil, or_false] at member
  rcases member with rfl | rfl | rfl
  · trivial
  · exact ⟨persistBlock_client, by decide⟩
  · exact ⟨vectorBlock_client, by decide⟩

/-- Both blocks, and the first one alone. -/
theorem programs_relayed_two_threads :
    (∀ action ∈ twoThreads, Runnable .i64 action) ∧ twoThreads.take 2 <+: twoThreads ∧
      ∃ last seen heard, clientRun byteMachine (twoThreads.take 2) (fun _ => 0) =
        some (last, seen) ∧
        toolRun byteMachine ⟨true, false⟩ .i64 (fun _ _ => none) (twoThreads.take 2) (fun _ => 0) =
          some (last, heard) ∧
        Relays ⟨true, false⟩ (wordBits .i64) seen heard :=
  ⟨twoThreads_runnable, List.take_prefix 2 twoThreads,
    programs_relayed ⟨true, false⟩ (fun _ _ => none) twoThreads_runnable byteMachine (fun _ => 0)
      (List.take_prefix 2 twoThreads)⟩

end PmDebugger
