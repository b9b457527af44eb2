import PmDebugger.ReportedWrites

/-!
# Effects of client code

An execution of client code writes to memory, flushes cache lines and passes memory fences. The
block that `pmc_instrument` returns has the same effects in the same order, and for each of them it
calls the helpers that the tool meant for it, directly after the effect and with no other call in
between: a write is reported in pieces, a flush by its address, a strong flush and a fence by
`do_fence`.

The calls that report a write are followed already. Here the helpers of flushes and fences are
added, and it is shown that nothing else is called. -/

namespace PmDebugger

open Vex

/-- What client code does to memory, and the entry into a block, which is where its first
instruction mark is. -/
inductive Effect where
  | entered
  | wrote (ranges : List (Nat × Nat))
  | flushed (addr : Nat) (kind : IRFlushKind)
  | fenced (event : IRMBusEvent)
deriving DecidableEq, Repr

/-- The write in a log. A call is no effect of the client. -/
def Effect.ofEvent : Event ToolCall → Option Effect
  | .wrote ranges => some (.wrote ranges)
  | .called _ _ => none

/-- A helper with its arguments, which are words. -/
abbrev HelperCall : Type := ToolCall × List Nat

/-- The call in a log. A write is no call. -/
def HelperCall.ofEvent : Event ToolCall → Option HelperCall
  | .wrote _ => none
  | .called call args => some (call, args)

/-- The calls in a log, in their order. This is what the tool hears of an execution. -/
def helperCalls (events : List (Event ToolCall)) : List HelperCall :=
  events.filterMap HelperCall.ofEvent

/-- The calls of two runs, one after the other. -/
@[simp] theorem helperCalls_append (early late : List (Event ToolCall)) :
    helperCalls (early ++ late) = helperCalls early ++ helperCalls late :=
  List.filterMap_append

section Observation

variable {World : Type}

/-- The effects of a statement, from the state that it meets and the end of its execution. Flushes
and memory bus events do not change the state. -/
def effects (state : State World) (st : IRStmt ToolCall) (ending : Outcome World ToolCall) :
    List Effect :=
  match st with
  | .flush addr kind => [.flushed (state.value addr) kind]
  | .mbe event => [.fenced event]
  | _ => ending.events.filterMap Effect.ofEvent

/-- The effects of statements up to a side exit. A flush or a memory bus event is an effect,
although the machine of the model does nothing for it. -/
def observe (machine : Machine World) (tyenv : List IRType) :
    List (IRStmt ToolCall) → State World → List Effect
  | [], _ => []
  | st :: rest, state =>
      match machine.exec tyenv state st with
      | none => []
      | some ending =>
          effects state st ending ++
            if ending.leaves then [] else observe machine tyenv rest ending.state

end Observation

/-- The calls for a flush. A flush that is ordered like a store is a fence as well. -/
def flushCalls (opts : IsaOptions) (addr : Nat) (kind : IRFlushKind) : List HelperCall :=
  if opts.automaticIsaRec then
    (.tracePmemFlush, [addr]) ::
      if kind = .flush ∧ opts.weakClflush = false then [(.doFence, [])] else []
  else []

/-- The calls for a memory bus event. Only two kinds of event are fences to the tool, and only
where it recognises them. -/
def fenceCalls (opts : IsaOptions) (event : IRMBusEvent) : List HelperCall :=
  if opts.automaticIsaRec ∧ (event = .fence ∨ event = .sFence) then [(.doFence, [])] else []

/-- The call that reports a piece of a write. -/
def StoreCall.helper (call : StoreCall) : HelperCall :=
  (.tracePmemStore, [call.addr, call.size, call.value])

/-- The calls are those for the effects, in their order: each entry is counted, and each write is
reported in pieces that are not empty. -/
inductive Relayed (opts : IsaOptions) (bits : Nat) : List Effect → List HelperCall → Prop
  | nil : Relayed opts bits [] []
  | entered {rest : List Effect} {told : List HelperCall} :
      Relayed opts bits rest told →
      Relayed opts bits (.entered :: rest) ((.addOneSBEntered, []) :: told)
  | wrote {ranges : List (Nat × Nat)} {calls : List StoreCall} {rest : List Effect}
      {told : List HelperCall} :
      Partition bits (calls.map StoreCall.range) ranges → (∀ call ∈ calls, 0 < call.size) →
      Relayed opts bits rest told →
      Relayed opts bits (.wrote ranges :: rest) (calls.map StoreCall.helper ++ told)
  | flushed {addr : Nat} {kind : IRFlushKind} {rest : List Effect} {told : List HelperCall} :
      Relayed opts bits rest told →
      Relayed opts bits (.flushed addr kind :: rest) (flushCalls opts addr kind ++ told)
  | fenced {event : IRMBusEvent} {rest : List Effect} {told : List HelperCall} :
      Relayed opts bits rest told →
      Relayed opts bits (.fenced event :: rest) (fenceCalls opts event ++ told)

/-- Effects may be relayed one after the other. -/
theorem Relayed.append {opts : IsaOptions} {bits : Nat} {early late : List Effect}
    {told more : List HelperCall} (first : Relayed opts bits early told)
    (second : Relayed opts bits late more) :
    Relayed opts bits (early ++ late) (told ++ more) := by
  induction first with
  | nil => exact second
  | entered _ inductionHypothesis => exact .entered inductionHypothesis
  | wrote partition positive _ inductionHypothesis =>
      simp only [List.cons_append, List.append_assoc]
      exact .wrote partition positive inductionHypothesis
  | flushed _ inductionHypothesis =>
      simp only [List.cons_append, List.append_assoc]
      exact .flushed inductionHypothesis
  | fenced _ inductionHypothesis =>
      simp only [List.cons_append, List.append_assoc]
      exact .fenced inductionHypothesis

/-! ## The calls behind a write -/

/-- An assignment, or a call that reports a piece of a write. The sizes that are reported fit
32 bits and are not zero. -/
def ReportsPiece (word : IRType) : IRStmt ToolCall → Prop
  | .wrTmp _ _ => True
  | .dirty call args guard => ∃ daddr dsize value given, 0 < dsize ∧ dsize < 2 ^ 32 ∧
      IRStmt.dirty call args guard = traceStore word daddr dsize given value
  | _ => False

/-- The block was extended by statements of that kind. What was there before is untouched. -/
def ExtendsBy (kind : IRStmt ToolCall → Prop) (sb after : IRSB ToolCall) : Prop :=
  ∃ added, Extends sb after added ∧ ∀ st ∈ added, kind st

section Reports

variable {word : IRType} {kind : IRStmt ToolCall → Prop} {sb middle after : IRSB ToolCall}

/-- An extension of an extension is one by the statements of both. -/
theorem ExtendsBy.trans (early : ExtendsBy kind sb middle) (late : ExtendsBy kind middle after) :
    ExtendsBy kind sb after := by
  obtain ⟨left, extended, leftKind⟩ := early
  obtain ⟨right, further, rightKind⟩ := late
  apply Exists.intro (left ++ right)
  constructor
  · exact extended.trans further
  · intro st member
    rcases List.mem_append.mp member with inLeft | inRight
    · exact leftKind st inLeft
    · exact rightKind st inRight

/-- A block extends itself by nothing. -/
theorem ExtendsBy.refl (kind : IRStmt ToolCall → Prop) (sb : IRSB ToolCall) :
    ExtendsBy kind sb sb :=
  ⟨[], Extends.refl sb, by simp⟩

/-- One call of the helper is added. -/
theorem extendsBy_traceStore (daddr value : IRAtom) (guard : Option IRAtom) {dsize : Nat}
    (positive : 0 < dsize) (fits : dsize < 2 ^ 32) :
    ExtendsBy (ReportsPiece word) sb
      (addStmtToIRSB sb (traceStore word daddr dsize guard value)) := by
  apply Exists.intro [traceStore word daddr dsize guard value]
  constructor
  · exact Extends.addStmt sb _
  · intro st member
    cases List.mem_singleton.mp member
    exact ⟨daddr, dsize, value, guard, positive, fits, rfl⟩

/-- An expression may need a temporary, and then one assignment is added. -/
theorem makeExpr_extendsBy {ty : IRType} {e : IRExpr} {atom : IRAtom}
    (made : makeExpr sb ty e = some (atom, after)) : ExtendsBy (ReportsPiece word) sb after := by
  simp only [makeExpr] at made
  split at made
  · cases Option.some.inj made
    apply Exists.intro [.wrTmp sb.tyenv.length e]
    constructor
    · constructor
      · rfl
      · exact List.prefix_append sb.tyenv [ty]
    · intro st member
      cases List.mem_singleton.mp member
      trivial
  · cases made

/-- A part of a wide value is taken out, its address is computed, and its call is added. -/
theorem widePart_extendsBy {tyAddr : IRType} {addr data : IRAtom} {guard : Option IRAtom}
    {partSize : Nat} {part : IROp × Nat} (positive : 0 < partSize) (fits : partSize < 2 ^ 32)
    (made : widePart word tyAddr addr data guard partSize sb part = some after) :
    ExtendsBy (ReportsPiece word) sb after := by
  simp only [widePart, Option.bind_eq_bind] at made
  obtain ⟨⟨partAddr, first⟩, madeAddr, rest⟩ := Option.bind_eq_some_iff.mp made
  obtain ⟨⟨partData, second⟩, madeData, called⟩ := Option.bind_eq_some_iff.mp rest
  cases Option.some.inj called
  exact (makeExpr_extendsBy madeAddr).trans ((makeExpr_extendsBy madeData).trans
    (extendsBy_traceStore partAddr partData guard positive fits))

/-- The loop over the parts of a vector. -/
theorem wideParts_extendsBy {tyAddr : IRType} {addr data : IRAtom} {guard : Option IRAtom}
    {partSize : Nat} {parts : List (IROp × Nat)} (positive : 0 < partSize)
    (fits : partSize < 2 ^ 32)
    (made : parts.foldlM (widePart word tyAddr addr data guard partSize) sb = some after) :
    ExtendsBy (ReportsPiece word) sb after := by
  induction parts generalizing sb with
  | nil =>
      cases Option.some.inj made
      exact ExtendsBy.refl _ _
  | cons part rest inductionHypothesis =>
      simp only [List.foldlM_cons, Option.bind_eq_bind] at made
      obtain ⟨next, turned, followed⟩ := Option.bind_eq_some_iff.mp made
      exact (widePart_extendsBy positive fits turned).trans (inductionHypothesis followed)

/-- A wide value is reported part by part. -/
theorem handleWideExpr_extendsBy {daddr data : IRAtom} {guard : Option IRAtom} {size : Nat}
    {type : IRType} (typed : typeOfIRAtom sb.tyenv data = some type)
    (sized : sizeofIRType type = some size) (vector : type = .v128 ∨ type = .v256)
    (made : handleWideExpr word sb .le daddr data guard size = some after) :
    ExtendsBy (ReportsPiece word) sb after := by
  simp only [handleWideExpr, typed, Option.bind_eq_bind, Option.bind_some] at made
  obtain ⟨tyAddr, _, rest⟩ := Option.bind_eq_some_iff.mp made
  split at rest
  · have bounds : 0 < size / (wideParts type .le).length ∧
        size / (wideParts type .le).length < 2 ^ 32 := by
      rcases vector with rfl | rfl <;> cases Option.some.inj sized <;> decide
    exact wideParts_extendsBy bounds.1 bounds.2 rest
  · cases rest

/-- `add_event_dw_guarded` adds assignments and reports only. -/
theorem addEventDwGuarded_extendsBy {daddr value : IRAtom} {guard : Option IRAtom} {size : Nat}
    (sized : (typeOfIRAtom sb.tyenv value).bind sizeofIRType = some size)
    (made : addEventDwGuarded word sb daddr size guard value = some after) :
    ExtendsBy (ReportsPiece word) sb after := by
  obtain ⟨type, typed, typeSized⟩ := Option.bind_eq_some_iff.mp sized
  simp only [addEventDwGuarded, typed, Option.bind_eq_bind, Option.bind_some] at made
  split at made
  · rename_i bound
    have positive : 0 < size := bound.1
    have fits : size < 2 ^ 32 := Nat.lt_of_le_of_lt bound.2 (by decide)
    cases value with
    | rdTmp tmp =>
        simp only at made
        split at made
        · cases Option.some.inj made
          exact extendsBy_traceStore _ _ _ positive fits
        · split at made
          · obtain ⟨⟨bits, next⟩, converted, called⟩ := Option.bind_eq_some_iff.mp made
            cases Option.some.inj called
            exact (makeExpr_extendsBy converted).trans
              (extendsBy_traceStore _ _ _ positive fits)
          · split at made
            · obtain ⟨op, _, rest⟩ := Option.bind_eq_some_iff.mp made
              obtain ⟨⟨bits, next⟩, converted, called⟩ := Option.bind_eq_some_iff.mp rest
              cases Option.some.inj called
              exact (makeExpr_extendsBy converted).trans
                (extendsBy_traceStore _ _ _ positive fits)
            · split at made
              · rename_i vector
                exact handleWideExpr_extendsBy typed typeSized vector made
              · cases Option.some.inj made
                exact ExtendsBy.refl _ _
    | const con =>
        simp only at made
        split at made
        · obtain ⟨wide, _, called⟩ := Option.bind_eq_some_iff.mp made
          cases Option.some.inj called
          exact extendsBy_traceStore _ _ _ positive fits
        · split at made
          · rename_i vector
            exact handleWideExpr_extendsBy typed typeSized vector made
          · cases Option.some.inj made
            exact ExtendsBy.refl _ _
  · cases made

end Reports

/-- A write, or the report of a piece of one. An execution with such events only has no flush
and no fence to tell of. -/
def Quoted (event : Event ToolCall) : Prop :=
  ∀ call args, event = .called call args →
    ∃ report : StoreCall, 0 < report.size ∧ event = report.event

section Quotes

variable {World : Type} {machine : Machine World} {word : IRType} {env : List IRType}

/-- The statements that were added call nothing else. -/
theorem exec_quoted {st : IRStmt ToolCall} (reporting : ReportsPiece word st) {state : State World}
    {ending : Outcome World ToolCall} (executed : machine.exec env state st = some ending)
    {event : Event ToolCall} (member : event ∈ ending.events) : Quoted event := by
  cases st with
  | wrTmp tmp data =>
      rw [exec_quiet rfl executed] at member
      cases member
  | dirty call args guard =>
      obtain ⟨daddr, dsize, value, given, positive, fits, same⟩ := reporting
      rw [same] at executed
      cases Option.some.inj executed
      simp only at member
      split at member
      · cases List.mem_singleton.mp member
        intro _ _ _
        apply Exists.intro ⟨state.value daddr, dsize, state.value value⟩
        constructor
        · exact positive
        · simp [StoreCall.event, mkIRExprHWord_value state fits]
      · cases member
  | noOp | iMark _ _ | plain _ _ _ _ | exit _ | flush _ _ | mbe _ | store _ _ | storeG _ _ _ | cas _
  | llsc _ _ _ => exact absurd reporting id

/-- A statement of the client calls nothing, whatever is in scope with it. -/
theorem exec_silent {tyenv : List IRType} {st : IRStmt ToolCall} (typed : WellTyped word tyenv st)
    {state : State World} {ending : Outcome World ToolCall}
    (executed : machine.exec env state st = some ending) {event : Event ToolCall}
    (member : event ∈ ending.events) : Quoted event := by
  have write (ranges : List (Nat × Nat)) : Quoted (.wrote ranges) := by
    intro call args clash
    cases clash
  cases st with
  | noOp | iMark _ _ | plain _ _ _ _ | wrTmp _ _ | exit _ | flush _ _ | mbe _ =>
      rw [exec_quiet rfl executed] at member
      cases member
  | store addr data =>
      obtain ⟨size, _, rfl⟩ := Option.map_eq_some_iff.mp executed
      cases List.mem_singleton.mp member
      exact write _
  | storeG addr data guard =>
      obtain ⟨size, _, rfl⟩ := Option.map_eq_some_iff.mp executed
      split at member
      · cases List.mem_singleton.mp member
        exact write _
      · cases member
  | cas details =>
      obtain ⟨size, _, rfl⟩ := Option.map_eq_some_iff.mp executed
      simp only [Machine.execCas] at member
      split at member <;> split at member
      · cases List.mem_singleton.mp member
        exact write _
      · cases member
      · cases List.mem_singleton.mp member
        exact write _
      · cases member
  | llsc _ _ _ => exact absurd typed id
  | dirty _ _ _ => exact absurd typed id

/-- What no statement of a list does, the list does not do. -/
theorem run_events {property : Event ToolCall → Prop} {stmts : List (IRStmt ToolCall)}
    (each : ∀ st ∈ stmts, ∀ (state : State World) (ending : Outcome World ToolCall),
      machine.exec env state st = some ending → ∀ event ∈ ending.events, property event)
    {state : State World} {ending : Outcome World ToolCall}
    (executed : machine.run env stmts state = some ending) :
    ∀ event ∈ ending.events, property event := by
  induction stmts generalizing state ending with
  | nil =>
      cases Option.some.inj executed
      simp
  | cons st rest inductionHypothesis =>
      obtain ⟨step, stepped, followed⟩ := Option.bind_eq_some_iff.mp executed
      have first := each st (by simp) state step stepped
      split at followed
      · cases Option.some.inj followed
        exact first
      · obtain ⟨later, ran, rfl⟩ := Option.map_eq_some_iff.mp followed
        intro event member
        rcases List.mem_append.mp member with early | late
        · exact first event early
        · exact inductionHypothesis (fun st member => each st (by simp [member])) ran event late

end Quotes

/-- Reports without other calls between them relay the writes. -/
theorem Reported.relayed {bits : Nat} {log told : List (Event ToolCall)}
    (reported : Reported bits log told) (opts : IsaOptions)
      (quoted : ∀ event ∈ told, Quoted event) :
    Relayed opts bits (log.filterMap Effect.ofEvent) (helperCalls told) := by
  induction reported with
  | nil => exact .nil
  | @silent call args _ _ other _ _ =>
      obtain ⟨report, _, same⟩ := quoted _ List.mem_cons_self call args rfl
      injection same with sameCall
      exact absurd sameCall other
  | @wrote ranges calls log told partition _ inductionHypothesis =>
      have rest := inductionHypothesis (fun event member => quoted event (by simp [member]))
      have positive : ∀ call ∈ calls, 0 < call.size := by
        intro call member
        have inTold : call.event ∈ calls.map StoreCall.event ++ told :=
          List.mem_append_left _ (List.mem_map_of_mem member)
        obtain ⟨report, size, same⟩ := quoted call.event (List.mem_cons_of_mem _ inTold) _ _ rfl
        simp only [StoreCall.event, Event.called.injEq, List.cons.injEq] at same
        rw [same.2.2.1]
        exact size
      have listed : helperCalls (calls.map StoreCall.event) = calls.map StoreCall.helper := by
        simp only [helperCalls, List.filterMap_map]
        exact congrFun List.filterMap_eq_map calls
      have whole : helperCalls (.wrote ranges :: (calls.map StoreCall.event ++ told)) =
          calls.map StoreCall.helper ++ helperCalls told := by
        rw [← listed, ← helperCalls_append]
        rfl
      rw [whole]
      exact .wrote partition positive rest

/-! ## One statement -/

/-- The calls in an execution of the statements that were added for a statement of the client are
those for its effects. -/
def Recounts (opts : IsaOptions) (bits : Nat) (tyenv : List IRType) (st : IRStmt ToolCall)
    (added : List (IRStmt ToolCall)) : Prop :=
  ∀ (World : Type) (machine : Machine World) (more : List IRType) (first second : State World)
    (ending other : Outcome World ToolCall), Agree tyenv.length first second →
    machine.exec tyenv first st = some ending →
    machine.run (tyenv ++ more) added second = some other →
    Relayed opts bits (effects first st ending) (helperCalls other.events)

section Statements

variable {opts : IsaOptions} {bits : Nat} {word : IRType} {tyenv : List IRType}
variable {st : IRStmt ToolCall} {added : List (IRStmt ToolCall)}

/-- A statement whose effects are its writes. Flushes and memory bus events have others. -/
def onlyWrites : IRStmt ToolCall → Bool
  | .flush _ _ | .mbe _ => false
  | _ => true

/-- A statement that only writes has the effects that its execution shows. -/
theorem effects_writes {World : Type} (writes : onlyWrites st = true) (state : State World)
    (ending : Outcome World ToolCall) :
    effects state st ending = ending.events.filterMap Effect.ofEvent := by
  cases st with
  | flush _ _ | mbe _ => cases writes
  | _ => rfl

/-- The statements that tell a statement of the client and call nothing else recount it. -/
theorem recounts_of_told (told : Transcribes bits tyenv st added) (writes : onlyWrites st = true)
    (typed : WellTyped word tyenv st)
    (each : ∀ stmt ∈ added, stmt = st ∨ ReportsPiece word stmt) :
      Recounts opts bits tyenv st added := by
  intro World machine more first second ending other agree executed ran
  obtain ⟨same, ranAgain, tells⟩ := told World machine more first second ending agree executed
  cases Option.some.inj (ran.symm.trans ranAgain)
  rw [effects_writes writes]
  have quotes : ∀ stmt ∈ added, ∀ (state : State World) (reached : Outcome World ToolCall),
      machine.exec (tyenv ++ more) state stmt = some reached →
      ∀ event ∈ reached.events, Quoted event := by
    intro stmt member state reached stepped event inEvents
    rcases each stmt member with rfl | reporting
    · exact exec_silent typed stepped inEvents
    · exact exec_quoted reporting stepped inEvents
  exact tells.events.relayed opts (run_events quotes ran)

end Statements

section Turns

variable {opts : IsaOptions} {word : IRType} {stray : IRAtom → Nat → Option IRAtom}
variable {tyenv : List IRType} {sb after : IRSB ToolCall} {st : IRStmt ToolCall}

/-- An extension by statements of one kind is one by statements of a larger kind. -/
theorem ExtendsBy.mono {kind larger : IRStmt ToolCall → Prop} (extended : ExtendsBy kind sb after)
    (each : ∀ st, kind st → larger st) : ExtendsBy larger sb after := by
  obtain ⟨added, grown, kinds⟩ := extended
  exact ⟨added, grown, fun st member => each st (kinds st member)⟩

/-- What a block was extended by is determined by the two blocks. -/
theorem ExtendsBy.all {kind : IRStmt ToolCall → Prop} (extended : ExtendsBy kind sb after)
    {added : List (IRStmt ToolCall)} (grown : Extends sb after added) : ∀ st ∈ added, kind st := by
  obtain ⟨other, alsoGrown, kinds⟩ := extended
  have same : other = added := List.append_cancel_left (alsoGrown.stmts.symm.trans grown.stmts)
  exact same ▸ kinds

/-- A copy of the statement, and assignments and reports. This is all that the instrumentation
puts in its place. -/
def CopyOrReport (word : IRType) (st stmt : IRStmt ToolCall) : Prop :=
  stmt = st ∨ ReportsPiece word stmt

/-- The statement itself is copied. -/
theorem extendsBy_copy (st : IRStmt ToolCall) :
    ExtendsBy (CopyOrReport word st) sb (addStmtToIRSB sb st) :=
  ⟨[st], Extends.addStmt sb st, fun _ member => .inl (List.mem_singleton.mp member)⟩

/-- A double-width value is reported in one call or in parts. -/
theorem addEventDwGuarded_copyOrReport {daddr value : IRAtom} {guard : Option IRAtom} {size : Nat}
    {type : IRType} (fits : tyenv <+: sb.tyenv) (typed : typeOfIRAtom tyenv value = some type)
    (sized : sizeofIRType type = some size) (st : IRStmt ToolCall)
    (made : addEventDwGuarded word sb daddr size guard value = some after) :
    ExtendsBy (CopyOrReport word st) sb after := by
  have stillSized : (typeOfIRAtom sb.tyenv value).bind sizeofIRType = some size := by
    rw [typeOfIRAtom_mono fits typed]
    exact sized
  exact (addEventDwGuarded_extendsBy stillSized made).mono (fun _ => .inr)

/-- One turn of the loop for a statement that writes. -/
theorem instrumentStmt_added (fits : tyenv <+: sb.tyenv) (typed : WellTyped word tyenv st)
    (single : doubleWidth st = false) (writes : onlyWrites st = true)
    (made : instrumentStmt opts word stray tyenv sb st = some after) :
    ExtendsBy (CopyOrReport word st) sb after := by
  cases st with
  | noOp =>
      cases Option.some.inj made
      exact ExtendsBy.refl _ _
  | iMark _ _ | plain _ _ _ _ | wrTmp _ _ | exit _ =>
      cases Option.some.inj made
      exact extendsBy_copy _
  | flush _ _ | mbe _ => cases writes
  | store addr data | storeG addr data guard =>
      simp only [instrumentStmt, addEventDw, Option.bind_eq_bind] at made
      obtain ⟨type, dataTyped, rest⟩ := Option.bind_eq_some_iff.mp made
      obtain ⟨size, sized, reported⟩ := Option.bind_eq_some_iff.mp rest
      apply (extendsBy_copy _).trans
      apply addEventDwGuarded_copyOrReport _ dataTyped sized _ reported
      exact fits
  | cas details =>
      have low : details.high = none := by simpa [doubleWidth] using single
      simp only [instrumentStmt, instrumentCas, low, Option.bind_eq_bind] at made
      obtain ⟨type, dataTyped, rest⟩ := Option.bind_eq_some_iff.mp made
      obtain ⟨size, sized, rest⟩ := Option.bind_eq_some_iff.mp rest
      obtain ⟨loType, _, rest⟩ := Option.bind_eq_some_iff.mp rest
      obtain ⟨width, _, rest⟩ := Option.bind_eq_some_iff.mp rest
      obtain ⟨⟨guard, compared⟩, madeGuard, reported⟩ := Option.bind_eq_some_iff.mp rest
      have guarded : ExtendsBy (ReportsPiece word) _ compared := makeExpr_extendsBy madeGuard
      have larger : tyenv <+: compared.tyenv := by
        obtain ⟨_, grown, _⟩ := guarded
        exact fits.trans grown.tyenv
      exact (extendsBy_copy _).trans ((guarded.mono (fun _ => .inr)).trans
        (addEventDwGuarded_copyOrReport larger dataTyped sized _ reported))
  | llsc _ _ _ => exact absurd typed id
  | dirty _ _ _ => exact absurd typed id

/-- An execution of calls that are always made. -/
theorem run_calls {World : Type} (machine : Machine World) (env : List IRType)
    (state : State World) (made : List (ToolCall × List IRAtom)) :
    machine.run env (made.map (fun call => unsafeIRDirty0N call.1 call.2 none)) state =
      some ⟨state, made.map (fun call => .called call.1 (call.2.map state.value)), false⟩ := by
  induction made with
  | nil => rfl
  | cons call rest inductionHypothesis =>
      have called : machine.exec env state (unsafeIRDirty0N call.1 call.2 none) =
          some ⟨state, [.called call.1 (call.2.map state.value)], false⟩ := by
        simp [Machine.exec, unsafeIRDirty0N, State.value, IRConst.value]
      rw [List.map_cons, machine.run_cons called rfl, inductionHypothesis]
      rfl

/-- A statement that is copied with calls behind it, and does nothing that its state would show. -/
theorem recounts_calls {bits : Nat} {added : List (IRStmt ToolCall)}
    {made : List (ToolCall × List IRAtom)}
    (listed : added = st :: made.map (fun call => unsafeIRDirty0N call.1 call.2 none))
    (stays : ∀ (World : Type) (machine : Machine World) (env : List IRType) (state : State World),
      machine.exec env state st = some ⟨state, [], false⟩)
    (told : ∀ (World : Type) (first second : State World) (ending : Outcome World ToolCall),
      Agree tyenv.length first second → Relayed opts bits (effects first st ending)
        (made.map (fun call => (call.1, call.2.map second.value)))) :
    Recounts opts bits tyenv st added := by
  intro World machine more first second ending other agree executed ran
  rw [listed, machine.run_cons (stays World machine (tyenv ++ more) second) rfl, run_calls] at ran
  cases Option.some.inj ran
  have calls : helperCalls (made.map (fun call => .called call.1 (call.2.map second.value))) =
      made.map (fun call => (call.1, call.2.map second.value)) := by
    simp only [helperCalls, List.filterMap_map]
    exact congrFun List.filterMap_eq_map made
  simp only [List.nil_append, calls]
  exact told World first second ending agree

/-- A flush with its calls. -/
theorem flush_recounts {addr : IRAtom} {kind : IRFlushKind}
    (named : (IRStmt.flush addr kind : IRStmt ToolCall).WellScoped tyenv.length)
    (built : instrumentStmt opts word stray tyenv sb (.flush addr kind) = some after)
    {added : List (IRStmt ToolCall)} (grown : Extends sb after added) (bits : Nat) :
    Recounts opts bits tyenv (.flush addr kind) added := by
  have inScope : addr.InScope tyenv.length := named.reads addr (by simp [IRStmt.reads])
  obtain ⟨type, addrTyped⟩ := type_of_inScope inScope
  have flushed (World : Type) (first second : State World) (ending : Outcome World ToolCall) :
      Relayed opts bits (effects first (.flush addr kind) ending)
        (flushCalls opts (first.value addr) kind) := by
    have one : Relayed opts bits [.flushed (first.value addr) kind] _ := .flushed .nil
    rwa [List.append_nil] at one
  simp only [instrumentStmt, addrTyped, Option.bind_eq_bind, Option.bind_some] at built
  split at built
  · rename_i enabled
    split at built
    · rename_i strong
      cases Option.some.inj built
      apply @recounts_calls opts tyenv _ bits added [(.tracePmemFlush, [addr]), (.doFence, [])]
      · apply @List.append_cancel_left _ sb.stmts
        simp [← grown.stmts, addSimpleEvent, addFlushEvent, addStmtToIRSB]
      · exact fun _ _ _ _ => rfl
      · intro World first second ending agree
        simpa [flushCalls, enabled, strong, agree.value inScope] using
          flushed World first second ending
    · rename_i weak
      cases Option.some.inj built
      apply @recounts_calls opts tyenv _ bits added [(.tracePmemFlush, [addr])]
      · apply @List.append_cancel_left _ sb.stmts
        simp [← grown.stmts, addFlushEvent, addStmtToIRSB]
      · exact fun _ _ _ _ => rfl
      · intro World first second ending agree
        simpa [flushCalls, enabled, weak, agree.value inScope] using
          flushed World first second ending
  · rename_i disabled
    cases Option.some.inj built
    apply @recounts_calls opts tyenv _ bits added []
    · apply @List.append_cancel_left _ sb.stmts
      simp [← grown.stmts, addStmtToIRSB]
    · exact fun _ _ _ _ => rfl
    · intro World first second ending agree
      simpa [flushCalls, disabled] using flushed World first second ending

/-- A memory bus event with its calls. -/
theorem mbe_recounts {event : IRMBusEvent}
    (built : instrumentStmt opts word stray tyenv sb (.mbe event) = some after)
    {added : List (IRStmt ToolCall)} (grown : Extends sb after added) (bits : Nat) :
    Recounts opts bits tyenv (.mbe event) added := by
  have fenced : Relayed opts bits [.fenced event] (fenceCalls opts event) := by
    have one : Relayed opts bits [.fenced event] _ := .fenced .nil
    rwa [List.append_nil] at one
  have recounted (made : List (ToolCall × List IRAtom))
      (isMade : made = if opts.automaticIsaRec ∧ (event = .fence ∨ event = .sFence)
        then [(.doFence, [])] else [])
      (result : after = ⟨sb.tyenv, sb.stmts ++ .mbe event ::
        made.map (fun call => unsafeIRDirty0N call.1 call.2 none)⟩) :
      Recounts opts bits tyenv (.mbe event) added := by
    apply @recounts_calls opts tyenv _ bits added made
    · apply @List.append_cancel_left _ sb.stmts
      rw [← grown.stmts, result]
    · exact fun _ _ _ _ => rfl
    · intro World first second ending agree
      have calls : made.map (fun call => (call.1, call.2.map second.value)) =
          fenceCalls opts event := by
        rw [isMade, fenceCalls]
        split <;> rfl
      rw [calls]
      exact fenced
  simp only [instrumentStmt] at built
  split at built
  · rename_i enabled
    split at built
    · cases Option.some.inj built
      exact recounted [(.doFence, [])] (by simp [enabled]) (by simp [addSimpleEvent, addStmtToIRSB])
    · cases Option.some.inj built
      exact recounted [(.doFence, [])] (by simp [enabled]) (by simp [addSimpleEvent, addStmtToIRSB])
    · rename_i notFence notStoreFence
      have neither : ¬ (event = .fence ∨ event = .sFence) := fun either =>
        either.elim notFence notStoreFence
      cases Option.some.inj built
      exact recounted [] (by simp [neither]) (by simp [addStmtToIRSB])
  · rename_i disabled
    cases Option.some.inj built
    exact recounted [] (by simp [disabled]) (by simp [addStmtToIRSB])

/-- One turn of the loop for a statement that is not a double-width compare-and-swap: the
statements that are added do what it does, and call the helpers for its effects. -/
theorem instrumentStmt_recounts (isWord : word = .i32 ∨ word = .i64) (fits : tyenv <+: sb.tyenv)
    (named : st.WellScoped tyenv.length) (typed : WellTyped word tyenv st)
    (single : doubleWidth st = false) :
    ∃ after added, instrumentStmt opts word stray tyenv sb st = some after ∧
      Extends sb after added ∧ (∀ stmt ∈ added, stmt.complete = true) ∧
      Transcribes (wordBits word) tyenv st added ∧
        Recounts opts (wordBits word) tyenv st added := by
  obtain ⟨after, built, added, grown, _, complete, told⟩ :=
    @instrumentStmt_instruments opts word stray tyenv sb st isWord fits named typed single
  apply Exists.intro after
  apply Exists.intro added
  apply And.intro built
  apply And.intro grown
  apply And.intro complete
  apply And.intro told
  cases writes : onlyWrites st with
  | true =>
      have each := (instrumentStmt_added fits typed single writes built).all grown
      exact recounts_of_told told writes typed each
  | false =>
      cases st with
      | flush addr kind => exact flush_recounts named built grown _
      | mbe event => exact mbe_recounts built grown _
      | noOp | iMark _ _ | plain _ _ _ _ | wrTmp _ _ | exit _ | store _ _ | storeG _ _ _ | cas _
      | llsc _ _ _ | dirty _ _ _ => cases writes

end Turns

end PmDebugger
