import AdacHybridMsp430.AbortingRuns
import AdacHybridMsp430.RuntimeSystem

/-!
# Failed checks

The body of `Ada.Exceptions`: the entries that compiled code calls when a check
fails, and runs of a program that performs operations and checks.  Control
should end in the last chance handler.  The helpers behind the check entries
have null bodies, so that it does exactly when the first failing check calls
`Raise_Exception` or one of its variants.
-/

namespace AdacHybridMsp430

namespace Exceptions

open AbortingRuns Target

/-- What the body of a procedure does: nothing, call the last chance handler,
or call another procedure of the package. -/
inductive Code
  | null
  | lastChanceHandler (msg : Address) (line : Int)
  | call (callee : Code)
deriving DecidableEq

/-- A string object. -/
structure Message where
  address : Address
  text : String

section Helpers

def raiseException (_e : Address) (message : Message) : Code :=
  .lastChanceHandler message.address 0

def raiseExceptionNoDefer (_e : Address) (message : Message) : Code :=
  .lastChanceHandler message.address 0

def raiseExceptionAlways (_e : Address) (message : Message) : Code :=
  .lastChanceHandler message.address 0

def raiseWithMsg (_e : Address) : Code :=
  .null

def raiseConstraintError (_file : Address) (_line : Int) : Code :=
  .null

def raiseConstraintErrorMsg (_file : Address) (_line _column : Int)
    (_msg : String) : Code :=
  .null

def raiseProgramError (_file : Address) (_line : Int) : Code :=
  .null

def raiseProgramErrorMsg (_file : Address) (_line : Int) (_msg : String) :
    Code :=
  .null

def raiseStorageError (_file : Address) (_line : Int) : Code :=
  .null

def raiseStorageErrorMsg (_file : Address) (_line : Int) (_msg : String) :
    Code :=
  .null

end Helpers

section Reasons

/-- The reason strings are null-terminated. -/
def reason (text : String) : String :=
  text.push (Char.ofNat 0)

def rmsg00 : String := reason "access check failed"
def rmsg01 : String := reason "access parameter is null"
def rmsg02 : String := reason "discriminant check failed"
def rmsg03 : String := reason "divide by zero"
def rmsg04 : String := reason "explicit raise"
def rmsg05 : String := reason "index check failed"
def rmsg06 : String := reason "invalid data"
def rmsg07 : String := reason "length check failed"
def rmsg08 : String := reason "null Exception_Id"
def rmsg09 : String := reason "null-exclusion check failed"
def rmsg10 : String := reason "overflow check failed"
def rmsg11 : String := reason "partition check failed"
def rmsg12 : String := reason "range check failed"
def rmsg13 : String := reason "tag check failed"
def rmsg14 : String := reason "access before elaboration"
def rmsg15 : String := reason "accessibility check failed"
def rmsg16 : String := reason "attempt to take address of intrinsic subprogram"
def rmsg17 : String := reason "aliased parameters"
def rmsg18 : String := reason "all guards closed"
def rmsg19 : String := reason "improper use of generic subtype with predicate"
def rmsg20 : String := reason "Current_Task referenced in entry body"
def rmsg21 : String := reason "duplicated entry address"
def rmsg22 : String := reason "explicit raise"
def rmsg24 : String := reason "implicit return with No_Return"
def rmsg25 : String := reason "misaligned address value"
def rmsg26 : String := reason "missing return"
def rmsg27 : String := reason "overlaid controlled object"
def rmsg28 : String := reason "potentially blocking operation"
def rmsg29 : String := reason "stubbed subprogram called"
def rmsg30 : String := reason "unchecked union restriction"
def rmsg31 : String :=
  reason "actual/returned class-wide value not transportable"
def rmsg32 : String := reason "empty storage pool"
def rmsg33 : String := reason "explicit raise"
def rmsg34 : String := reason "infinite recursion"
def rmsg35 : String := reason "object too large"
def rmsg36 : String := reason "stream operation not allowed"
def rmsg37 : String := reason "build-in-place mismatch"

end Reasons

section Checks

/-- An entry with a file and a line. -/
abbrev Check :=
  Address → Int → Code

def rcheckCe (msg : String) : Check := fun file line =>
  .call (raiseConstraintErrorMsg file line 0 msg)

def rcheckPe (msg : String) : Check := fun file line =>
  .call (raiseProgramErrorMsg file line msg)

def rcheckSe (msg : String) : Check := fun file line =>
  .call (raiseStorageErrorMsg file line msg)

def rcheckCeAccessCheck : Check := rcheckCe rmsg00
def rcheckCeNullAccessParameter : Check := rcheckCe rmsg01
def rcheckCeDiscriminantCheck : Check := rcheckCe rmsg02
def rcheckCeDivideByZero : Check := rcheckCe rmsg03
def rcheckCeExplicitRaise : Check := rcheckCe rmsg04
def rcheckCeIndexCheck : Check := rcheckCe rmsg05
def rcheckCeInvalidData : Check := rcheckCe rmsg06
def rcheckCeLengthCheck : Check := rcheckCe rmsg07
def rcheckCeNullExceptionId : Check := rcheckCe rmsg08
def rcheckCeNullNotAllowed : Check := rcheckCe rmsg09
def rcheckCeOverflowCheck : Check := rcheckCe rmsg10
def rcheckCePartitionCheck : Check := rcheckCe rmsg11
def rcheckCeRangeCheck : Check := rcheckCe rmsg12
def rcheckCeTagCheck : Check := rcheckCe rmsg13

def rcheckPeAccessBeforeElaboration : Check := rcheckPe rmsg14
def rcheckPeAccessibilityCheck : Check := rcheckPe rmsg15
def rcheckPeAddressOfIntrinsic : Check := rcheckPe rmsg16
def rcheckPeAliasedParameters : Check := rcheckPe rmsg17
def rcheckPeAllGuardsClosed : Check := rcheckPe rmsg18
def rcheckPeBadPredicatedGenericType : Check := rcheckPe rmsg19
def rcheckPeBuildInPlaceMismatch : Check := rcheckPe rmsg37
def rcheckPeCurrentTaskInEntryBody : Check := rcheckPe rmsg20
def rcheckPeDuplicatedEntryAddress : Check := rcheckPe rmsg21
def rcheckPeExplicitRaise : Check := rcheckPe rmsg22
def rcheckPeImplicitReturn : Check := rcheckPe rmsg24
def rcheckPeMisalignedAddressValue : Check := rcheckPe rmsg25
def rcheckPeMissingReturn : Check := rcheckPe rmsg26
def rcheckPeNonTransportableActual : Check := rcheckPe rmsg31
def rcheckPeOverlaidControlledObject : Check := rcheckPe rmsg27
def rcheckPePotentiallyBlockingOperation : Check := rcheckPe rmsg28
def rcheckPeStreamOperationNotAllowed : Check := rcheckPe rmsg36
def rcheckPeStubbedSubprogramCalled : Check := rcheckPe rmsg29
def rcheckPeUncheckedUnionRestriction : Check := rcheckPe rmsg30

def rcheckSeEmptyStoragePool : Check := rcheckSe rmsg32
def rcheckSeExplicitRaise : Check := rcheckSe rmsg33
def rcheckSeInfiniteRecursion : Check := rcheckSe rmsg34
def rcheckSeObjectTooLarge : Check := rcheckSe rmsg35

def rcheckPeFinalizeRaisedException : Check := fun _ _ =>
  .null

def rcheckCeAccessCheckExt (file : Address) (line column : Int) : Code :=
  .call (raiseConstraintErrorMsg file line column rmsg00)

def rcheckCeExt (msg : String) (file : Address)
    (line column _index _first _last : Int) : Code :=
  .call (raiseConstraintErrorMsg file line column msg)

def rcheckCeIndexCheckExt := rcheckCeExt rmsg05
def rcheckCeInvalidDataExt := rcheckCeExt rmsg06
def rcheckCeRangeCheckExt := rcheckCeExt rmsg12

end Checks

/-- The entries of the package, by the procedures behind them. -/
inductive Entry
  | rcheckCeAccessCheck
  | rcheckCeNullAccessParameter
  | rcheckCeDiscriminantCheck
  | rcheckCeDivideByZero
  | rcheckCeExplicitRaise
  | rcheckCeIndexCheck
  | rcheckCeInvalidData
  | rcheckCeLengthCheck
  | rcheckCeNullExceptionId
  | rcheckCeNullNotAllowed
  | rcheckCeOverflowCheck
  | rcheckCePartitionCheck
  | rcheckCeRangeCheck
  | rcheckCeTagCheck
  | rcheckPeAccessBeforeElaboration
  | rcheckPeAccessibilityCheck
  | rcheckPeAddressOfIntrinsic
  | rcheckPeAliasedParameters
  | rcheckPeAllGuardsClosed
  | rcheckPeBadPredicatedGenericType
  | rcheckPeBuildInPlaceMismatch
  | rcheckPeCurrentTaskInEntryBody
  | rcheckPeDuplicatedEntryAddress
  | rcheckPeExplicitRaise
  | rcheckPeImplicitReturn
  | rcheckPeMisalignedAddressValue
  | rcheckPeMissingReturn
  | rcheckPeNonTransportableActual
  | rcheckPeOverlaidControlledObject
  | rcheckPePotentiallyBlockingOperation
  | rcheckPeStreamOperationNotAllowed
  | rcheckPeStubbedSubprogramCalled
  | rcheckPeUncheckedUnionRestriction
  | rcheckSeEmptyStoragePool
  | rcheckSeExplicitRaise
  | rcheckSeInfiniteRecursion
  | rcheckSeObjectTooLarge
  | rcheckPeFinalizeRaisedException
  | rcheckCeAccessCheckExt
  | rcheckCeIndexCheckExt
  | rcheckCeInvalidDataExt
  | rcheckCeRangeCheckExt
  | raiseConstraintError
  | raiseConstraintErrorMsg
  | raiseProgramError
  | raiseProgramErrorMsg
  | raiseStorageError
  | raiseStorageErrorMsg
  | raiseWithMsg
  | raiseException
  | raiseExceptionNoDefer
  | raiseExceptionAlways
deriving DecidableEq

/-- The arguments of a call; each entry takes some of them. -/
structure Arguments where
  file : Address
  line : Int
  column : Int
  index : Int
  first : Int
  last : Int
  exceptionId : Address
  message : Message
  reason : String

/-- A call of an entry with a file and a line. -/
def located (check : Check) (call : Arguments) : Code :=
  check call.file call.line

/-- The body of an entry in a call. -/
def codeOf : Entry → Arguments → Code
  | .rcheckCeAccessCheck => located rcheckCeAccessCheck
  | .rcheckCeNullAccessParameter => located rcheckCeNullAccessParameter
  | .rcheckCeDiscriminantCheck => located rcheckCeDiscriminantCheck
  | .rcheckCeDivideByZero => located rcheckCeDivideByZero
  | .rcheckCeExplicitRaise => located rcheckCeExplicitRaise
  | .rcheckCeIndexCheck => located rcheckCeIndexCheck
  | .rcheckCeInvalidData => located rcheckCeInvalidData
  | .rcheckCeLengthCheck => located rcheckCeLengthCheck
  | .rcheckCeNullExceptionId => located rcheckCeNullExceptionId
  | .rcheckCeNullNotAllowed => located rcheckCeNullNotAllowed
  | .rcheckCeOverflowCheck => located rcheckCeOverflowCheck
  | .rcheckCePartitionCheck => located rcheckCePartitionCheck
  | .rcheckCeRangeCheck => located rcheckCeRangeCheck
  | .rcheckCeTagCheck => located rcheckCeTagCheck
  | .rcheckPeAccessBeforeElaboration => located rcheckPeAccessBeforeElaboration
  | .rcheckPeAccessibilityCheck => located rcheckPeAccessibilityCheck
  | .rcheckPeAddressOfIntrinsic => located rcheckPeAddressOfIntrinsic
  | .rcheckPeAliasedParameters => located rcheckPeAliasedParameters
  | .rcheckPeAllGuardsClosed => located rcheckPeAllGuardsClosed
  | .rcheckPeBadPredicatedGenericType =>
      located rcheckPeBadPredicatedGenericType
  | .rcheckPeBuildInPlaceMismatch => located rcheckPeBuildInPlaceMismatch
  | .rcheckPeCurrentTaskInEntryBody => located rcheckPeCurrentTaskInEntryBody
  | .rcheckPeDuplicatedEntryAddress => located rcheckPeDuplicatedEntryAddress
  | .rcheckPeExplicitRaise => located rcheckPeExplicitRaise
  | .rcheckPeImplicitReturn => located rcheckPeImplicitReturn
  | .rcheckPeMisalignedAddressValue => located rcheckPeMisalignedAddressValue
  | .rcheckPeMissingReturn => located rcheckPeMissingReturn
  | .rcheckPeNonTransportableActual => located rcheckPeNonTransportableActual
  | .rcheckPeOverlaidControlledObject =>
      located rcheckPeOverlaidControlledObject
  | .rcheckPePotentiallyBlockingOperation =>
      located rcheckPePotentiallyBlockingOperation
  | .rcheckPeStreamOperationNotAllowed =>
      located rcheckPeStreamOperationNotAllowed
  | .rcheckPeStubbedSubprogramCalled => located rcheckPeStubbedSubprogramCalled
  | .rcheckPeUncheckedUnionRestriction =>
      located rcheckPeUncheckedUnionRestriction
  | .rcheckSeEmptyStoragePool => located rcheckSeEmptyStoragePool
  | .rcheckSeExplicitRaise => located rcheckSeExplicitRaise
  | .rcheckSeInfiniteRecursion => located rcheckSeInfiniteRecursion
  | .rcheckSeObjectTooLarge => located rcheckSeObjectTooLarge
  | .rcheckPeFinalizeRaisedException => located rcheckPeFinalizeRaisedException
  | .rcheckCeAccessCheckExt =>
      fun call => rcheckCeAccessCheckExt call.file call.line call.column
  | .rcheckCeIndexCheckExt =>
      fun call => rcheckCeIndexCheckExt call.file call.line call.column
        call.index call.first call.last
  | .rcheckCeInvalidDataExt =>
      fun call => rcheckCeInvalidDataExt call.file call.line call.column
        call.index call.first call.last
  | .rcheckCeRangeCheckExt =>
      fun call => rcheckCeRangeCheckExt call.file call.line call.column
        call.index call.first call.last
  | .raiseConstraintError => located raiseConstraintError
  | .raiseConstraintErrorMsg =>
      fun call => raiseConstraintErrorMsg call.file call.line call.column
        call.reason
  | .raiseProgramError => located raiseProgramError
  | .raiseProgramErrorMsg =>
      fun call => raiseProgramErrorMsg call.file call.line call.reason
  | .raiseStorageError => located raiseStorageError
  | .raiseStorageErrorMsg =>
      fun call => raiseStorageErrorMsg call.file call.line call.reason
  | .raiseWithMsg => fun call => raiseWithMsg call.exceptionId
  | .raiseException => fun call => raiseException call.exceptionId call.message
  | .raiseExceptionNoDefer =>
      fun call => raiseExceptionNoDefer call.exceptionId call.message
  | .raiseExceptionAlways =>
      fun call => raiseExceptionAlways call.exceptionId call.message

/-- The entries that raise the exception they are given. -/
def Entry.raisesException : Entry → Bool
  | .raiseException | .raiseExceptionNoDefer | .raiseExceptionAlways => true
  | _ => false

section Execution

/-- Compiled code at the end of the body of a nonreturning procedure, which the
language makes a run-time error: it returns, or it calls the entry for an
implicit return with its own location. -/
inductive Completion
  | unchecked
  | checked (file : Address) (line : Int)

/-- How far a call gets. -/
inductive Control
  | returned
  | handled (msg : Address) (line : Int)
  | unfinished
deriving DecidableEq

/-- Run the body of a nonreturning procedure, up to a depth of calls. -/
def Code.execute (completion : Completion) : ℕ → Code → Control
  | 0, _ => .unfinished
  | depth + 1, code =>
      let completed :=
        match completion with
        | .unchecked => .returned
        | .checked file line =>
            execute completion depth (rcheckPeImplicitReturn file line)
      match code with
      | .null => completed
      | .lastChanceHandler msg line => .handled msg line
      | .call callee =>
          match execute completion depth callee with
          | .returned => completed
          | ended => ended

/-- The body ends in a call of the last chance handler. -/
def Code.callsHandler : Code → Bool
  | .null => false
  | .lastChanceHandler _ _ => true
  | .call callee => callee.callsHandler

theorem callsHandler_codeOf (entry : Entry) (call : Arguments) :
    (codeOf entry call).callsHandler = entry.raisesException := by
  cases entry <;> rfl

/-- A body that does not call the handler never gets there, to any depth. -/
theorem Code.execute_ne_handled (completion : Completion) {code : Code}
    (silent : code.callsHandler = false) (depth : ℕ) (msg : Address)
    (line : Int) : code.execute completion depth ≠ .handled msg line := by
  induction depth generalizing code with
  | zero => simp [Code.execute]
  | succ depth ih =>
      have completed : (match completion with
          | .unchecked => Control.returned
          | .checked file line =>
              (rcheckPeImplicitReturn file line).execute completion depth) ≠
          .handled msg line := by
        cases completion with
        | unchecked => simp
        | checked file line => exact ih rfl
      cases code with
      | null => exact completed
      | lastChanceHandler msg line => cases silent
      | call callee =>
          have inCallee : callee.execute completion depth ≠
              .handled msg line := ih silent
          simp only [Code.execute]
          cases ended : callee.execute completion depth with
          | returned => exact completed
          | handled msg line => rwa [ended] at inCallee
          | unfinished => simp

/-- The entries that call the handler do so at once. -/
theorem Code.execute_of_raisesException (completion : Completion) {entry : Entry}
    (raises : entry.raisesException = true) (call : Arguments) (depth : ℕ) :
    (codeOf entry call).execute completion (depth + 1) =
      .handled call.message.address 0 := by
  cases entry <;> first | rfl | cases raises

end Execution

section Programs

variable {Operation : Type*}

/-- What a program does: an operation of its own, or a check, which calls an
entry if it fails. -/
inductive Action (Operation : Type*)
  | operate (operation : Operation)
  | check (failed : Bool) (entry : Entry) (call : Arguments)

/-- The operations that a program has performed, and the call of the handler
that it has ended in. -/
structure Machine (Operation : Type*) where
  performed : List Operation := []
  handled : Option (Address × Int) := none

/-- An action of the program; its calls have a bounded depth. -/
def perform (completion : Completion) (depth : ℕ) :
    Action Operation → Machine Operation → Outcome (Machine Operation)
  | .operate operation, machine =>
      .completed { machine with performed := machine.performed ++ [operation] }
  | .check false _ _, machine => .completed machine
  | .check true entry call, machine =>
      match (codeOf entry call).execute completion depth with
      | .returned => .completed machine
      | .handled msg line =>
          .raised { machine with handled := some (msg, line) }
      | .unfinished => .raised machine

def Action.operation? : Action Operation → Option Operation
  | .operate operation => some operation
  | .check _ _ _ => none

/-- The entry that the action calls, if it is a failing check. -/
def Action.failedEntry? : Action Operation → Option Entry
  | .check true entry _ => some entry
  | _ => none

/-- The first failing check of a run ends it in the last chance handler: the
call gets there, after the operations before the check, and the actions behind
it change nothing. -/
def FailedChecksStop (completion : Completion)
    (actions : List (Action Operation)) : Prop :=
  ∀ before entry call after,
    actions = before ++ .check true entry call :: after →
    (∀ action ∈ before, action.failedEntry? = none) →
      ∃ depth msg line,
        let stopped : Machine Operation :=
          { performed := before.filterMap Action.operation?
            handled := some (msg, line) }
        run (perform completion depth) (before ++ [.check true entry call]) {} =
            .raised stopped ∧
          run (perform completion depth) actions {} = .raised stopped

/-- Before the first failing check a program performs its operations. -/
theorem run_perform_of_passed (completion : Completion) (depth : ℕ)
    {before : List (Action Operation)}
    (passed : ∀ action ∈ before, action.failedEntry? = none)
    (machine : Machine Operation) :
    run (perform completion depth) before machine =
      .completed { machine with
        performed := machine.performed ++ before.filterMap Action.operation? } := by
  induction before generalizing machine with
  | nil => simp
  | cons action before ih =>
      have rest := ih fun other member => passed other (by simp [member])
      rw [run_cons]
      cases action with
      | operate operation =>
          simp [perform, rest, Action.operation?]
      | check failed entry call =>
          cases failed with
          | false =>
              have skipped : (Action.check false entry call :: before).filterMap
                  Action.operation? = before.filterMap Action.operation? :=
                List.filterMap_cons_none rfl
              simp [perform, rest, skipped]
          | true =>
              have failed := passed (.check true entry call) (by simp)
              cases failed

/-- The run up to the first failing check. -/
theorem run_perform_failed (completion : Completion) (depth : ℕ)
    {before : List (Action Operation)}
    (passed : ∀ action ∈ before, action.failedEntry? = none)
    (entry : Entry) (call : Arguments) :
    run (perform completion depth) (before ++ [.check true entry call]) {} =
      perform completion depth (.check true entry call)
        { performed := before.filterMap Action.operation? } := by
  rw [run_append, run_perform_of_passed completion depth passed,
    Outcome.andThen_completed, run_single]
  rfl

/-- A run that has failed a check before its end splits there. -/
theorem exists_split_of_findSome? {actions : List (Action Operation)}
    {entry : Entry} (found : actions.findSome? Action.failedEntry? = some entry) :
    ∃ before call after, actions = before ++ .check true entry call :: after ∧
      ∀ action ∈ before, action.failedEntry? = none := by
  obtain ⟨before, action, after, rfl, failed, passed⟩ :=
    List.findSome?_eq_some_iff.mp found
  cases action with
  | operate operation => cases failed
  | check isFailed checked call =>
      cases isFailed with
      | false => cases failed
      | true =>
          obtain rfl := Option.some.inj failed
          exact ⟨before, call, after, rfl, passed⟩

/-- A failing check that ends in the handler calls an entry that raises its
exception. -/
theorem raisesException_of_handled {completion : Completion} {depth : ℕ}
    {before : List (Action Operation)} {entry : Entry} {call : Arguments}
    (passed : ∀ action ∈ before, action.failedEntry? = none)
    {msg : Address} {line : Int}
    (stopped : run (perform completion depth)
        (before ++ [.check true entry call]) {} =
      .raised
        { performed := before.filterMap Action.operation?
          handled := some (msg, line) }) :
    entry.raisesException = true := by
  rw [run_perform_failed completion depth passed, perform] at stopped
  by_contra silent
  have noCall : (codeOf entry call).callsHandler = false := by
    simpa [callsHandler_codeOf] using silent
  have unhandled :=
    Code.execute_ne_handled completion noCall depth msg line
  cases ended : (codeOf entry call).execute completion depth with
  | returned => simp [ended] at stopped
  | handled otherMsg otherLine =>
      simp only [ended, Outcome.raised.injEq, Machine.mk.injEq, true_and,
        Option.some.injEq, Prod.mk.injEq] at stopped
      rw [ended, stopped.1, stopped.2] at unhandled
      exact unhandled rfl
  | unfinished => simp [ended] at stopped

/-- Failing checks stop a run exactly when the first of them calls
`Raise_Exception` or one of its variants. -/
theorem failedChecksStop_iff (completion : Completion)
    (actions : List (Action Operation)) :
    FailedChecksStop completion actions ↔
      ∀ entry ∈ actions.findSome? Action.failedEntry?,
        entry.raisesException = true := by
  constructor
  · intro stops entry found
    obtain ⟨before, call, after, split, passed⟩ := exists_split_of_findSome? found
    obtain ⟨depth, msg, line, stopped, _⟩ :=
      stops before entry call after split passed
    exact raisesException_of_handled passed stopped
  · intro raises before entry call after split passed
    have found : actions.findSome? Action.failedEntry? = some entry :=
      List.findSome?_eq_some_iff.mpr
        ⟨before, .check true entry call, after, split, rfl, passed⟩
    have handled := Code.execute_of_raisesException completion
      (raises entry found) call 0
    have stopped : run (perform completion 1)
        (before ++ [.check true entry call]) ({} : Machine Operation) =
          .raised
            { performed := before.filterMap Action.operation?
              handled := some (call.message.address, 0) } := by
      rw [run_perform_failed completion 1 passed, perform, handled]
    refine ⟨1, call.message.address, 0, stopped, ?_⟩
    rw [split, List.append_cons, run_append, stopped]
    rfl

/-- An operation after a failed overflow check. -/
def overflowThenOperation : List (Action Unit) :=
  [.check true .rcheckCeOverflowCheck
    ⟨0, 0, 0, 0, 0, 0, 0, ⟨0, ""⟩, ""⟩, .operate ()]

/-- A failed overflow check does not stop the program. -/
theorem not_failedChecksStop_overflow :
    ¬ FailedChecksStop .unchecked overflowThenOperation ∧
      ¬ FailedChecksStop (.checked 0 0) overflowThenOperation := by
  have unstopped (completion : Completion) :
      ¬ FailedChecksStop completion overflowThenOperation := by
    intro stops
    obtain ⟨depth, msg, line, stopped, _⟩ := stops [] _ _ _ rfl (by simp)
    have raises := raisesException_of_handled (by simp) stopped
    cases raises
  exact ⟨unstopped _, unstopped _⟩

end Programs

end Exceptions

end AdacHybridMsp430
