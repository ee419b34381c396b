import FiberStacks.Text.Record

/-!
# Recoverable errors

Conditions that the interpreter above turns into an exception of the running program.
-/

namespace FiberStacks

open Text

/-- A failure that leaves the state as it was. -/
inductive StackError where
  | stackOverflow (requestedWords maxWords : Nat)
  /-- No memory for a segment or an arena of this size. -/
  | outOfMemory (words : Nat)
  | continuationAlreadyResumed
  deriving DecidableEq

namespace StackError

def kind : StackError → String
  | stackOverflow .. => "StackOverflow"
  | outOfMemory .. => "OutOfMemory"
  | continuationAlreadyResumed => "ContinuationAlreadyResumed"

def message : StackError → String
  | stackOverflow requested max =>
    s!"stack overflow: {requested} free words requested, limit is {max} words"
  | outOfMemory words => s!"out of memory allocating a {words}-word stack"
  | continuationAlreadyResumed => "continuation already resumed"

def describe (error : StackError) : String :=
  record error.kind <| match error with
    | stackOverflow requested max =>
      [("requested_words", toString requested), ("max_words", toString max)]
    | outOfMemory words => [("words", toString words)]
    | continuationAlreadyResumed => []

/-- The name under which the exception for the error is registered. -/
def exceptionName : StackError → String
  | stackOverflow .. => "Stack_overflow"
  | outOfMemory .. => "Out_of_memory"
  | continuationAlreadyResumed => "Effect.Continuation_already_resumed"

end StackError

end FiberStacks
