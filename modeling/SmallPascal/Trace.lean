/-!
# Events

What a log records of reading and running: the words of a text, the beginning and the end of
programs and calls, and assignments. An event holds names, texts and depths only, so that logs can
be compared.
-/

namespace SmallPascal

/-- Something worth recording. -/
inductive Event where
  | wordRead (lexeme : String) (reserved : Bool)
  | programStarted (program : String)
  /-- The end of a program, with the dump of its frame if one was asked for. -/
  | programFinished (program : String) (dump : Option String)
  /-- A call; the depth counts the frame of the routine. -/
  | callEntered (routine : String) (depth : Nat)
  /-- The end of a call; the depth does not count the frame of the routine any more. -/
  | callExited (routine : String) (depth : Nat)
  | assigned (name : String) (value : String) (depth : Nat)
deriving DecidableEq

namespace Event

/-- How much detail an event is. -/
inductive Level where
  | debug
  | trace
deriving DecidableEq

/-- The level an event is recorded at. -/
def level : Event → Level
  | wordRead .. | assigned .. => .trace
  | programStarted .. | programFinished .. | callEntered .. | callExited .. => .debug

/-- The name of a level. -/
def Level.label : Level → String
  | debug => "DEBUG"
  | trace => "TRACE"

/-- The wording of an event. A dump follows the words on lines of its own. -/
def message : Event → String
  | wordRead .. => "scanned word"
  | programStarted _ => "program started"
  | programFinished _ none => "program finished"
  | programFinished _ (some dump) => "program finished\n" ++ dump
  | callEntered .. => "call entered"
  | callExited .. => "call exited"
  | assigned .. => "assign"

end Event

end SmallPascal
