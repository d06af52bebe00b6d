/-! # Log records

What a session tells about its work, record by record. Whoever listens chooses a level and hears
the records of that level and the graver ones.
-/

set_option autoImplicit false

namespace Diglot

/-- How much a listener has to care. -/
inductive LogLevel where
  | error | warn | info | debug | trace
  deriving DecidableEq, Inhabited

namespace LogLevel

/-- The level in a written record. -/
def name : LogLevel → String
  | error => "ERROR"
  | warn => "WARN"
  | info => "INFO"
  | debug => "DEBUG"
  | trace => "TRACE"

/-- The gravest level comes first. -/
def rank : LogLevel → Nat
  | error => 1
  | warn => 2
  | info => 3
  | debug => 4
  | trace => 5

/-- The level that a listener asks for by its name in small letters. -/
def ofName? (name : String) : Option LogLevel :=
  match name with
  | "error" => some error
  | "warn" => some warn
  | "info" => some info
  | "debug" => some debug
  | "trace" => some trace
  | _ => none

end LogLevel

/-- The part of the work that a record is about. -/
inductive LogTopic where
  | code | graph
  deriving DecidableEq, Inhabited

/-- The topic in a written record. -/
def LogTopic.name : LogTopic → String
  | code => "dualscript::$codegen"
  | graph => "dualscript::$graph"

/-- A line of the log. -/
structure LogRecord where
  level : LogLevel
  topic : LogTopic
  message : String
  deriving DecidableEq, Inhabited

namespace LogRecord

/-- Level, topic and message. -/
def text (r : LogRecord) : String := r.level.name ++ " " ++ r.topic.name ++ " " ++ r.message

/-- A listener at the given level hears the record. -/
def isHeard (r : LogRecord) (level : LogLevel) : Bool := decide (r.level.rank ≤ level.rank)

end LogRecord

end Diglot
