import CallRelay.Wire.Identity.Text

/-! # Log lines

A line may carry the label of a session, which is the identity of its call unless the session was given
another text. -/

namespace CallRelay

/-- How much a log line matters. -/
inductive Level
  | trace
  | debug
  | info
  | warn
  | error
  deriving DecidableEq, Repr

/-- The name of a level. -/
def Level.text : Level → String
  | .trace => "TRACE"
  | .debug => "DEBUG"
  | .info => "INFO"
  | .warn => "WARN"
  | .error => "ERROR"

/-- The label of a session. -/
inductive Label
  | identity (id : Identity)
  | given (text : String)
  deriving DecidableEq

/-- The text of a label; an identity is written by a library of UUIDs. -/
def Label.text {υ : Type} (lib : Uuid.Library υ) : Label → String
  | .identity id => id.text lib
  | .given text => text

/-- One line of the log. -/
structure Line where
  level : Level
  label : Option Label
  message : String
  deriving DecidableEq

/-- A line without a label. -/
def Line.plain (level : Level) (message : String) : Line := ⟨level, none, message⟩

/-- A line of the session with a label. -/
def Line.tagged (level : Level) (tag : Label) (message : String) : Line := ⟨level, some tag, message⟩

/-- A line with its level and its label in front. -/
def Line.text {υ : Type} (lib : Uuid.Library υ) (l : Line) : String :=
  l.level.text ++ " " ++ (match l.label with | some tag => "[" ++ tag.text lib ++ "] " | none => "") ++ l.message

end CallRelay
