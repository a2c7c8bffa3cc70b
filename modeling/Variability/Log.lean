/-
  Records that are logged while the library works.

  Main definitions:
    * `Record`
    * `Log`
-/

namespace Variability

/- How much a record matters. -/
inductive Severity where
  | warning
  | error
  deriving DecidableEq, Repr

/- A record of the log. -/
structure Record where
  severity : Severity
  text : String
  deriving DecidableEq, Repr

/- The records in the order in which they were logged. -/
abbrev Log := List Record

namespace Record

/- A record that warns. -/
def warning (text : String) : Record :=
  ⟨.warning, text⟩

/- A record of an error. -/
def error (text : String) : Record :=
  ⟨.error, text⟩

/- The record as a line: the word of its severity and its text. -/
def line (r : Record) : String :=
  match r.severity with
  | .warning => "WARN " ++ r.text
  | .error => "ERROR " ++ r.text

end Record

end Variability
