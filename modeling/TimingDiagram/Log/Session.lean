import TimingDiagram.Log.Line

/-! Logging sessions: the level and the handlers of the program's own records, and what
is written to the console for each record. A set-up replaces all that was there. Where there is no
handler at all, warnings and what matters more are written as they are. -/
namespace TimingDiagram

/-- Where the lines of a handler go. -/
inductive HandlerKind where
  | console
  | file
  deriving DecidableEq, Repr

/-- A handler of records. -/
structure Handler where
  kind : HandlerKind
  level : Severity
  json : Bool
  deriving DecidableEq, Repr

/-- A record with the moment it is told at, its further fields, and the message of the exception
it is about, if it is about one. -/
structure Told where
  time : Timestamp.Stamp
  record : Record
  extra : List (String × Value)
  exception : Option String

/-- The state of logging. -/
structure Session where
  level : Severity
  handlers : List Handler
  deriving DecidableEq, Repr

namespace Session

/-- The name under which the program tells its records. -/
def root : String := "wavelane"

/-- The state before any set-up. -/
def initial : Session := ⟨0, []⟩

/-- The level that counts: an unset one is that of warnings. -/
def effectiveLevel (s : Session) : Severity :=
  if s.level = 0 then Severity.warning else s.level

/-- Takes away all handlers, closing them one after another. -/
def removeHandlers (s : Session) : Session :=
  s.handlers.foldl (fun s h => { s with handlers := s.handlers.erase h }) s

def addHandler (s : Session) (h : Handler) : Session :=
  { s with handlers := s.handlers ++ [h] }

/-- Sets up logging: a console handler, and a file handler if there is a file, both with
the same level and form. -/
def setup (s : Session) (level : Severity) (json file : Bool) : Session :=
  let s := removeHandlers { s with level := level }
  let s := s.addHandler ⟨.console, level, json⟩
  if file then s.addHandler ⟨.file, level, json⟩ else s

/-- The names that a dotted name lies under, all of them reversed, the longest first. A
dot right before the one that a name ends at does not end a name itself. -/
def enclosing (afterDot : Bool) : List Char → List (List Char)
  | [] => []
  | c :: rest =>
    if c = '.' && !afterDot then rest :: enclosing true rest else enclosing false rest

/-- Whether a source belongs to the program. -/
def owns (source : String) : Bool :=
  source = root || (enclosing false source.toList.reverse).contains root.toList.reverse

/-- Whether a record of the program is handed to the handlers. -/
def admits (s : Session) (r : Record) : Bool :=
  0 < r.level && s.effectiveLevel ≤ r.level

/-- The line of a record in the form of a handler. -/
def lineOf (h : Handler) (t : Told) : String :=
  (if h.json then t.record.jsonLine t.time t.extra t.exception
    else t.record.textLine t.time t.exception) ++ "\n"

/-- What a record writes to the console where there is no handler for it: a warning, and what
matters more, is written as it is. -/
def lastResort (t : Told) : String :=
  if Severity.warning ≤ t.record.level then
    Record.withException t.record.message t.exception ++ "\n"
  else ""

/-- What a record of the program writes to the console. -/
def ownOutput (s : Session) (t : Told) : String :=
  if s.admits t.record then
    if s.handlers.isEmpty then lastResort t
    else
      String.join ((s.handlers.filter fun h => h.kind = .console && h.level ≤ t.record.level).map
        fun h => lineOf h t)
  else ""

/-- What a record writes to the console. A record from elsewhere has no handler. -/
def output (s : Session) (t : Told) : String :=
  if owns t.record.source then s.ownOutput t else lastResort t

def outputAll (s : Session) (time : Timestamp.Stamp) (records : List Record) : String :=
  String.join (records.map fun r => s.output ⟨time, r, [], none⟩)

end Session
end TimingDiagram
