import TimingDiagram.Log.Record
import TimingDiagram.Log.Timestamp
import TimingDiagram.Value.Json

/-! The written forms of a record: a line of text, or one JSON object per line. -/
namespace TimingDiagram
namespace Record

def padRight (width : Nat) (s : String) : String :=
  s ++ String.ofList (List.replicate (width - s.length) ' ')

/-- The text of an exception of the general kind. -/
def exceptionText (message : String) : String :=
  if message.isEmpty then "ValueError" else "ValueError: " ++ message

/-- A text with an exception below it, if there is one. -/
def withException (text : String) : Option String → String
  | none => text
  | some message =>
    (if text.toList.getLast? = some '\n' then text else text ++ "\n") ++ exceptionText message

/-- A record as a line of text, with the exception on lines of its own. -/
def textLine (r : Record) (time : Timestamp.Stamp) (exception : Option String) : String :=
  withException
    (time.short ++ " " ++ padRight 7 r.level.name ++ " " ++ r.source ++ ": " ++ r.message) exception

def fields (r : Record) (time : Timestamp.Stamp) : List (String × Value) :=
  [("timestamp", .text time.full), ("level", .text r.level.name), ("logger", .text r.source),
    ("message", .text r.message), ("thread", .text "MainThread")]

/-- A record as a JSON object. Further fields are written over its own, and an exception
comes last. -/
def jsonLine (r : Record) (time : Timestamp.Stamp) (extra : List (String × Value))
    (exception : Option String) : String :=
  let entries := Value.update (r.fields time) extra
  let entries := match exception with
    | none => entries
    | some message => Value.put entries "exception" (.text (exceptionText message))
  Json.write (.mapping entries)

end Record
end TimingDiagram
