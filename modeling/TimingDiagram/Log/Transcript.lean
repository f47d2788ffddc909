import TimingDiagram.Figure.Diagram
import TimingDiagram.Log.Session

/-! What happens in a logging session, one action after another, and what it writes to the
console. -/
namespace TimingDiagram

/-- Something that happens in a session: logging is set up, a record is told, or a description is
drawn, which tells records of its own. -/
inductive Action (K : Type) where
  | setup (level : Severity) (json file : Bool)
  | log (told : Told)
  | render (time : Timestamp.Stamp) (description : Description K) (options : Option (Options K))

namespace Session

variable {K : Type}

/-- The state after an action. -/
def next (s : Session) : Action K → Session
  | .setup level json file => s.setup level json file
  | .log _ => s
  | .render .. => s

/-- The state after some actions. -/
def after (s : Session) (actions : List (Action K)) : Session := actions.foldl next s

variable [Add K] [Sub K] [Mul K] [Div K] [LT K] [LE K] [DecidableLT K] [DecidableLE K] [Max K]
  [Min K] [BEq K] [Scalar K]

/-- What an action writes to the console. -/
def written (s : Session) : Action K → String
  | .setup .. => ""
  | .log told => s.output told
  | .render time description options => s.outputAll time (description.render options).records

/-- What some actions write to the console, one after another. -/
def transcript (s : Session) : List (Action K) → List String
  | [] => []
  | action :: rest => s.written action :: (s.next action).transcript rest

end Session
end TimingDiagram
