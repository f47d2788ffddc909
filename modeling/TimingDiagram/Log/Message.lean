import TimingDiagram.Error

/-! Messages with arguments. A percent sign and a letter stand for the next argument:
`d` for a whole number, `s` for running text, `r` for the value as messages show it; two
percent signs stand for one. -/
namespace TimingDiagram.Message

def wholeText (value : Value) : Except Fault String :=
  match value with
  | .number n => do return toString (← n.truncate)
  | .bool b => .ok (if b then "1" else "0")
  | _ => .error .wrongKind

/-- An argument as its letter asks for. -/
def argumentText (letter : Char) (value : Value) : Except Fault String :=
  match letter with
  | 'd' => wholeText value
  | 's' => .ok value.plain
  | 'r' => .ok value.display
  | _ => .error .badValue

/-- The text of a message and the arguments that are left over. -/
def fill : List Char → List Value → Except Fault (String × List Value)
  | [], args => .ok ("", args)
  | ['%'], _ => .error .badValue
  | '%' :: '%' :: rest, args => do
    let (text, left) ← fill rest args
    return ("%" ++ text, left)
  | '%' :: letter :: rest, args =>
    match args with
    | [] => .error .wrongKind
    | value :: args => do
      let shown ← argumentText letter value
      let (text, left) ← fill rest args
      return (shown ++ text, left)
  | c :: rest, args => do
    let (text, left) ← fill rest args
    return (toString c ++ text, left)

/-- Whether an argument that is not used is no error: only a lone mapping that holds
something is such. -/
def mayBeUnused : List Value → Bool
  | [.mapping (_ :: _)] => true
  | _ => false

/-- A message with its arguments filled in; without arguments it is taken as it is. -/
def format (message : String) (args : List Value) : Except Fault String := do
  if args.isEmpty then return message
  else
    let (text, left) ← fill message.toList args
    if left.isEmpty || mayBeUnused args then return text else throw .wrongKind

end TimingDiagram.Message
