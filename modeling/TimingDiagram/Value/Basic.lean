import TimingDiagram.Number.Basic
import TimingDiagram.Text.Quoted

/-! Document values: the data a diagram is described in, with the entries of a
mapping in the order they were written. -/
namespace TimingDiagram

/-- A document value. -/
inductive Value where
  | null
  | bool (b : Bool)
  | number (n : Number)
  | text (s : String)
  | list (items : List Value)
  | mapping (entries : List (String × Value))

namespace Value

def lookup (key : String) (entries : List (String × Value)) : Option Value :=
  List.lookup key entries

def lookupD (key : String) (entries : List (String × Value)) (default : Value) : Value :=
  (lookup key entries).getD default

/-- The entries after writing one: a key that is there keeps its place. -/
def put (entries : List (String × Value)) (key : String) (value : Value) :
    List (String × Value) :=
  match entries with
  | [] => [(key, value)]
  | (k, v) :: rest => if k = key then (k, value) :: rest else (k, v) :: put rest key value

/-- The entries after writing some others over them. -/
def update (entries news : List (String × Value)) : List (String × Value) :=
  news.foldl (fun acc entry => put acc entry.1 entry.2) entries

def isNull : Value → Bool
  | null => true
  | _ => false

def isText : Value → Bool
  | text _ => true
  | _ => false

/-- A value as a number: a truth value counts as zero or one. -/
def asNumber : Value → Except Fault Number
  | number n => .ok n
  | bool b => .ok (.whole (if b then 1 else 0))
  | _ => .error .wrongKind

/-- The name of a value's kind, as messages give it. -/
def kindName : Value → String
  | null => "NoneType"
  | bool _ => "bool"
  | number (.whole _) => "int"
  | number (.real _) => "float"
  | text _ => "str"
  | list _ => "list"
  | mapping _ => "dict"

/-- Whether a value counts as absent: nothing, false, zero, and what is empty. -/
def isBlank : Value → Bool
  | null => true
  | bool b => !b
  | number n => n == .whole 0
  | text s => s.isEmpty
  | list items => items.isEmpty
  | mapping entries => entries.isEmpty

mutual

/-- A value as messages show it. -/
def display : Value → String
  | null => "None"
  | bool b => if b then "True" else "False"
  | number n => n.text
  | text s => Text.quote s
  | list items => "[" ++ ", ".intercalate (displayItems items) ++ "]"
  | mapping entries => "\x7b" ++ ", ".intercalate (displayEntries entries) ++ "\x7d"

def displayItems : List Value → List String
  | [] => []
  | v :: rest => v.display :: displayItems rest

def displayEntries : List (String × Value) → List String
  | [] => []
  | (k, v) :: rest => (Text.quote k ++ ": " ++ v.display) :: displayEntries rest

end

/-- A value as running text: a text as it is, anything else as messages show it. -/
def plain : Value → String
  | text s => s
  | v => v.display

mutual

/-- Whether two values are one and the same. -/
def same : Value → Value → Bool
  | null, null => true
  | bool a, bool b => a == b
  | number m, number n => m.same n
  | text s, text t => s == t
  | list vs, list ws => sameItems vs ws
  | mapping es, mapping fs => sameEntries es fs
  | _, _ => false

def sameItems : List Value → List Value → Bool
  | [], [] => true
  | v :: vs, w :: ws => v.same w && sameItems vs ws
  | _, _ => false

/-- Whether two mappings hold the same entries in the same order. -/
def sameEntries : List (String × Value) → List (String × Value) → Bool
  | [], [] => true
  | (k, v) :: es, (l, w) :: fs => k == l && v.same w && sameEntries es fs
  | _, _ => false

end

mutual

/-- The number of nodes of a value, two for a list. -/
def size : Value → Nat
  | list items => 2 + sizeItems items
  | _ => 1

/-- The number of nodes of some values. -/
def sizeItems : List Value → Nat
  | [] => 0
  | v :: rest => v.size + sizeItems rest

end

end Value
end TimingDiagram
