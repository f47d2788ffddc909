/-! Markup elements and their text. Attributes are sorted by name, and an attribute
without a value is left out. -/
namespace TimingDiagram

/-- An element with its attributes, its text and its children. -/
inductive Element where
  | node (name : String) (attributes : List (String × String)) (text : String)
      (children : List Element)

namespace Element

def textChar (c : Char) : List Char :=
  match c with
  | '&' => "&amp;".toList
  | '<' => "&lt;".toList
  | '>' => "&gt;".toList
  | c => [c]

def attributeChar (c : Char) : List Char :=
  match c with
  | '\x22' => "&quot;".toList
  | '\r' => "&#13;".toList
  | '\n' => "&#10;".toList
  | '\t' => "&#09;".toList
  | c => textChar c

/-- Running text with its markup characters as entities. -/
def escapeText (s : String) : String := String.ofList (s.toList.flatMap textChar)

/-- An attribute value with its markup characters as entities. -/
def escapeAttribute (s : String) : String := String.ofList (s.toList.flatMap attributeChar)

def writeAttribute (entry : String × String) : String :=
  " " ++ entry.1 ++ "=\"" ++ escapeAttribute entry.2 ++ "\""

/-- The attributes that are written, in order. -/
def writtenAttributes (attributes : List (String × String)) : List (String × String) :=
  (attributes.filter fun a => !a.2.isEmpty).mergeSort fun a b => a.1 ≤ b.1

/-- What comes between the angle brackets of a start tag. -/
def writeHead (name : String) (attributes : List (String × String)) : String :=
  name ++ String.join ((writtenAttributes attributes).map writeAttribute)

mutual

/-- The text of an element; one without content has a single tag. -/
def write : Element → String
  | node name attributes text children =>
    if text.isEmpty && children.isEmpty then "<" ++ writeHead name attributes ++ " />"
    else
      "<" ++ writeHead name attributes ++ ">" ++ escapeText text ++
        String.join (writeAll children) ++ "</" ++ name ++ ">"

def writeAll : List Element → List String
  | [] => []
  | e :: rest => e.write :: writeAll rest

end

end Element
end TimingDiagram
