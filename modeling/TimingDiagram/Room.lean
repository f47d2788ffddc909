import TimingDiagram.Fault

/-! Room: how often something may be repeated, and how long a list may get. The first is
told by the numbers that items are counted with, and the second by the memory there is. -/
namespace TimingDiagram

/-- The memory of a machine. -/
class Memory where
  /-- The most items that a list may have. -/
  capacity : Nat

/-- The memory of the machine that runs the program, unless another one is in question. -/
instance (priority := low) : Memory := ⟨Nat.pow 2 32 - 1⟩

namespace Room

/-- Items are counted from the negative of this number up to below it. -/
def countRange : Int := Int.pow 2 63

variable [Memory]

def check (length : Nat) : Except Fault Unit :=
  if Memory.capacity < length then .error .noRoom else .ok ()

/-- How many copies a count asks for, of something of a given length: none when it is
negative or when there is nothing to copy. -/
def copies (length : Nat) (count : Int) : Except Fault Nat := do
  if count < -countRange || countRange ≤ count then throw .tooLarge
  check (length * count.toNat)
  return if length = 0 then 0 else count.toNat

def repeated {α : Type} (items : List α) (count : Int) : Except Fault (List α) := do
  return (List.replicate (← copies items.length count) items).flatten

/-- A text repeated. Its characters have to be countable. -/
def repeatedText (s : String) (count : Int) : Except Fault String := do
  if countRange ≤ s.length * count then throw .tooLarge
  return String.ofList (← repeated s.toList count)

end Room
end TimingDiagram
