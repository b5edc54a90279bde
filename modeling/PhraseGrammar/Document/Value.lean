import PhraseGrammar.Error

/-! What a document holds, before it is taken for a grammar. A text that goes wrong somewhere still
has a value: everything up to that place, with a broken part there and nothing after it. So a reader
of values sees what comes first, a wrong type or the broken part. -/
namespace PhraseGrammar

inductive Value
  | null
  | absent
  | present (value : Value)
  | boolean (value : Bool)
  | natural (value : Nat)
  | signed (value : Int)
  | float (shown : String)
  | character (value : Char)
  | text (value : String)
  | list (items : List Value)
  | tuple (items : List Value)
  | map (entries : List (Value × Value))
  | record (entries : List (Value × Value))
  /-- A value after which the text goes wrong before the next entry starts. -/
  | cut (value : Value)
  | broken

namespace Value

mutual

/-- No part is broken. -/
def complete : Value → Bool
  | present value => value.complete
  | list items | tuple items => completeItems items
  | map entries | record entries => completeEntries entries
  | cut _ | broken => false
  | _ => true

def completeItems : List Value → Bool
  | [] => true
  | item :: items => item.complete && completeItems items

def completeEntries : List (Value × Value) → Bool
  | [] => true
  | (key,value) :: entries => key.complete && value.complete && completeEntries entries

end

/-- The value itself, even if the text goes wrong after it. -/
def uncut : Value → Value
  | cut value => value
  | value => value

def isCut : Value → Bool
  | cut _ => true
  | _ => false

def text? : Value → Option String
  | text s => some s
  | _ => none

def items? : Value → Option (List Value)
  | list items | tuple items => some items
  | _ => none

def entries? : Value → Option (List (Value × Value))
  | map entries | record entries => some entries
  | _ => none

def found : Value → Found
  | null => .null
  | boolean b => .boolean b
  | natural n => .integer n
  | signed n => .integer n
  | float shown => .float shown
  | text s => .text s
  | list _ | tuple _ => .sequence
  | map _ | record _ => .map
  | absent | present _ | character _ | cut _ | broken => .other

end Value

/-- A document is closed if nothing follows its value. -/
structure Document where
  root : Value
  closed : Bool

end PhraseGrammar
