import PhraseGrammar.Document.Token

/-! Strings as JSON writes them. -/
namespace PhraseGrammar
namespace Json

/-- A control character without a short escape is written by its number. -/
def escape (c : Char) : List Char :=
  if c = '"' then ['\\','"']
  else if c = '\\' then ['\\','\\']
  else if c = '\x08' then ['\\','b']
  else if c = '\x0c' then ['\\','f']
  else if c = '\n' then ['\\','n']
  else if c = '\r' then ['\\','r']
  else if c = '\t' then ['\\','t']
  else if c.toNat < 0x20 then
    ['\\','u','0','0',Nat.digitChar (c.toNat / 16),Nat.digitChar (c.toNat % 16)]
  else [c]

def quote (s : String) : String := String.ofList ('"' :: s.toList.flatMap escape ++ ['"'])

def shortEscape? (c : Char) : Option Nat :=
  if c = '"' || c = '\\' || c = '/' then some c.toNat
  else if c = 'b' then some 0x08
  else if c = 'f' then some 0x0C
  else if c = 'n' then some 0x0A
  else if c = 'r' then some 0x0D
  else if c = 't' then some 0x09
  else none

/-- The numbers a body stands for: of characters, and of the halves of a pair where it escapes
one. -/
def units : List Char → Option (List Nat)
  | [] => some []
  | '\\' :: 'u' :: a :: b :: c :: d :: cs => do
    return (← numeral? 16 [a,b,c,d]) :: (← units cs)
  | '\\' :: c :: cs => do return (← shortEscape? c) :: (← units cs)
  | c :: cs => do
    if c = '\\' || c.toNat < 0x20 then none else return c.toNat :: (← units cs)

def highHalf (n : Nat) : Bool := 0xD800 ≤ n && n ≤ 0xDBFF

def lowHalf (n : Nat) : Bool := 0xDC00 ≤ n && n ≤ 0xDFFF

/-- Joins halves, which come in pairs only. -/
def scalars : List Nat → Option (List Char)
  | [] => some []
  | n :: m :: ns =>
    if highHalf n then
      if lowHalf m then
        (scalars ns).map (Char.ofNat (0x10000 + (n - 0xD800) * 0x400 + (m - 0xDC00)) :: ·)
      else none
    else if lowHalf n then none
    else (scalars (m :: ns)).map (Char.ofNat n :: ·)
  | [n] => if highHalf n || lowHalf n then none else some [Char.ofNat n]

def unescape (body : List Char) : Option String :=
  ((units body).bind scalars).map String.ofList

end Json

end PhraseGrammar
