import PhraseGrammar.Document.Token
import PhraseGrammar.Number.Shortest
import PhraseGrammar.Number.Word64

/-! Numbers as JSON writes them. A whole number of 64 bits is kept; any other is read as the digits
that fit into 64 bits, scaled by a power of ten. -/
namespace PhraseGrammar
namespace Json

/-- Appends digits to a number while it stays below `2 ^ 64`: the number, how many digits were
taken, and how many were left. -/
def absorb (n : Nat) : List Char → Nat × Nat × Nat
  | [] => (n,0,0)
  | c :: cs =>
    let m := n * 10 + (c.toNat - '0'.toNat)
    if m < Word64.bound then
      let (m,taken,left) := absorb m cs
      (m,taken + 1,left)
    else (n,0,cs.length + 1)

/-- The parts of a numeral. -/
structure Numeral where
  whole : List Char
  decimals : List Char
  /-- Sign and digits. -/
  exponent : Option (Bool × List Char)

def wholePart? (cs : List Char) : Option (List Char × List Char) :=
  match split Char.isDigit cs with
  | ([],_) => none
  | ('0' :: _ :: _,_) => none
  | (ds,rest) => some (ds,rest)

def decimalPart? : List Char → Option (List Char × List Char)
  | '.' :: cs =>
    match split Char.isDigit cs with
    | ([],_) => none
    | (ds,rest) => some (ds,rest)
  | cs => some ([],cs)

def exponentDigits? (negative : Bool) (cs : List Char) :
    Option (Option (Bool × List Char) × List Char) :=
  match split Char.isDigit cs with
  | ([],_) => none
  | (ds,rest) => some (some (negative,ds),rest)

def exponentPart? : List Char → Option (Option (Bool × List Char) × List Char)
  | c :: cs =>
    if c = 'e' || c = 'E' then
      match cs with
      | '+' :: cs => exponentDigits? false cs
      | '-' :: cs => exponentDigits? true cs
      | cs => exponentDigits? false cs
    else some (none,c :: cs)
  | [] => some (none,[])

def readNumeral? (cs : List Char) : Option (Numeral × List Char) := do
  let (whole,cs) ← wholePart? cs
  let (decimals,cs) ← decimalPart? cs
  let (exponent,cs) ← exponentPart? cs
  return (⟨whole,decimals,exponent⟩,cs)

namespace Numeral

def power (n : Numeral) : Int :=
  match n.exponent with
  | none => 0
  | some (negative,ds) =>
    let e : Int := (ds.foldl (fun e c => e * 10 + (c.toNat - '0'.toNat)) 0 : Nat)
    if negative then -e else e

def float? (negative : Bool) (m : Nat) (e : Int) : Option Value :=
  ((Binary64.ofNat m).scale e).map fun x => .float (x.shown negative)

/-- A negative zero is no whole number. -/
def value? (negative : Bool) (n : Numeral) : Option Value :=
  let (m,_,left) := absorb 0 n.whole
  if n.decimals = [] && n.exponent.isNone && left = 0 then
    if !negative then some (.natural m)
    else if m = 0 || Word64.half < m then float? true m 0
    else some (.signed (-m))
  else
    let (m,taken,_) := absorb m n.decimals
    float? negative m (left - taken + n.power)

end Numeral

end Json

end PhraseGrammar
