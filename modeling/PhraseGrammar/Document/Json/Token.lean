import PhraseGrammar.Document.Json.Number
import PhraseGrammar.Document.Json.Text

/-! The tokens of JSON text. -/
namespace PhraseGrammar
namespace Json

def blank (c : Char) : Bool := c = ' ' || c = '\t' || c = '\n' || c = '\r'

def marks : List Char := ['[',']','\x7b','\x7d',',',':']

def constants : List (List Char × Value) :=
  [("true".toList,.boolean true),("false".toList,.boolean false),("null".toList,.null)]

def constant? (cs : List Char) : Option (Token × List Char) :=
  constants.findSome? fun (name,v) => (name.isPrefixOf? cs).map (Token.leaf v,·)

def number? (negative : Bool) (cs : List Char) : Option (Token × List Char) := do
  let (n,rest) ← readNumeral? cs
  return (.leaf (← n.value? negative),rest)

def string? (cs : List Char) : Option (Token × List Char) := do
  let (body,rest) ← splitQuote cs
  return (.leaf (.text (← unescape body)),rest)

/-- The token that starts with a character. -/
def token? (c : Char) (cs : List Char) : Option (Token × List Char) :=
  if marks.contains c then some (.mark c,cs)
  else if c = '"' then string? cs
  else if c = '-' then number? true cs
  else if c.isDigit then number? false (c :: cs)
  else constant? (c :: cs)

/-- Reads tokens up to the first place where there is none. Every token takes a character, so there
are at most as many. -/
def tokensWithin : Nat → List Char → List Token
  | _, [] => []
  | 0, _ => [.bad]
  | n + 1, c :: cs =>
    if blank c then tokensWithin n cs
    else
      match token? c cs with
      | none => [.bad]
      | some (t,rest) => t :: tokensWithin n rest

def tokens (text : String) : List Token := tokensWithin text.toList.length text.toList

end Json

end PhraseGrammar
