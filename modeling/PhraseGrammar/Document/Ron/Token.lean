import PhraseGrammar.Document.Ron.Number
import PhraseGrammar.Document.Ron.Text

/-! The tokens of RON text; blanks and comments between them are skipped. -/
namespace PhraseGrammar
namespace Ron

def blank (c : Char) : Bool := c = ' ' || c = '\t' || c = '\n' || c = '\r'

def marks : List Char := ['[',']','\x7b','\x7d','(',')',',',':','#','!']

/-- What follows a block comment; comments nest. -/
def skipBlock : (level : Nat) → List Char → Option (List Char)
  | 0, cs => some cs
  | _ + 1, [] => none
  | level + 1, '/' :: '*' :: cs => skipBlock (level + 2) cs
  | level + 1, '*' :: '/' :: cs => skipBlock level cs
  | level + 1, _ :: cs => skipBlock (level + 1) cs

def wordStart (c : Char) : Bool := c.isAlpha || c = '_'

def wordChar (c : Char) : Bool := c.isAlphanum || c = '_'

/-- What an identifier behind `r#` may hold besides. -/
def rawChar (c : Char) : Bool := wordChar c || c = '.' || c = '+' || c = '-'

/-- Identifiers that stand for a value. -/
def constants : List (List Char × Value) :=
  [("true".toList,.boolean true),("false".toList,.boolean false),("None".toList,.absent),
    ("inf".toList,.float "inf"),("NaN".toList,.float "NaN")]

def someWord : List Char := "Some".toList

/-- An identifier that stands for a value ends where it does; any other one must not run on into
characters that need `r#`. -/
def word? (cs : List Char) : Option (Token × List Char) :=
  let (name,rest) := split wordChar cs
  if (constants.lookup name).isSome || name = someWord then some (.word name false,rest)
  else if (split rawChar cs).1.length = name.length then some (.word name false,rest)
  else none

/-- The token that starts with a character. An `r` alone at the end of the text is none. -/
def token? (c : Char) (cs : List Char) : Option (Token × List Char) :=
  match c, cs with
  | '(', ')' :: rest => some (.unit,rest)
  | '"', _ => string? cs
  | '\'', _ => character? cs
  | 'r', [] => none
  | 'r', '"' :: _ => rawString? cs
  | 'r', '#' :: rest =>
    match split rawChar rest with
    | ([],_) => rawString? cs
    | (name,rest) => some (.word name true,rest)
  | _, _ =>
    if marks.contains c then some (.mark c,cs)
    else if wordStart c then word? (c :: cs)
    else if c.isDigit || c = '+' || c = '-' || c = '.' then number? (c :: cs)
    else none

/-- Reads tokens up to the first place where there is none. Every token takes a character, so there
are at most as many. -/
def tokensWithin : Nat → List Char → List Token
  | _, [] => []
  | 0, _ => [.bad]
  | n + 1, '/' :: '/' :: cs => tokensWithin n (cs.dropWhile (· != '\n'))
  | n + 1, '/' :: '*' :: cs =>
    match skipBlock 1 cs with
    | none => [.badComment]
    | some rest => tokensWithin n rest
  | _ + 1, '/' :: _ => [.badComment]
  | n + 1, c :: cs =>
    if blank c then tokensWithin n cs
    else
      match token? c cs with
      | none => [.bad]
      | some (t,rest) => t :: tokensWithin n rest

def tokens (text : String) : List Token := tokensWithin text.toList.length text.toList

end Ron

end PhraseGrammar
