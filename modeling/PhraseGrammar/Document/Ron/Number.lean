import PhraseGrammar.Document.Token
import PhraseGrammar.Number.Word64

/-! Numbers as RON writes them: whole ones in base two, eight, ten or sixteen with underscores, and
decimal ones. What is no whole number of 64 bits is tried as a decimal one. -/
namespace PhraseGrammar
namespace Ron

def wholeChar (c : Char) : Bool := (hexDigit? c).isSome || c = '_'

def decimalChar (c : Char) : Bool :=
  c.isDigit || ['.','e','E','+','-','_'].contains c

/-- The base and the digits after its mark. -/
def splitBase : List Char → Nat × List Char
  | '0' :: 'x' :: cs => (16,cs)
  | '0' :: 'o' :: cs => (8,cs)
  | '0' :: 'b' :: cs => (2,cs)
  | cs => (10,cs)

def whole? (cs : List Char) : Option (Nat × List Char) :=
  let (base,cs) := splitBase cs
  let (digits,rest) := split wholeChar cs
  match digits with
  | [] => none
  | d :: _ =>
    if d = '_' then none else (numeral? base (digits.filter (· != '_'))).map (·,rest)

def takeSign : List Char → Option Bool × List Char
  | '-' :: cs => (some true,cs)
  | '+' :: cs => (some false,cs)
  | cs => (none,cs)

/-- A whole number of 64 bits; one without a sign is natural. -/
def integer? (cs : List Char) : Option (Token × List Char) :=
  let (sign,body) := takeSign cs
  match sign, whole? body with
  | none, some (n,rest) => if n < Word64.bound then some (.leaf (.natural n),rest) else none
  | some true, some (n,rest) => if n ≤ Word64.half then some (.leaf (.signed (-n)),rest) else none
  | some false, some (n,rest) => if n < Word64.half then some (.leaf (.signed n),rest) else none
  | _, none => none

def exponentOk : List Char → Bool
  | [] => true
  | c :: cs =>
    let digits := (takeSign cs).2
    (c = 'e' || c = 'E') && !digits.isEmpty && digits.all Char.isDigit

/-- Digits with an optional point before, among or after them, and an optional exponent. -/
def decimalOk (cs : List Char) : Bool :=
  let (before,cs) := split Char.isDigit (takeSign cs).2
  match cs with
  | '.' :: cs =>
    let (after,cs) := split Char.isDigit cs
    !(before.isEmpty && after.isEmpty) && exponentOk cs
  | cs => !before.isEmpty && exponentOk cs

def decimal? (cs : List Char) : Option (Token × List Char) :=
  let (body,rest) := split decimalChar cs
  if decimalOk body then some (.leaf (.float (String.ofList body)),rest) else none

/-- The numbers that are written as words. -/
def wordNumbers : List (List Char) := ["inf".toList,"NaN".toList]

def endsWord (cs : List Char) : Bool :=
  match cs with
  | [] => true
  | c :: _ => !(c.isAlphanum || c = '_')

def signedWord? (cs : List Char) : Option (Token × List Char) :=
  wordNumbers.findSome? fun name =>
    ((name.isPrefixOf? (takeSign cs).2).filter endsWord).map
      (.leaf (.float (String.ofList name)),·)

/-- A number is taken for a decimal one if more characters fit that. -/
def number? (cs : List Char) : Option (Token × List Char) :=
  let body := (takeSign cs).2
  let decimal := (signedWord? cs).or (decimal? cs)
  if (split wholeChar body).1.length < (split decimalChar body).1.length then decimal
  else (integer? cs).or decimal

end Ron

end PhraseGrammar
