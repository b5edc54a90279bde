import PhraseGrammar.Document.Token

/-! Strings and characters as RON writes them. -/
namespace PhraseGrammar
namespace Ron

def simpleEscape? (c : Char) : Option Char :=
  if c = '\'' || c = '"' || c = '\\' then some c
  else if c = 'n' then some '\n'
  else if c = 'r' then some '\r'
  else if c = 't' then some '\t'
  else if c = '0' then some '\x00'
  else none

/-- The character that up to six hexadecimal digits name. -/
def scalar? (digits : List Char) : Option Char := do
  let n ← numeral? 16 digits
  if digits ≠ [] ∧ digits.length ≤ 6 ∧ n.isValidChar then return Char.ofNat n else none

/-- `code` has the digits read so far of a character given by its number. -/
def unescape : (code : Option (List Char)) → List Char → Option (List Char)
  | none, [] => some []
  | some _, [] => none
  | none, '\\' :: 'u' :: '\x7b' :: cs => unescape (some []) cs
  | none, '\\' :: 'x' :: a :: b :: cs => do
    return Char.ofNat (← numeral? 16 [a,b]) :: (← unescape none cs)
  | none, '\\' :: c :: cs => do return (← simpleEscape? c) :: (← unescape none cs)
  | none, c :: cs => do if c = '\\' then none else return c :: (← unescape none cs)
  | some ds, c :: cs => do
    if c = '\x7d' then return (← scalar? ds) :: (← unescape none cs)
    else unescape (some (ds ++ [c])) cs

def string? (cs : List Char) : Option (Token × List Char) := do
  let (body,rest) ← splitQuote cs
  return (.leaf (.text (String.ofList (← unescape none body))),rest)

/-- Splits at the first place where `closing` stands. -/
def splitAt (closing : List Char) : List Char → Option (List Char × List Char)
  | [] => none
  | c :: cs =>
    match closing.isPrefixOf? (c :: cs) with
    | some rest => some ([],rest)
    | none => (splitAt closing cs).map fun (body,rest) => (c :: body,rest)

/-- A raw string ends at a quote with as many hashes as it starts with. -/
def rawString? (cs : List Char) : Option (Token × List Char) :=
  let (hashes,cs) := split (· = '#') cs
  match cs with
  | '"' :: cs =>
    (splitAt ('"' :: hashes) cs).map fun (body,rest) =>
      (.leaf (.text (String.ofList body)),rest)
  | _ => none

def character? : List Char → Option (Token × List Char)
  | '\\' :: c :: cs =>
    let (code,cs) := split (· != '\'') cs
    match unescape none ('\\' :: c :: code), cs with
    | some [x], '\'' :: rest => some (.leaf (.character x),rest)
    | _, _ => none
  | c :: '\'' :: rest => if c = '\'' then none else some (.leaf (.character c),rest)
  | _ => none

end Ron

end PhraseGrammar
