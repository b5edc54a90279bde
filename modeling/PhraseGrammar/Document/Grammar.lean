import PhraseGrammar.Document.Json.Printer
import PhraseGrammar.Document.Json.Reader
import PhraseGrammar.Document.Ron.Reader

/-! Grammars from documents. Entries are taken from left to right, and the first one that does not
fit, or is broken, decides the error. -/
namespace PhraseGrammar

namespace Value

def texts? (v : Value) : Option (List String) := v.items?.bind (·.mapM text?)

/-- A list of rules that may be left out. -/
def rules? : Value → Option (Option (List String))
  | null | absent => some none
  | present v => v.texts?.map some
  | v => v.texts?.map some

/-- The list of a gendered group that a key names: by tag, or by position. -/
def slot? : Value → Option (Option Gender)
  | text s =>
    if s = Gender.masc.tag then some (some .masc)
    else if s = Gender.fem.tag then some (some .fem)
    else if s = "*" then some none
    else none
  | natural 0 => some (some .masc)
  | natural 1 => some (some .fem)
  | natural 2 => some none
  | _ => none

end Value

namespace GenderedRules

def entry? (entry : Value × Value) : Option (Option Gender × Option (List String)) := do
  return (← entry.1.slot?,← entry.2.rules?)

/-- Entries with known keys, none of them twice. -/
def ofEntries? (entries : List (Value × Value)) : Option GenderedRules := do
  let slots ← entries.mapM entry?
  let list := fun slot => (slots.lookup slot).join
  if (slots.map Prod.fst).Nodup then
    return ⟨list (some .masc),list (some .fem),list none⟩
  else none

/-- Up to three lists, in the order of the keys. -/
def ofItems? (items : List Value) : Option GenderedRules := do
  let lists ← items.mapM Value.rules?
  if lists.length ≤ 3 then
    return ⟨lists.getD 0 none,lists.getD 1 none,lists.getD 2 none⟩
  else none

end GenderedRules

/-- A list of strings is a flat group; other lists, and maps, are gendered ones. -/
def GroupRules.ofValue? (v : Value) : Option GroupRules :=
  match v.texts? with
  | some rules => some (.flat rules)
  | none =>
    match v.items?, v.entries? with
    | some items, _ => (GenderedRules.ofItems? items).map .gendered
    | none, some entries => (GenderedRules.ofEntries? entries).map .gendered
    | none, none => none

namespace Grammar

def unfit (format : Format) (v : Value) (wanted : Wanted) : Error :=
  match v with
  | .broken | .cut _ => .malformed format
  | v => .misfit format (.wrongType v.found wanted)

def includesOfItems (format : Format) : List Value → Except Error (List String)
  | [] => .ok []
  | .text path :: items => (includesOfItems format items).map (path :: ·)
  | v :: _ => .error (unfit format v .text)

def includesOf (format : Format) : Value → Except Error (List String)
  | .list items => includesOfItems format items
  | v => .error (unfit format v .sequence)

/-- A group's value is read to its end before its form is judged. -/
def rulesOf (format : Format) (v : Value) : Except Error GroupRules :=
  if !v.complete then .error (.malformed format)
  else
    match GroupRules.ofValue? v with
    | none => .error (.misfit format .noRuleForm)
    | some rules => .ok rules

/-- The value's form is judged first, then the text up to the next entry, and then the name. -/
def addEntry (format : Format) (g : Grammar) (entry : Value × Value) : Except Error Grammar :=
  match entry with
  | (.text key,v) =>
    if key = includeKey then
      (includesOf format v).map fun paths => { g with includes := g.includes ++ paths }
    else
      match rulesOf format v.uncut with
      | .error e => .error e
      | .ok rules =>
        if v.isCut then .error (.malformed format)
        else if g.contains key then .error (.misfit format (.repeatedGroup key))
        else .ok (g.push key rules)
  | _ => .error (.malformed format)

def ofEntries (format : Format) (entries : List (Value × Value)) : Except Error Grammar :=
  entries.foldlM (addEntry format) .empty

def ofDocument (format : Format) (d : Document) : Except Error Grammar :=
  match d.root with
  | .map entries =>
    match ofEntries format entries with
    | .error e => .error e
    | .ok g => if d.closed then .ok g else .error (.malformed format)
  | v => .error (unfit format v .groups)

def parseJson (text : String) : Except Error Grammar := ofDocument .json (Json.read text)

def parseRon (text : String) : Except Error Grammar := ofDocument .ron (Ron.read text)

def parse : Format → String → Except Error Grammar
  | .json => parseJson
  | .ron => parseRon

end Grammar

end PhraseGrammar
