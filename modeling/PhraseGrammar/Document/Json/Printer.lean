import PhraseGrammar.Document.Json.Text
import PhraseGrammar.Grammar

/-! A grammar as JSON text, one item to a line, indented by two spaces. -/
namespace PhraseGrammar

/-- The key under which a document lists the files to merge. -/
def Grammar.includeKey : String := "#include"

namespace Json

def indent (depth : Nat) : String := String.ofList (List.replicate (2 * depth) ' ')

/-- Items between brackets; an empty block stays on its line. -/
def block (opening closing : String) (depth : Nat) (items : List String) : String :=
  if items.isEmpty then opening ++ closing
  else
    opening ++ "\n" ++ ",\n".intercalate (items.map (indent (depth + 1) ++ ·)) ++ "\n"
      ++ indent depth ++ closing

def texts (depth : Nat) (rules : List String) : String := block "[" "]" depth (rules.map quote)

def field (key value : String) : String := quote key ++ ": " ++ value

def object (depth : Nat) (fields : List (String × String)) : String :=
  block "\x7b" "\x7d" depth (fields.map fun (key,value) => field key value)

end Json

/-- The lists that are present, by their key. -/
def GenderedRules.entries (r : GenderedRules) : List (String × List String) :=
  [("masc",r.masc),("fem",r.fem),("*",r.shared)].filterMap fun (key,rules) =>
    rules.map (key,·)

def GroupRules.toJson (depth : Nat) : GroupRules → String
  | flat rules => Json.texts depth rules
  | gendered r =>
    Json.object depth (r.entries.map fun (key,rules) => (key,Json.texts (depth + 1) rules))

/-- Includes come first, if there are any, and then the groups in order. -/
def Grammar.toJson (g : Grammar) : String :=
  let includes := if g.includes.isEmpty then [] else [(includeKey,Json.texts 1 g.includes)]
  Json.object 0 (includes ++ g.groups.map fun (name,rules) => (name,rules.toJson 1))

end PhraseGrammar
