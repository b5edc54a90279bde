import PhraseGrammar.Error
import PhraseGrammar.Rules

/-! The ordered table of a grammar's groups, and what a name stands for in it. A group is found by
its position; a name is taken once. -/
namespace PhraseGrammar

/-- `includes` lists files that are still to be merged. -/
structure Grammar where
  groups : List (String × GroupRules)
  includes : List String
deriving DecidableEq

namespace Grammar

/-- The group a text starts from. -/
def origin : String := "origin"

def empty : Grammar := ⟨[],[]⟩

def names (g : Grammar) : List String := g.groups.map Prod.fst

def get? (g : Grammar) (name : String) : Option GroupRules := g.groups.lookup name

def contains (g : Grammar) (name : String) : Bool := g.names.contains name

def push (g : Grammar) (name : String) (rules : GroupRules) : Grammar :=
  { g with groups := g.groups ++ [(name,rules)] }

@[simp] theorem names_push (g : Grammar) (name : String) (rules : GroupRules) :
    (g.push name rules).names = g.names ++ [name] := by simp [push,names]
@[simp] theorem includes_push (g : Grammar) (name : String) (rules : GroupRules) :
    (g.push name rules).includes = g.includes := rfl

/-- Adds a group; a name that is taken leaves the grammar as it is. -/
def insert (g : Grammar) (name : String) (rules : GroupRules) : Except Error Unit × Grammar :=
  if g.contains name then (.error (.duplicateGroup name),g) else (.ok (),g.push name rules)

/-- Adds groups in order up to the first name that is taken; `path` is where they come from. -/
def mergeGroups (path : String) : Grammar → List (String × GroupRules) →
    Except Error Unit × Grammar
  | g, [] => (.ok (),g)
  | g, (name,rules) :: rest =>
    if g.contains name then (.error (.duplicateKey name path),g)
    else mergeGroups path (g.push name rules) rest

def merge (g other : Grammar) (path : String) : Except Error Unit × Grammar :=
  mergeGroups path g other.groups

/-- The rules a name stands for. A group's own name comes first; otherwise the name's gender picks
from the group of its base, and its determiner goes before each rule. -/
def resolve (g : Grammar) (name : String) : Except Error (List String) :=
  match g.get? name with
  | some rules => .ok rules.all
  | none =>
    let symbol := SymbolName.parse name
    match symbol.gender, symbol.determiner with
    | none, some _ => .error (.invalidGroupShape name .genderSuffix)
    | none, none => .error (.unknownGroup name)
    | some gender, determiner =>
      match g.get? symbol.base with
      | none => .error (.unknownGroup symbol.base)
      | some (.flat _) => .error (.invalidGroupShape symbol.base .genderMapping)
      | some (.gendered rules) =>
        match rules.candidates gender with
        | none => .error (.invalidGroupShape symbol.base (.entry gender))
        | some candidates =>
          match determiner with
          | none => .ok candidates
          | some d => .ok (candidates.map (d.apply gender))

end Grammar

end PhraseGrammar
