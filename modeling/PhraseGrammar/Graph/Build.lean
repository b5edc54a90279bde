import PhraseGrammar.Graph.Basic
import PhraseGrammar.Grammar

/-! The graph of a grammar: its keys are declared first, then the names that ask for a gender or a
determiner get their rules from the grammar. -/
namespace PhraseGrammar

/-- Orders a group's rules and drops repeated ones, if asked to. -/
def arrange (dedup : Bool) (rules : List String) : List String :=
  if dedup then rules.eraseDups.mergeSort (fun a b => decide (a ≤ b)) else rules

@[simp] theorem arrange_false (rules : List String) : arrange false rules = rules := rfl

namespace Graph

def declareKeys (dedup : Bool) : Graph → List (String × GroupRules) → Except Error Graph
  | g, [] => .ok g
  | g, (name,rules) :: rest =>
    match g.declare name (arrange dedup rules.all) with
    | (.error e,_) => .error e
    | (.ok _,g) => g.declareKeys dedup rest

/-- Declares one name from the rules the grammar has for it. -/
def derive (g : Graph) (grammar : Grammar) (dedup : Bool) (name : String) : Except Error Graph :=
  match grammar.resolve name with
  | .error e => .error e
  | .ok rules =>
    let base := g.idOf? (SymbolName.parse name).base
    match g.declare name (arrange dedup rules) with
    | (.error e,_) => .error e
    | (.ok id,g) => .ok (g.update id (·.derivedFrom base))

/-- Derives the pending groups from position `id` on. -/
def deriveFrom (grammar : Grammar) (dedup : Bool) : Nat → GroupId → Graph → Except Error Graph
  | 0, _, g => .ok g
  | n + 1, id, g =>
    let group := g.group id
    if group.resolved || !(SymbolName.parse group.name).conventional then
      deriveFrom grammar dedup n (id + 1) g
    else
      match g.derive grammar dedup group.name with
      | .error e => .error e
      | .ok g => deriveFrom grammar dedup n (id + 1) g

/-- Deriving mentions no new group, because a determiner adds no placeholder; so one pass over the
groups there are is enough. -/
def build (grammar : Grammar) (dedup : Bool) : Except Error Graph := do
  let declared ← empty.declareKeys dedup grammar.groups
  let derived ← deriveFrom grammar dedup declared.size 0 declared
  derived.validate
  return derived

end Graph

end PhraseGrammar
