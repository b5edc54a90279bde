import PhraseGrammar.Naming

/-! The rules of one group: a flat list, or lists by gender with a shared one. -/
namespace PhraseGrammar

/-- A list may be absent, which differs from being empty. -/
structure GenderedRules where
  masc : Option (List String)
  fem : Option (List String)
  shared : Option (List String)
deriving DecidableEq

namespace GenderedRules

def absent : GenderedRules := ⟨none,none,none⟩

def own (r : GenderedRules) : Gender → Option (List String)
  | .masc => r.masc
  | .fem => r.fem

/-- The rules of one gender, followed by the shared ones. -/
def candidates (r : GenderedRules) (g : Gender) : Option (List String) :=
  (r.own g).map (· ++ r.shared.getD [])

end GenderedRules

inductive GroupRules
  | flat (rules : List String)
  | gendered (rules : GenderedRules)
deriving DecidableEq

namespace GroupRules

def all : GroupRules → List String
  | flat rules => rules
  | gendered r => r.masc.getD [] ++ r.fem.getD [] ++ r.shared.getD []

def isGendered : GroupRules → Bool
  | flat _ => false
  | gendered _ => true

end GroupRules

end PhraseGrammar
