/-! How the name of a group asks for a gender and a determiner:
`[determiner_]base[_masc|_fem]`. -/
namespace PhraseGrammar

inductive Gender
  | masc
  | fem
deriving DecidableEq

def Gender.all : List Gender := [.masc,.fem]

def Gender.tag : Gender → String
  | .masc => "masc"
  | .fem => "fem"

/-- The article or possessive put in front of an item. -/
inductive Determiner
  | definite
  | definiteUpper
  | indefinite
  | indefiniteUpper
  | partitive
  | possessive
deriving DecidableEq

namespace Determiner

def all : List Determiner :=
  [definite,definiteUpper,indefinite,indefiniteUpper,partitive,possessive]

/-- The beginning of a name that asks for the determiner, less its underscore. -/
def tag : Determiner → String
  | definite => "pronomdef"
  | definiteUpper => "Pronomdef"
  | indefinite => "pronomindef"
  | indefiniteUpper => "Pronomindef"
  | partitive => "pronompart"
  | possessive => "pronomposs"

/-- Letters before which a determiner elides, or `sa` gives way to `son`. -/
def vowels : List Char := ['a','e','i','o','u','é','è','ê','h']

def elides (item : List Char) : Bool :=
  match item with
  | [] => false
  | c :: _ => vowels.contains c

/-- The determiner's own text, with the space or apostrophe that ends it. -/
def article (d : Determiner) (g : Gender) (elided : Bool) : String :=
  match d, elided, g with
  | definite, true, _ => "l'"
  | definite, false, .masc => "le "
  | definite, false, .fem => "la "
  | definiteUpper, true, _ => "L'"
  | definiteUpper, false, .masc => "Le "
  | definiteUpper, false, .fem => "La "
  | indefinite, _, .masc => "un "
  | indefinite, _, .fem => "une "
  | indefiniteUpper, _, .masc => "Un "
  | indefiniteUpper, _, .fem => "Une "
  | partitive, true, _ => "de l'"
  | partitive, false, .masc => "du "
  | partitive, false, .fem => "de la "
  | possessive, true, _ => "son "
  | possessive, false, .masc => "son "
  | possessive, false, .fem => "sa "

def apply (d : Determiner) (g : Gender) (item : String) : String :=
  d.article g (elides item.toList) ++ item

end Determiner

/-- A group name taken apart. -/
structure SymbolName where
  determiner : Option Determiner
  base : String
  gender : Option Gender

namespace SymbolName

def afterDeterminer? (name : List Char) (d : Determiner) : Option (Determiner × List Char) :=
  (List.isPrefixOf? (d.tag.toList ++ ['_']) name).map (d,·)

def beforeGender? (name : List Char) (g : Gender) : Option (List Char × Gender) :=
  (List.isSuffixOf? ('_' :: g.tag.toList) name).map (·,g)

def splitDeterminer (name : List Char) : Option Determiner × List Char :=
  match Determiner.all.findSome? (afterDeterminer? name) with
  | some (d,rest) => (some d,rest)
  | none => (none,name)

def splitGender (name : List Char) : List Char × Option Gender :=
  match Gender.all.findSome? (beforeGender? name) with
  | some (rest,g) => (rest,some g)
  | none => (name,none)

def parse (name : String) : SymbolName :=
  let (determiner,rest) := splitDeterminer name.toList
  let (base,gender) := splitGender rest
  ⟨determiner,String.ofList base,gender⟩

/-- The name uses a determiner or a gender. -/
def conventional (n : SymbolName) : Bool := n.determiner.isSome || n.gender.isSome

end SymbolName

end PhraseGrammar
