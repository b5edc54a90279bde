import PhraseGrammar.Template

/-! Groups with their parsed rules and the groups these mention, in order of first mention. A group
that is mentioned before it is declared waits as a pending one. -/
namespace PhraseGrammar

/-- The position of a group in its graph. -/
abbrev GroupId := Nat

/-- A rule; `references` has the group of each placeholder, in order. -/
structure Rule where
  template : Template
  references : List GroupId

def Rule.source (r : Rule) : String := r.template.source

structure Group where
  name : String
  resolved : Bool
  /-- Named by gender or determiner instead of by a key of the grammar. -/
  derived : Bool
  /-- Where a derived group takes its rules from. -/
  base : Option GroupId
  rules : List Rule
  /-- Every group the rules mention, once, in order of first mention. -/
  dependencies : List GroupId

namespace Group

def pending (name : String) : Group := ⟨name,false,false,none,[],[]⟩

def sources (g : Group) : List String := g.rules.map Rule.source

/-- The group once it has its rules. -/
def declared (g : Group) (rules : List Rule) : Group :=
  { g with resolved := true, rules, dependencies := (rules.flatMap Rule.references).eraseDups }

def derivedFrom (g : Group) (base : Option GroupId) : Group := { g with derived := true, base }

end Group

structure Graph where
  groups : List Group

namespace Graph

def empty : Graph := ⟨[]⟩

def size (g : Graph) : Nat := g.groups.length

def names (g : Graph) : List String := g.groups.map Group.name

/-- A position outside the graph holds a pending group without rules. -/
def group (g : Graph) (id : GroupId) : Group := g.groups.getD id (.pending "")

def idOf? (g : Graph) (name : String) : Option GroupId := g.names.idxOf? name

def get? (g : Graph) (name : String) : Option Group := (g.idOf? name).map g.group

def update (g : Graph) (id : GroupId) (f : Group → Group) : Graph :=
  ⟨g.groups.modify id f⟩

/-- The group of a name, added as a pending one if it is new. -/
def reference (g : Graph) (name : String) : GroupId × Graph :=
  match g.idOf? name with
  | some id => (id,g)
  | none => (g.size,⟨g.groups ++ [.pending name]⟩)

def referenceAll : Graph → List String → List GroupId × Graph
  | g, [] => ([],g)
  | g, name :: names =>
    let (id,g) := g.reference name
    let (ids,g) := g.referenceAll names
    (id :: ids,g)

/-- Parses rules in order; what the rules before a failing one mention stays in the graph. -/
def parseRules : Graph → List String → Except Error (List Rule) × Graph
  | g, [] => (.ok [],g)
  | g, source :: sources =>
    match Template.parse source with
    | .error e => (.error e,g)
    | .ok template =>
      let (references,g) := g.referenceAll template.symbols
      let (rules,g) := g.parseRules sources
      (rules.map (⟨template,references⟩ :: ·),g)

/-- Gives a group its rules. A group that has them is refused. -/
def declare (g : Graph) (name : String) (sources : List String) : Except Error GroupId × Graph :=
  let (id,g') := g.reference name
  if (g'.group id).resolved then (.error (.duplicateGroup name),g)
  else
    match g'.parseRules sources with
    | (.error e,g'') => (.error e,g'')
    | (.ok rules,g'') => (.ok id,g''.update id (·.declared rules))

/-- What stands before and after the last dot. -/
def splitLastDot (name : List Char) : Option (List Char × List Char) :=
  match name.reverse.dropWhile (· != '.') with
  | [] => none
  | _ :: before => some (before.reverse,(name.reverse.takeWhile (· != '.')).reverse)

/-- Why a pending group is missing: its ending may be meant for a modifier. -/
def missing (g : Graph) (name : String) : Error :=
  match splitLastDot name.toList with
  | none => .unresolvedGroup name
  | some (base,ending) =>
    let modifier := String.ofList ending
    if (Modifier.all.map Modifier.name).contains modifier then .unresolvedGroup name
    else
      match g.get? (String.ofList base) with
      | some group =>
        if group.resolved then .unsupportedModifier name modifier else .unresolvedGroup name
      | none => .unresolvedGroup name

/-- Fails for the first group that was never declared. -/
def validate (g : Graph) : Except Error Unit :=
  match g.groups.find? (!·.resolved) with
  | none => .ok ()
  | some group => .error (g.missing group.name)

end Graph

end PhraseGrammar
