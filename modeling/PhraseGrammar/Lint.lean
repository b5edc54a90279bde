import PhraseGrammar.Graph.Reachable
import PhraseGrammar.Graph.Recursive

/-! What is wrong or wasted in a graph, seen from the group that texts start from. -/
namespace PhraseGrammar
namespace Lint

inductive Severity
  | error
  | warning
deriving DecidableEq

inductive Finding
  | noRoot (root : String)
  | unreachable (group root : String)
  | noRules (group : String)
  | endless (group : String)
  | recursive (group : String)
  | repeated (group rule : String)
deriving DecidableEq

namespace Finding

/-- An error makes the grammar unusable from its root. -/
def severity : Finding → Severity
  | noRoot _ | noRules _ | endless _ => .error
  | unreachable _ _ | recursive _ | repeated _ _ => .warning

def message : Finding → String
  | noRoot root => "No '" ++ root ++ "' group to start expansion from"
  | unreachable group root => "Group '" ++ group ++ "' is not reachable from '" ++ root ++ "'"
  | noRules group => "Group '" ++ group ++ "' has no rules"
  | endless group =>
    "Group '" ++ group ++ "' has no terminating expansion (infinite recursion)"
  | recursive group =>
    "Group '" ++ group ++ "' is recursive, its derivation count is a lower bound"
  | repeated group rule => "Group '" ++ group ++ "' repeats rule '" ++ rule ++ "'"

end Finding

/-- Some rule mentions marked groups only. -/
def hasExit (marks : List Bool) (group : Group) : Bool :=
  group.rules.any fun rule => rule.references.all fun id => marks.getD id false

def productiveStep (groups : List Group) (marks : List Bool) : List Bool :=
  groups.map (hasExit marks)

/-- Repeats a step until nothing changes, at most `n` times. -/
def settle (step : List Bool → List Bool) : Nat → List Bool → List Bool
  | 0, marks => marks
  | n + 1, marks =>
    let after := step marks
    if after = marks then marks else settle step n after

/-- The groups that have a finite derivation. Every step but the last marks one more group. -/
def productive (g : Graph) : List Bool :=
  settle (productiveStep g.groups) (g.size + 1) (List.replicate g.size false)

/-- The groups that a reachable derived group takes its rules from. -/
def bases (g : Graph) (reachable : List Bool) : List GroupId :=
  (List.range g.size).filterMap fun id =>
    if reachable.getD id false then (g.group id).base else none

/-- The entries that stand in the list before, in order, each of them once. -/
def repeats : List String → List String
  | rules => (go [] rules).eraseDups
where
  go (seen : List String) : List String → List String
    | [] => []
    | rule :: rules =>
      if seen.contains rule then rule :: go seen rules else go (rule :: seen) rules

/-- What the analyses say about all groups. -/
structure Survey where
  root : String
  reachable : List Bool
  bases : List GroupId
  productive : List Bool
  recursive : List Bool

def survey (g : Graph) (root : String) (id : GroupId) : Survey :=
  let reachable := g.reachableFrom id
  ⟨root,reachable,bases g reachable,productive g,g.recursiveGroups⟩

/-- A derived group is there because something mentions it, and the rules of a base are checked in
the groups derived from it, so neither is reported as out of reach. -/
def findingsOf (s : Survey) (group : Group) (id : GroupId) : List Finding :=
  if s.reachable.getD id false then
    let state :=
      if group.rules.isEmpty then [.noRules group.name]
      else if !s.productive.getD id false then [.endless group.name]
      else if s.recursive.getD id false then [.recursive group.name]
      else []
    state ++ (repeats group.sources).map (.repeated group.name)
  else if group.derived || s.bases.contains id then []
  else [.unreachable group.name s.root]

end Lint

open Lint in
/-- The findings in graph order. -/
def lint (g : Graph) (root : String) : List Finding :=
  match g.idOf? root with
  | none => [.noRoot root]
  | some id =>
    let s := survey g root id
    (List.range g.size).flatMap fun i => findingsOf s (g.group i) i

namespace Lint

def errors (findings : List Finding) : List Finding :=
  findings.filter (·.severity = .error)

def warnings (findings : List Finding) : List Finding :=
  findings.filter (·.severity = .warning)

end Lint

end PhraseGrammar
