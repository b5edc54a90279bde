import PhraseGrammar.Count
import PhraseGrammar.Text.Grouped

/-! Drawings of a graph in the DOT language, first as statements and then as text. Groups keep their
order. -/
namespace PhraseGrammar
namespace Dot

inductive Style
  /-- A node for each group. -/
  | plain
  /-- The same with counts. -/
  | short
  /-- A node for each rule, in a cluster for each group. -/
  | long
deriving DecidableEq

/-- The style counts are drawn in. -/
def Style.counted : Style → Bool
  | plain => false
  | short | long => true

inductive Statement
  | compound
  | leftToRight
  | blank
  | group (id : GroupId) (label : String)
  | rule (id : GroupId) (index : Nat) (label : String)
  | cluster (id : GroupId) (label : String) (rules : Nat)
  | groupEdge (source target : GroupId)
  /-- An edge to a cluster goes to the first rule in it. -/
  | ruleEdge (source : GroupId) (index : Nat) (target : GroupId)
deriving DecidableEq

def escape (c : Char) : List Char :=
  if c = '"' then ['\\','"']
  else if c = '\\' then ['\\','\\']
  else if c = '\n' then ['\\','n']
  else [c]

def label (text : String) : String :=
  "label=\"" ++ String.ofList (text.toList.flatMap escape) ++ "\""

def groupNode (id : GroupId) : String := "group_" ++ toString id

def ruleNode (id : GroupId) (index : Nat) : String :=
  "rule_" ++ toString id ++ "_" ++ toString index

def clusterName (id : GroupId) : String := "cluster_" ++ toString id

namespace Statement

def lines : Statement → List String
  | compound => ["\tcompound=true;"]
  | leftToRight => ["\tgraph [rankdir=LR];"]
  | blank => [""]
  | group id text => ["\t" ++ groupNode id ++ " [" ++ label text ++ "];"]
  | rule id index text => ["\t" ++ ruleNode id index ++ " [" ++ label text ++ "];"]
  | cluster id text rules =>
    ["\tsubgraph " ++ clusterName id ++ " \x7b","\t\t" ++ label text ++ ";"]
      ++ (List.range rules).map (fun index => "\t\t" ++ ruleNode id index ++ ";")
      ++ ["\t\x7d"]
  | groupEdge source target => ["\t" ++ groupNode source ++ " -> " ++ groupNode target ++ ";"]
  | ruleEdge source index target =>
    ["\t" ++ ruleNode source index ++ " -> " ++ ruleNode target 0 ++ " [lhead="
      ++ clusterName target ++ "];"]

end Statement

def withCount (text : String) (count : Nat) : String := text ++ " " ++ grouped count

def groupLabel (counts : Option Tally) (id : GroupId) (group : Group) : String :=
  match counts with
  | none => group.name
  | some t => withCount group.name (t.total id)

/-- A rule with a single derivation needs no count. -/
def ruleLabel (counts : Option Tally) (id : GroupId) (index : Nat) (rule : Rule) : String :=
  match counts with
  | none => rule.source
  | some t =>
    let count := (t.counts id).getD index 0
    if count = 1 then rule.source else withCount rule.source count

/-- Every group with its position. -/
def groups (g : Graph) : List (GroupId × Group) := (List.range g.size).zip g.groups

def groupStatements (g : Graph) (counts : Option Tally) : List Statement :=
  (groups g).map (fun (id,group) => .group id (groupLabel counts id group))
    ++ [.blank]
    ++ (groups g).flatMap (fun (id,group) => group.dependencies.map (.groupEdge id))

def rulesOf (group : Group) : List (Nat × Rule) :=
  (List.range group.rules.length).zip group.rules

def ruleStatements (g : Graph) (counts : Option Tally) : List Statement :=
  (groups g).flatMap (fun (id,group) =>
      (rulesOf group).map fun (index,rule) => .rule id index (ruleLabel counts id index rule))
    ++ [.blank]
    ++ (groups g).map (fun (id,group) =>
      .cluster id (groupLabel counts id group) group.rules.length)
    ++ [.blank]
    ++ (groups g).flatMap (fun (id,group) =>
      (rulesOf group).flatMap fun (index,rule) =>
        rule.references.eraseDups.map (.ruleEdge id index))

def statements (g : Graph) (style : Style) (counts : Option Tally) : List Statement :=
  match style with
  | .plain => groupStatements g none
  | .short => .leftToRight :: groupStatements g counts
  | .long => .compound :: .leftToRight :: ruleStatements g counts

def render (statements : List Statement) : String :=
  let lines := ["digraph tracery \x7b"] ++ statements.flatMap Statement.lines ++ ["\x7d"]
  String.join (lines.map (· ++ "\n"))

end Dot

/-- The drawing of a graph; counts are left out of the plain style. -/
def dot (g : Graph) (style : Dot.Style) (counts : Option Tally) : String :=
  Dot.render (Dot.statements g style counts)

end PhraseGrammar
