import PhraseGrammar.Graph.Basic

/-! How many derivations each rule and each group has: a rule has the product over its references, a
group the sum over its rules. On a cycle, a group that is still being counted stands for the rules
counted so far, so the number is a lower bound there. -/
namespace PhraseGrammar

/-- For each group the counts of its rules so far; `none` before it is visited. -/
abbrev Tally := List (Option (List Nat))

namespace Tally

def start (n : Nat) : Tally := List.replicate n none

def counts (t : Tally) (id : GroupId) : List Nat := (t.getD id none).getD []

def total (t : Tally) (id : GroupId) : Nat := (t.counts id).foldr (· + ·) 0

def enter (t : Tally) (id : GroupId) : Tally := t.set id (some [])

def add (t : Tally) (id : GroupId) (count : Nat) : Tally :=
  t.set id (some (t.counts id ++ [count]))

end Tally

namespace Graph

/-- Multiplies a product by the count of one more reference. -/
def multiply (visit : GroupId → Tally → Tally) (state : Nat × Tally) (id : GroupId) :
    Nat × Tally :=
  let t := visit id state.2
  (state.1 * t.total id,t)

def countRule (visit : GroupId → Tally → Tally) (id : GroupId) (t : Tally) (rule : Rule) : Tally :=
  let (product,t) := rule.references.foldl (multiply visit) (1,t)
  t.add id product

/-- Counts a group and what it mentions, unless it has been visited. -/
def countGroup (g : Graph) : Nat → GroupId → Tally → Tally
  | 0, _, t => t
  | depth + 1, id, t =>
    match t.getD id none with
    | some _ => t
    | none => (g.group id).rules.foldl (countRule (g.countGroup depth) id) (t.enter id)

/-- Counts every group in order. -/
def tally (g : Graph) : Tally :=
  (List.range g.size).foldl (fun t id => g.countGroup g.size id t) (.start g.size)

end Graph

end PhraseGrammar
