import PhraseGrammar.Choice
import PhraseGrammar.Graph.Basic
import PhraseGrammar.Outcome

/-! One text of a group: a strategy picks a rule, and every placeholder of the rule is filled from
its own group, one level deeper. Nothing else bounds a recursion that never bottoms out, so a run is
given a number of levels and comes out unfinished below them. -/
namespace PhraseGrammar
namespace Graph

variable {σ : Type}

/-- The limit, where a group at this depth lies below it. -/
def exceeded? (limit : Option Nat) (depth : Nat) : Option Nat := limit.filter (· < depth)

/-- Writes out segments from left to right, entering a group for each placeholder. -/
def fill (enter : GroupId → σ → Outcome String × σ) :
    List Segment → List GroupId → σ → Outcome String × σ
  | [], _, s => (.done "",s)
  | .literal text :: segments, ids, s =>
    let (rest,s) := fill enter segments ids s
    (rest.map (text ++ ·),s)
  | .placeholder p :: _, [], s => (.failed (.unresolvedGroup p.symbol),s)
  | .placeholder p :: segments, id :: ids, s =>
    match enter id s with
    | (.done text,s) =>
      let (rest,s) := fill enter segments ids s
      (rest.map (p.applyModifiers text ++ ·),s)
    | (.failed e,s) => (.failed e,s)
    | (.unfinished,s) => (.unfinished,s)

def expandGroup (g : Graph) (limit : Option Nat) (strategy : Strategy σ) :
    (levels depth : Nat) → GroupId → σ → Outcome String × σ
  | 0, _, _, s => (.unfinished,s)
  | levels + 1, depth, id, s =>
    let group := g.group id
    match exceeded? limit depth with
    | some limit => (.failed (.depthLimit group.name limit),s)
    | none =>
      if group.rules.isEmpty then (.failed (.emptyGroup group.name),s)
      else
        let (answer,s) := strategy.choose s group.rules.length
        match group.rules[answer % group.rules.length]? with
        | none => (.failed (.emptyGroup group.name),s)
        | some rule =>
          fill (g.expandGroup limit strategy levels (depth + 1)) rule.template.segments
            rule.references s

/-- More levels than a run can have in memory at once. -/
def maxLevels : Nat := 1000000000000000000

def expand (g : Graph) (limit : Option Nat) (levels : Nat) (strategy : Strategy σ)
    (symbol : String) (s : σ) : Outcome String × σ :=
  match g.idOf? symbol with
  | none => (.failed (.unknownGroup symbol),s)
  | some id => g.expandGroup limit strategy levels 0 id s

end Graph

end PhraseGrammar
