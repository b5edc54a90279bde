import PhraseGrammar.Dot
import PhraseGrammar.Enumeration
import PhraseGrammar.Generator
import PhraseGrammar.Graph.Build
import PhraseGrammar.Lint
import PhraseGrammar.Preparation

/-! A grammar that is ready to generate texts, one after the other. The n-th text since the start
comes from a generator of its own, seeded with the session's seed plus n. -/
namespace PhraseGrammar

structure Session where
  grammar : Grammar
  graph : Graph
  depthLimit : Option Nat
  seed : UInt64
  /-- How many texts were generated since the start or the last reset. -/
  generated : Nat

namespace Session

def start (grammar : Grammar) (dedup : Bool) (depthLimit : Option Nat) (seed : UInt64) :
    Except Error Session :=
  (Graph.build grammar dedup).map fun graph => ⟨grammar,graph,depthLimit,seed,0⟩

variable {σ : Type}

def expand (s : Session) (strategy : Strategy σ) (symbol : String) (state : σ) :
    Outcome String × σ :=
  s.graph.expand s.depthLimit Graph.maxLevels strategy symbol state

def generator (s : Session) : Generator := .ofSeed (s.seed + s.generated.toUInt64)

/-- Generates a text from a symbol. Only a success moves the session on. -/
def flatten (s : Session) (symbol : String) : Outcome String × Session :=
  match (s.expand Generator.uniform symbol s.generator).1 with
  | .done text => (.done text,{ s with generated := s.generated + 1 })
  | outcome => (outcome,s)

def generate (s : Session) : Outcome String × Session := s.flatten Grammar.origin

/-- Generates texts up to the first failure. -/
def variants : Session → Nat → Outcome (List String) × Session
  | s, 0 => (.done [],s)
  | s, n + 1 =>
    match s.generate with
    | (.done text,s) =>
      let (texts,s) := s.variants n
      (texts.map (text :: ·),s)
    | (.failed e,s) => (.failed e,s)
    | (.unfinished,s) => (.unfinished,s)

def reset (s : Session) : Session := { s with generated := 0 }

def enumerate (s : Session) (symbol : String) (cap : Nat) : Outcome (List String) :=
  s.graph.enumerate s.depthLimit Graph.maxLevels symbol cap

/-- How many derivations a group has. -/
def count (s : Session) (symbol : String) : Except Error Nat :=
  match s.graph.idOf? symbol with
  | none => .error (.unknownGroup symbol)
  | some id => .ok (s.graph.tally.total id)

def dot (s : Session) (style : Dot.Style) : String :=
  PhraseGrammar.dot s.graph style (if style.counted then some s.graph.tally else none)

def prepare (s : Session) : Except Error Grammar := s.grammar.prepare

def lint (s : Session) : List Lint.Finding := PhraseGrammar.lint s.graph Grammar.origin

end Session

end PhraseGrammar
