import PhraseGrammar.CommandLine.Settings

/-! A tool's work, as its arguments describe it. -/
namespace PhraseGrammar
namespace CommandLine

inductive Task
  | samples (path : String) (count : Nat) (seed : Option Nat)
  | dependenciesSchema (path : String) (style : Dot.Style) (dedup : Bool)
  | prepare (path : String)
  | grammarLinter (path : String)
deriving DecidableEq

namespace Task

def path : Task → String
  | samples path _ _ | dependenciesSchema path _ _ | prepare path | grammarLinter path => path

def ofSettings (t : Tool) (s : Settings) (path : String) : Task :=
  match t with
  | .samples => samples path (s.count.getD 1) s.seed
  | .dependenciesSchema => dependenciesSchema path (s.style.getD .plain) s.dedup
  | .prepare => prepare path
  | .grammarLinter => grammarLinter path

def parse (t : Tool) (arguments : List String) : Except Refusal Task := do
  let s ← Settings.add t {} arguments
  match s.grammar with
  | none => .error .usage
  | some path => return ofSettings t s path

end Task

end CommandLine

end PhraseGrammar
