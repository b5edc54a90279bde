/-! The four tools on grammar files, and the parameters that each of them takes. -/
namespace PhraseGrammar
namespace CommandLine

inductive Tool
  | samples
  | dependenciesSchema
  | prepare
  | grammarLinter
deriving DecidableEq

inductive Parameter
  | count
  | seed
  | style
  | dedup
deriving DecidableEq

namespace Tool

def all : List Tool := [samples,dependenciesSchema,prepare,grammarLinter]

def name : Tool → String
  | samples => "samples"
  | dependenciesSchema => "dependencies_schema"
  | prepare => "prepare"
  | grammarLinter => "grammar_linter"

def ofName? (name : String) : Option Tool := all.find? (·.name = name)

def parameters : Tool → List Parameter
  | samples => [.count,.seed]
  | dependenciesSchema => [.style,.dedup]
  | prepare | grammarLinter => []

def usage : Tool → String
  | samples => "Usage: samples [OPTIONS] <GRAMMAR>"
  | dependenciesSchema => "Usage: dependencies_schema [OPTIONS] <GRAMMAR>"
  | prepare => "Usage: prepare <GRAMMAR>"
  | grammarLinter => "Usage: grammar_linter <GRAMMAR>"

end Tool

namespace Parameter

def long : Parameter → String
  | count => "count"
  | seed => "seed"
  | style => "style"
  | dedup => "dedup-rules"

def short? : Parameter → Option Char
  | count => some 'n'
  | seed => some 's'
  | style | dedup => none

def takesValue : Parameter → Bool
  | dedup => false
  | _ => true

end Parameter

end CommandLine

end PhraseGrammar
