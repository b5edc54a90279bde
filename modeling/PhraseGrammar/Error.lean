import PhraseGrammar.Naming
import PhraseGrammar.Text.Quoted

/-! Why an operation is refused, and the sentence that says so. -/
namespace PhraseGrammar

/-- What a name with a gender or a determiner asks of its group. -/
inductive Expectation
  | genderSuffix
  | genderMapping
  | entry (gender : Gender)
deriving DecidableEq

def Expectation.message : Expectation → String
  | genderSuffix => "a _masc or _fem suffix after the pronoun prefix"
  | genderMapping => "a gender mapping"
  | entry gender => "a [" ++ gender.tag ++ "] entry"

/-- What stands in a document where something else is wanted. -/
inductive Found
  | null
  | boolean (value : Bool)
  | integer (value : Int)
  | float (shown : String)
  | text (value : String)
  | sequence
  | map
  | other
deriving DecidableEq

def Found.message : Found → String
  | null => "null"
  | boolean value => "boolean `" ++ toString value ++ "`"
  | integer value => "integer `" ++ toString value ++ "`"
  | float shown => "floating point `" ++ shown ++ "`"
  | text value => "string " ++ quoted value
  | sequence => "sequence"
  | map => "map"
  | other => "value"

inductive Wanted
  | groups
  | sequence
  | text
deriving DecidableEq

def Wanted.message : Wanted → String
  | groups => "a map from group names to rule lists"
  | sequence => "a sequence"
  | text => "a string"

/-- Why a well-formed document is no grammar. -/
inductive Misfit
  | noRuleForm
  | repeatedGroup (name : String)
  | wrongType (found : Found) (wanted : Wanted)
deriving DecidableEq

def Misfit.message : Misfit → String
  | noRuleForm => "data did not match any variant of untagged enum GroupRules"
  | repeatedGroup name => "group [" ++ name ++ "] is declared twice"
  | wrongType found wanted =>
    "invalid type: " ++ found.message ++ ", expected " ++ wanted.message

/-- The two notations a grammar document is written in. -/
inductive Format
  | json
  | ron
deriving DecidableEq

def Format.label : Format → String
  | json => "JSON error: "
  | ron => "RON deserialization error: "

inductive FileFault
  | notFound
  | isDirectory
  | notDirectory
  | notText
deriving DecidableEq

def FileFault.message : FileFault → String
  | notFound => "no such file or directory"
  | isDirectory => "is a directory"
  | notDirectory => "not a directory"
  | notText => "the file does not hold valid UTF-8"

inductive Error
  | unbalancedDelimiters (template : String)
  | unknownGroup (name : String)
  | invalidGroupShape (group : String) (expected : Expectation)
  | unresolvedGroup (name : String)
  | unsupportedModifier (placeholder modifier : String)
  | duplicateGroup (name : String)
  | duplicateKey (key path : String)
  | emptyGroup (name : String)
  | depthLimit (symbol : String) (limit : Nat)
  | file (fault : FileFault)
  | malformed (format : Format)
  | misfit (format : Format) (cause : Misfit)
deriving DecidableEq

def Error.message : Error → String
  | unbalancedDelimiters template => "[" ++ template ++ "] has unbalanced #"
  | unknownGroup name => "unknown group [" ++ name ++ "]"
  | invalidGroupShape group expected =>
    "group [" ++ group ++ "] has an invalid shape: expected " ++ expected.message
  | unresolvedGroup name => "unresolved group [" ++ name ++ "]"
  | unsupportedModifier placeholder modifier =>
    "unsupported modifier [" ++ modifier ++ "] in placeholder [" ++ placeholder ++ "]"
  | duplicateGroup name => "group [" ++ name ++ "] is declared twice"
  | duplicateKey key path => "existing key [" ++ key ++ "] found in [" ++ path ++ "]"
  | emptyGroup name => "group [" ++ name ++ "] has no rules to expand"
  | depthLimit symbol limit =>
    "expansion of [" ++ symbol ++ "] went deeper than " ++ toString limit ++ " levels"
  | file fault => "IO error: " ++ fault.message
  | malformed format => format.label ++ "malformed text"
  | misfit format cause => format.label ++ cause.message

end PhraseGrammar
