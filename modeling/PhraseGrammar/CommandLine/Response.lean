import PhraseGrammar.CommandLine.Settings

/-! What a tool prints, and the status it ends with: 0 if all went well, 1 if its work failed, and
2 if its arguments were wrong. -/
namespace PhraseGrammar
namespace CommandLine

structure Response where
  exit : Nat
  stdout : String
  stderr : String
deriving DecidableEq

namespace Response

def printed (text : String) : Response := ⟨0,text,""⟩

def failed (explanation : String) : Response := ⟨1,"","ERROR: " ++ explanation ++ "\n"⟩

def refused (t : Tool) : Refusal → Response
  | .help => ⟨0,t.usage ++ "\n",""⟩
  | .usage => ⟨2,"",t.usage ++ "\n"⟩

end Response

def lines (texts : List String) : String := String.join (texts.map (· ++ "\n"))

end CommandLine

end PhraseGrammar
