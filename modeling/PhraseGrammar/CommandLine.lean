import PhraseGrammar.CommandLine.Response
import PhraseGrammar.CommandLine.Task
import PhraseGrammar.Loading
import PhraseGrammar.Session

/-! The four tools at work: what each of them prints, and what it saves. -/
namespace PhraseGrammar
namespace CommandLine

/-- What a run leaves behind: its response, and a file to save. A file that cannot be saved makes
the run fail. -/
structure Result where
  response : Response
  save : Option (String × String)

namespace Result

def of (response : Response) : Result := ⟨response,none⟩

def failed (e : Error) : Result := of (.failed e.message)

/-- The response once the file has been saved, or could not be. -/
def afterSave (r : Result) : Except FileFault Unit → Response
  | .ok () => r.response
  | .error fault => .failed (Error.file fault).message

/-- Saves the file in a tree, which stays as it is where that fails. -/
def saveIn (r : Result) (t : FileTree) : Response × FileTree :=
  match r.save with
  | none => (r.response,t)
  | some (path,text) =>
    match t.write path text with
    | .ok after => (r.afterSave (.ok ()),after)
    | .error fault => (r.afterSave (.error fault),t)

end Result

def session (read : Grammar.Reader) (path : String) (dedup : Bool) (seed : Nat) :
    Except Error Session := do
  let grammar ← Grammar.load read path
  Session.start grammar dedup none seed.toUInt64

def report (s : Session) : Response :=
  let findings := s.lint
  let errors := Lint.errors findings
  let warnings := Lint.warnings findings
  let text := lines (
    ["Loaded " ++ toString s.grammar.groups.length ++ " groups ("
        ++ toString s.graph.size ++ " after name resolution)",
      "","=== Grammar Lint Report ===",""]
      ++ (if findings.isEmpty then ["All checks passed!"] else [])
      ++ warnings.map (fun f => "WARNING: " ++ f.message)
      ++ errors.map (fun f => "ERROR: " ++ f.message)
      ++ ["","Summary: " ++ toString errors.length ++ " errors, "
        ++ toString warnings.length ++ " warnings"])
  ⟨if errors.isEmpty then 0 else 1,text,""⟩

/-- Runs a task; `anySeed` is taken where no seed is given. -/
def perform (read : Grammar.Reader) (anySeed : Nat) : Task → Result
  | .samples path count seed =>
    match session read path false (seed.getD anySeed) with
    | .error e => .failed e
    | .ok s =>
      match (s.variants count).1 with
      | .done texts => .of (.printed (lines texts))
      | .failed e => .failed e
      | .unfinished => .of (.failed "the expansion does not end")
  | .dependenciesSchema path style dedup =>
    match session read path dedup 0 with
    | .error e => .failed e
    | .ok s => .of (.printed (s.dot style))
  | .prepare path =>
    match Grammar.load read path >>= Grammar.prepare with
    | .error e => .failed e
    | .ok prepared => ⟨.printed "",some (prepared.preparedFile path)⟩
  | .grammarLinter path =>
    match session read path false 0 with
    | .error e => .of (.failed ("Failed to load grammar: " ++ e.message))
    | .ok s => .of (report s)

def run (t : Tool) (arguments : List String) (read : Grammar.Reader) (anySeed : Nat) : Result :=
  match Task.parse t arguments with
  | .error r => .of (.refused t r)
  | .ok task => perform read anySeed task

end CommandLine

end PhraseGrammar
