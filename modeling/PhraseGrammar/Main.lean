import PhraseGrammar.CommandLine

/-! The program: its first argument names a tool, the rest are the tool's. -/
namespace PhraseGrammar
namespace Program

def faultOf : IO.Error → FileFault
  | .noFileOrDirectory .. => .notFound
  | .inappropriateType .. => .isDirectory
  | _ => .notFound

def readText (path : String) : IO (Except FileFault String) := do
  try
    let bytes ← IO.FS.readBinFile path
    return match String.fromUTF8? bytes with
      | some text => .ok text
      | none => .error .notText
  catch e => return .error (faultOf e)

/-- Texts that have been read, by path. -/
abbrev Texts := List (String × Except FileFault String)

def reader (texts : Texts) : Grammar.Reader :=
  fun path => (texts.lookup path).getD (.error .notFound)

def readAll (paths : List String) : IO Texts :=
  paths.mapM fun path => return (path,← readText path)

/-- The texts a task needs: the grammar, and then what it includes. -/
def textsFor (task : CommandLine.Task) : IO Texts := do
  let main ← readAll [task.path]
  readAll (Grammar.sources (reader main) task.path)

def save (file : String × String) : IO (Except FileFault Unit) := do
  try
    IO.FS.writeFile file.1 file.2
    return .ok ()
  catch e => return .error (faultOf e)

def respond (r : CommandLine.Response) : IO UInt32 := do
  IO.print r.stdout
  IO.eprint r.stderr
  return r.exit.toUInt32

def runTool (tool : CommandLine.Tool) (arguments : List String) : IO UInt32 := do
  match CommandLine.Task.parse tool arguments with
  | .error refusal => respond (.refused tool refusal)
  | .ok task =>
    let texts ← textsFor task
    let anySeed ← IO.rand 0 (Word64.bound - 1)
    let result := CommandLine.perform (reader texts) anySeed task
    match result.save with
    | none => respond result.response
    | some file => respond (result.afterSave (← save file))

end Program
end PhraseGrammar

open PhraseGrammar in
def main : List String → IO UInt32
  | [] => Program.respond ⟨2,"","Usage: <TOOL> <ARGUMENTS>\n"⟩
  | name :: arguments =>
    match CommandLine.Tool.ofName? name with
    | none => Program.respond ⟨2,"","unknown tool " ++ name ++ "\n"⟩
    | some tool => Program.runTool tool arguments
