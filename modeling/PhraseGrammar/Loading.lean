import PhraseGrammar.Document.Grammar
import PhraseGrammar.FileTree
import PhraseGrammar.Preparation

/-! Grammars in files: a file and the files it includes make one grammar, and a prepared grammar is
put beside its source. -/
namespace PhraseGrammar
namespace Grammar

/-- How a file's text is read. -/
abbrev Reader := String → Except FileFault String

def formatOf (path : String) : Format :=
  if Path.extension? path = some "ron".toList then .ron else .json

def loadFile (read : Reader) (path : String) : Except Error Grammar :=
  match read path with
  | .error fault => .error (.file fault)
  | .ok text => parse (formatOf path) text

/-- Merges files in order. What these include themselves is not followed. -/
def mergeFiles (read : Reader) : Grammar → List String → Except Error Grammar
  | g, [] => .ok g
  | g, path :: paths =>
    match loadFile read path with
    | .error e => .error e
    | .ok other =>
      match g.merge other path with
      | (.error e,_) => .error e
      | (.ok (),g) => mergeFiles read g paths

/-- The files that a grammar in a file includes. -/
def includedPaths (path : String) (g : Grammar) : List String :=
  g.includes.map (Path.join (Path.directory path))

def load (read : Reader) (path : String) : Except Error Grammar :=
  match loadFile read path with
  | .error e => .error e
  | .ok g => mergeFiles read { g with includes := [] } (g.includedPaths path)

/-- Every file that loading may read. -/
def sources (read : Reader) (path : String) : List String :=
  match loadFile read path with
  | .error _ => [path]
  | .ok g => path :: g.includedPaths path

/-- Path and text of a prepared grammar. -/
def preparedFile (prepared : Grammar) (source : String) : String × String :=
  (Path.prepared source,prepared.toJson)

end Grammar

/-- Writes a prepared grammar beside its source and tells where. -/
def FileTree.savePrepared (t : FileTree) (prepared : Grammar) (source : String) :
    Except Error (String × FileTree) :=
  let (path,text) := prepared.preparedFile source
  match t.write path text with
  | .error fault => .error (.file fault)
  | .ok t => .ok (path,t)

end PhraseGrammar
