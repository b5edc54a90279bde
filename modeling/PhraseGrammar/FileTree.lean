import PhraseGrammar.Error
import PhraseGrammar.Path

/-! Files by their route, the names that lead to them from the top of a tree of directories.
Relative paths start from a home directory. A directory is there if it holds something or leads to
the home directory. -/
namespace PhraseGrammar

inductive Content
  | text (text : String)
  | undecodable
deriving DecidableEq

structure FileTree where
  files : List (List String × Content)
  home : List String

namespace FileTree

/-- What a path leads to. -/
inductive Place
  | file (route : List String) (content : Content)
  | directory (route : List String)
deriving DecidableEq

def isDirectory (t : FileTree) (route : List String) : Bool :=
  route.isPrefixOf t.home || t.files.any fun f => route.isPrefixOf f.1 && route.length < f.1.length

def lookup (t : FileTree) (route : List String) : Except FileFault Place :=
  match t.files.lookup route with
  | some content => .ok (.file route content)
  | none => if t.isDirectory route then .ok (.directory route) else .error .notFound

def step (t : FileTree) (place : Place) (part : String) : Except FileFault Place :=
  match place with
  | .file _ _ => .error .notDirectory
  | .directory route =>
    if part = "" || part = "." then .ok place
    else if part = ".." then .ok (.directory route.dropLast)
    else t.lookup (route ++ [part])

/-- The parts of a path, and where it starts. -/
def start (t : FileTree) (path : String) : List String :=
  if path.toList.head? = some '/' then [] else t.home

def partsOf (path : String) : List String := (Path.parts path).map String.ofList

def find (t : FileTree) (path : String) : Except FileFault Place :=
  if path = "" then .error .notFound
  else (partsOf path).foldlM t.step (.directory (t.start path))

def read (t : FileTree) (path : String) : Except FileFault String :=
  match t.find path with
  | .error e => .error e
  | .ok (.directory _) => .error .isDirectory
  | .ok (.file _ .undecodable) => .error .notText
  | .ok (.file _ (.text text)) => .ok text

def put (t : FileTree) (route : List String) (text : String) : FileTree :=
  { t with files := t.files.filter (·.1 != route) ++ [(route,.text text)] }

/-- Writes a file; only its last part may be new. -/
def write (t : FileTree) (path text : String) : Except FileFault FileTree :=
  match if path = "" then none else (partsOf path).getLast? with
  | none => .error .notFound
  | some name =>
    match (partsOf path).dropLast.foldlM t.step (.directory (t.start path)) with
    | .error e => .error e
    | .ok (.file _ _) => .error .notDirectory
    | .ok (.directory route) =>
      if name = "" || name = "." || name = ".." || t.isDirectory (route ++ [name]) then
        .error .isDirectory
      else .ok (t.put (route ++ [name]) text)

/-- The files that are new or different after a change. -/
def changes (before after : FileTree) : List (List String × Content) :=
  after.files.filter fun f => before.files.lookup f.1 != some f.2

end FileTree

end PhraseGrammar
