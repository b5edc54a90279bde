/-! Paths as text: parts between slashes, of which empty ones and later dots name nothing. A path
that ends in a dot, in two dots or in nothing has no file name. -/
namespace PhraseGrammar
namespace Path

def parts (path : String) : List (List Char) := path.toList.splitOn '/'

def ofParts (ps : List (List Char)) : String := String.ofList (['/'].intercalate ps)

/-- A part that leads nowhere, unless the path starts with it. -/
def idle (part : List Char) : Bool := part = [] || part = ['.']

/-- Directory and file name; `none` if there is no file name. -/
def split? (path : String) : Option (String × List Char) :=
  match parts path with
  | [] => none
  | first :: rest =>
    match rest.reverse.dropWhile idle with
    | [] => if idle first || first = ['.','.'] then none else some ("",first)
    | last :: before =>
      if last = ['.','.'] then none
      else
        let directory := first :: (before.dropWhile idle).reverse
        some (if directory = [[]] then "/" else ofParts directory,last)

/-- Where the file lies; a path without a file name is a directory itself. -/
def directory (path : String) : String :=
  match split? path with
  | some (directory,_) => directory
  | none => path

def fileName? (path : String) : Option (List Char) := (split? path).map Prod.snd

/-- Name and extension at the last dot. A name that only starts with a dot has no extension. -/
def splitName (name : List Char) : List Char × Option (List Char) :=
  match name.reverse.dropWhile (· != '.') with
  | [] | [_] => (name,none)
  | _ :: before => (before.reverse,some (name.reverse.takeWhile (· != '.')).reverse)

def stem (path : String) : List Char :=
  match fileName? path with
  | some name => (splitName name).1
  | none => []

def extension? (path : String) : Option (List Char) :=
  (fileName? path).bind fun name => (splitName name).2

/-- A path seen from a directory; one that starts at the root stays as it is. -/
def join (directory path : String) : String :=
  if path.toList.head? = some '/' then path
  else if directory.toList = [] || directory.toList.getLast? = some '/' then directory ++ path
  else directory ++ "/" ++ path

/-- Where the prepared form of a grammar is put: beside it, as `name_prepared.json`. -/
def prepared (path : String) : String :=
  join (directory path) (String.ofList (stem path ++ "_prepared.json".toList))

end Path

end PhraseGrammar
