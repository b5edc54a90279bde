import PhraseGrammar.CommandLine.Tool

/-! What a tool takes one argument for. -/
namespace PhraseGrammar
namespace CommandLine

/-- What one argument is. -/
inductive Argument
  | separator
  | help
  | grammar
  | parameter (p : Parameter) (value : Option String)
  | unknown

def Argument.ofLong (t : Tool) (cs : List Char) : Argument :=
  let name := cs.takeWhile (· != '=')
  let value :=
    match cs.dropWhile (· != '=') with
    | [] => none
    | _ :: value => some (String.ofList value)
  if cs = "help".toList then .help
  else
    match t.parameters.find? (·.long.toList = name) with
    | none => .unknown
    | some p => if value.isSome && !p.takesValue then .unknown else .parameter p value

def Argument.ofShort (t : Tool) (c : Char) (cs : List Char) : Argument :=
  if c = 'h' then .help
  else
    match t.parameters.find? (·.short? = some c) with
    | none => .unknown
    | some p =>
      match cs with
      | [] => .parameter p none
      | '=' :: value => .parameter p (some (String.ofList value))
      | value => .parameter p (some (String.ofList value))

/-- A lone dash is a file name, and so is an argument that starts with no dash. -/
def Argument.of (t : Tool) (argument : String) : Argument :=
  match argument.toList with
  | ['-','-'] => .separator
  | '-' :: '-' :: cs => .ofLong t cs
  | '-' :: c :: cs => .ofShort t c cs
  | _ => .grammar

end CommandLine

end PhraseGrammar
