import PhraseGrammar.CommandLine.Argument
import PhraseGrammar.Dot
import PhraseGrammar.Number.Word64

/-! What a tool's arguments say together. They are read from left to right, and the first one that
cannot be taken, or asks for help, ends the reading. -/
namespace PhraseGrammar
namespace CommandLine

/-- A whole number of 64 bits; a plus sign may stand before it. -/
def natural? (text : String) : Option Nat :=
  let digits :=
    match text.toList with
    | '+' :: cs => cs
    | cs => cs
  if digits = [] || !digits.all Char.isDigit then none
  else
    let n := digits.foldl (fun n c => n * 10 + (c.toNat - '0'.toNat)) 0
    if n < Word64.bound then some n else none

def style? (text : String) : Option Dot.Style :=
  if text = "plain" then some .plain
  else if text = "short" then some .short
  else if text = "long" then some .long
  else none

/-- Why a tool does not start. -/
inductive Refusal
  | help
  | usage

structure Settings where
  grammar : Option String := none
  count : Option Nat := none
  seed : Option Nat := none
  style : Option Dot.Style := none
  dedup : Bool := false

namespace Settings

/-- A slot is filled once. -/
def fill {α : Type} (slot : Option α) (value? : Option α) : Except Refusal (Option α) :=
  match slot, value? with
  | none, some value => .ok (some value)
  | _, _ => .error .usage

/-- The one file; its name is not empty. -/
def setGrammar (s : Settings) (path : String) : Except Refusal Settings := do
  let grammar ← fill s.grammar (if path = "" then none else some path)
  return { s with grammar }

def set (s : Settings) (p : Parameter) (text : String) : Except Refusal Settings :=
  match p with
  | .count => do
    let count ← fill s.count (natural? text)
    return { s with count }
  | .seed => do
    let seed ← fill s.seed (natural? text)
    return { s with seed }
  | .style => do
    let style ← fill s.style (style? text)
    return { s with style }
  | .dedup => if s.dedup then .error .usage else .ok { s with dedup := true }

/-- Goes through the arguments. A parameter's value may be the next argument unless that starts with
a dash, and after a separator all arguments are files. -/
def add (t : Tool) : Settings → List String → Except Refusal Settings
  | s, [] => .ok s
  | s, argument :: rest =>
    match Argument.of t argument with
    | .separator => rest.foldlM setGrammar s
    | .help => .error .help
    | .unknown => .error .usage
    | .grammar => do add t (← s.setGrammar argument) rest
    | .parameter p (some value) => do add t (← s.set p value) rest
    | .parameter p none =>
      if p.takesValue then
        match rest with
        | [] => .error .usage
        | value :: rest =>
          if value.toList.head? = some '-' then .error .usage
          else do add t (← s.set p value) rest
      else do add t (← s.set p "") rest

end Settings

end CommandLine

end PhraseGrammar
