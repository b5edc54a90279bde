import PhraseGrammar.Grammar
import PhraseGrammar.Template

/-! A grammar cut down to what a root can reach, every name of it resolved to a flat list of
rules. -/
namespace PhraseGrammar
namespace Grammar

/-- The symbols that rules mention, in order. -/
def mentions : List String → Except Error (List String)
  | [] => .ok []
  | source :: sources => do
    let template ← Template.parse source
    return template.symbols ++ (← mentions sources)

/-- Takes names off a stack; a new one puts what it mentions on the stack, the last mention on top.
`room` is the number of names that can still be added. -/
def prepareNames (g : Grammar) (room : Nat) (stack : List String) (prepared : Grammar) :
    Except Error Grammar :=
  match stack with
  | [] => .ok prepared
  | name :: stack =>
    if prepared.contains name then g.prepareNames room stack prepared
    else
      match g.resolve name with
      | .error e => .error e
      | .ok rules =>
        match mentions rules with
        | .error e => .error e
        | .ok symbols =>
          match room with
          | 0 => .ok prepared
          | room + 1 =>
            g.prepareNames room (symbols.reverse ++ stack) (prepared.push name (.flat rules))
termination_by (room,stack.length)

/-- A group answers to its own name and, with six determiners or none, to two genders. -/
def nameCount (g : Grammar) : Nat := 15 * g.groups.length

def prepareFrom (g : Grammar) (root : String) : Except Error Grammar :=
  g.prepareNames g.nameCount [root] .empty

def prepare (g : Grammar) : Except Error Grammar := g.prepareFrom origin

end Grammar

end PhraseGrammar
