import PhraseGrammar.Document.Ron.Token

/-! Values from RON text. -/
namespace PhraseGrammar
namespace Ron

/-- The tokens after a given mark. -/
def after? (c : Char) : List Token → Option (List Token)
  | .mark d :: ts => if d = c then some ts else none
  | _ => none

/-- A comment goes wrong before the next token. -/
def goesWrong : List Token → Bool
  | .badComment :: _ => true
  | _ => false

mutual

/-- A value and the tokens after it. A container takes one level of `depth`, and so does each value
in it. `implicit` allows to leave out the parentheses after `Some`. -/
def value (implicit : Bool) : (fuel depth : Nat) → List Token → Value × List Token
  | _ + 1, _, .leaf v :: ts => (v,ts)
  | _ + 1, _, .unit :: ts => (.null,ts)
  | n + 1, depth + 1, .mark '[' :: ts =>
    let (vs,ts) := items implicit ']' n depth ts
    (.list vs,ts)
  | n + 1, depth + 1, .mark '\x7b' :: ts =>
    let (es,ts) := entries implicit n depth ts
    (.map es,ts)
  | n + 1, depth + 1, .mark '(' :: ts => parenthesized implicit n depth ts
  | n + 1, depth, .word name raw :: ts =>
    match if raw then none else constants.lookup name with
    | some v => (v,ts)
    | none =>
      if !raw && name = someWord then optional implicit n depth ts else named implicit n depth ts
  | _, _, _ => (.broken,[])

/-- What follows an identifier: parentheses, or nothing that belongs to it but a comment. -/
def named (implicit : Bool) : (fuel depth : Nat) → List Token → Value × List Token
  | _ + 1, depth, .unit :: ts => if depth = 0 then (.broken,[]) else (.tuple [],ts)
  | n + 1, depth + 1, .mark '(' :: ts => parenthesized implicit n depth ts
  | _ + 1, 0, .mark '(' :: _ => (.broken,[])
  | _ + 1, _, .badComment :: _ => (.broken,[])
  | _ + 1, _, ts => (.null,ts)
  | 0, _, _ => (.broken,[])

/-- What follows `Some`. -/
def optional (implicit : Bool) : (fuel depth : Nat) → List Token → Value × List Token
  | _ + 1, _, .unit :: _ => (.broken,[])
  | n + 1, depth + 1, .mark '(' :: ts =>
    let (v,ts) := value implicit n depth ts
    match after? ')' ((after? ',' ts).getD ts) with
    | some ts => (.present v,ts)
    | none => (.broken,[])
  | n + 1, depth + 1, ts =>
    if implicit then
      let (v,ts) := value implicit n depth ts
      (.present v,ts)
    else (.broken,[])
  | _, _, _ => (.broken,[])

/-- What follows an opening parenthesis: fields if the first thing is a name with a colon, and
values otherwise. -/
def parenthesized (implicit : Bool) : (fuel depth : Nat) → List Token → Value × List Token
  | n + 1, depth, .word name raw :: .mark ':' :: ts =>
    let (es,ts) := fields implicit n depth (.word name raw :: .mark ':' :: ts)
    (.record es,ts)
  | n + 1, depth, ts =>
    let (vs,ts) := items implicit ')' n depth ts
    (.tuple vs,ts)
  | 0, _, _ => (.broken,[])

def items (implicit : Bool) (closing : Char) :
    (fuel depth : Nat) → List Token → List Value × List Token
  | 0, _, _ => ([.broken],[])
  | n + 1, depth, ts =>
    match after? closing ts, depth with
    | some ts, _ => ([],ts)
    | none, 0 => ([.broken],[])
    | none, depth + 1 =>
      let (v,ts) := value implicit n depth ts
      match after? ',' ts, after? closing ts with
      | some ts, _ =>
        let (vs,ts) := items implicit closing n (depth + 1) ts
        (v :: vs,ts)
      | none, some ts => ([v],ts)
      | none, none => ([v,.broken],[])

/-- Entries up to the closing brace. One ends where the next key starts, so a comment that goes
wrong before that cuts it short. -/
def entries (implicit : Bool) :
    (fuel depth : Nat) → List Token → List (Value × Value) × List Token
  | 0, _, _ => ([(.broken,.broken)],[])
  | n + 1, depth, ts =>
    match after? '\x7d' ts, depth with
    | some ts, _ => ([],ts)
    | none, 0 => ([(.broken,.broken)],[])
    | none, depth + 1 =>
      let (key,ts) := value implicit n depth ts
      let (v,ts) := value implicit n depth ((after? ':' ts).getD [])
      if goesWrong ((after? ',' ts).getD ts) then ([(key,.cut v)],[])
      else
        match after? ',' ts, after? '\x7d' ts with
        | some ts, _ =>
          let (es,ts) := entries implicit n (depth + 1) ts
          ((key,v) :: es,ts)
        | none, some ts => ([(key,v)],ts)
        | none, none => ([(key,v),(.broken,.broken)],[])

def fields (implicit : Bool) :
    (fuel depth : Nat) → List Token → List (Value × Value) × List Token
  | 0, _, _ => ([(.broken,.broken)],[])
  | n + 1, depth, ts =>
    match after? ')' ts, depth, ts with
    | some ts, _, _ => ([],ts)
    | none, depth + 1, .word name _ :: .mark ':' :: ts =>
      let key := Value.text (String.ofList name)
      let (v,ts) := value implicit n depth ts
      match after? ',' ts, after? ')' ts with
      | some ts, _ =>
        let (es,ts) := fields implicit n (depth + 1) ts
        ((key,v) :: es,ts)
      | none, some ts => ([(key,v)],ts)
      | none, none => ([(key,v),(.broken,.broken)],[])
    | none, _, _ => ([(.broken,.broken)],[])

end

def implicitSome : List Char := "implicit_some".toList

def extensions : List (List Char) :=
  [implicitSome,"unwrap_newtypes".toList,"unwrap_variant_newtypes".toList]

/-- The names in an attribute, up to its closing parenthesis. -/
def extensionNames : List Token → Option (List (List Char) × List Token)
  | .word name _ :: .mark ',' :: .mark ')' :: ts
  | .word name _ :: .mark ')' :: ts =>
    if extensions.contains name then some ([name],ts) else none
  | .word name _ :: .mark ',' :: ts =>
    if extensions.contains name then
      (extensionNames ts).map fun (names,ts) => (name :: names,ts)
    else none
  | _ => none

/-- The extensions that a document enables before its value. -/
def attributes : (fuel : Nat) → List Token → Option (List (List Char) × List Token)
  | n + 1, .mark '#' :: ts =>
    match ts with
    | .mark '!' :: .mark '[' :: .word name false :: .mark '(' :: ts =>
      if name = "enable".toList then
        match extensionNames ts with
        | some (names,.mark ']' :: ts) =>
          (attributes n ts).map fun (more,ts) => (names ++ more,ts)
        | _ => none
      else none
    | _ => none
  | _, ts => some ([],ts)

/-- How many levels may be open at once. -/
def maxDepth : Nat := 128

def read (text : String) : Document :=
  let ts := tokens text
  match attributes ts.length ts with
  | none => ⟨.broken,true⟩
  | some (names,ts) =>
    let (root,rest) := value (names.contains implicitSome) (3 * ts.length + 3) maxDepth ts
    ⟨root,rest.isEmpty⟩

end Ron

end PhraseGrammar
