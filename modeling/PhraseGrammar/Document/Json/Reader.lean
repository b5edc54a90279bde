import PhraseGrammar.Document.Json.Token

/-! Values from JSON text. -/
namespace PhraseGrammar
namespace Json

mutual

/-- A value and the tokens after it. `depth` is how many more containers may be opened in each
other. -/
def value : (fuel depth : Nat) → List Token → Value × List Token
  | _ + 1, _, .leaf v :: ts => (v,ts)
  | n + 1, depth + 1, .mark '[' :: ts =>
    match ts with
    | .mark ']' :: ts => (.list [],ts)
    | _ =>
      let (vs,ts) := items n depth ts
      (.list vs,ts)
  | n + 1, depth + 1, .mark '\x7b' :: ts =>
    match ts with
    | .mark '\x7d' :: ts => (.map [],ts)
    | _ =>
      let (es,ts) := entries n depth ts
      (.map es,ts)
  | _, _, _ => (.broken,[])

def items : (fuel depth : Nat) → List Token → List Value × List Token
  | 0, _, _ => ([.broken],[])
  | n + 1, depth, ts =>
    match value n depth ts with
    | (v,.mark ',' :: ts) =>
      let (vs,ts) := items n depth ts
      (v :: vs,ts)
    | (v,.mark ']' :: ts) => ([v],ts)
    | (v,_) => ([v,.broken],[])

def entries : (fuel depth : Nat) → List Token → List (Value × Value) × List Token
  | n + 1, depth, .leaf (.text key) :: .mark ':' :: ts =>
    match value n depth ts with
    | (v,.mark ',' :: ts) =>
      let (es,ts) := entries n depth ts
      ((.text key,v) :: es,ts)
    | (v,.mark '\x7d' :: ts) => ([(.text key,v)],ts)
    | (v,_) => ([(.text key,v),(.broken,.broken)],[])
  | _, _, _ => ([(.broken,.broken)],[])

end

/-- How many containers may be open at once. -/
def maxDepth : Nat := 127

def read (text : String) : Document :=
  let ts := tokens text
  let (root,rest) := value (2 * ts.length + 1) maxDepth ts
  ⟨root,rest.isEmpty⟩

end Json

end PhraseGrammar
