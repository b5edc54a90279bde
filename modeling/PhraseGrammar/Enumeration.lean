import PhraseGrammar.Expansion

/-! The texts of a group in rule order, as many as a cap allows. -/
namespace PhraseGrammar
namespace Graph

/-- Every beginning with every ending, beginnings first, up to `cap` of them. -/
def products (endings : List String) : Nat → List String → List String
  | _, [] => []
  | cap, text :: texts =>
    if cap = 0 then []
    else
      let row := (endings.take cap).map (text ++ ·)
      row ++ products endings (cap - row.length) texts

theorem products_eq_take (endings : List String) (cap : Nat) (texts : List String) :
    products endings cap texts = (texts.flatMap fun t => endings.map (t ++ ·)).take cap := by
  induction texts generalizing cap with
  | nil => simp [products]
  | cons t texts ih =>
    rw [products]
    split
    · simp [*]
    · simp only [List.flatMap_cons,List.take_append,List.map_take,List.length_take,
        List.length_map,ih]
      congr 2
      omega

/-- Extends partial texts by one segment after the other. -/
def combine (enter : GroupId → Outcome (List String)) (cap : Nat) :
    List Segment → List GroupId → List String → Outcome (List String)
  | [], _, texts => .done texts
  | .literal text :: segments, ids, texts =>
    combine enter cap segments ids (texts.map (· ++ text))
  | .placeholder p :: _, [], _ => .failed (.unresolvedGroup p.symbol)
  | .placeholder p :: segments, id :: ids, texts =>
    (enter id).bind fun options =>
      combine enter cap segments ids (products (options.map p.applyModifiers) cap texts)

/-- Puts the texts of rules one after the other until the cap is reached. -/
def gather (list : Nat → Rule → Outcome (List String)) : Nat → List Rule → Outcome (List String)
  | _, [] => .done []
  | cap, rule :: rules =>
    if cap = 0 then .done []
    else
      (list cap rule).bind fun texts =>
        (gather list (cap - texts.length) rules).map (texts ++ ·)

def enumerateGroup (g : Graph) (limit : Option Nat) :
    (levels depth cap : Nat) → GroupId → Outcome (List String)
  | 0, _, _, _ => .unfinished
  | levels + 1, depth, cap, id =>
    let group := g.group id
    match exceeded? limit depth with
    | some limit => .failed (.depthLimit group.name limit)
    | none =>
      gather
        (fun cap rule =>
          combine (g.enumerateGroup limit levels (depth + 1) cap) cap rule.template.segments
            rule.references [""])
        cap group.rules

def enumerate (g : Graph) (limit : Option Nat) (levels : Nat) (symbol : String) (cap : Nat) :
    Outcome (List String) :=
  match g.idOf? symbol with
  | none => .failed (.unknownGroup symbol)
  | some id => g.enumerateGroup limit levels 0 cap id

end Graph

end PhraseGrammar
