import PhraseGrammar.Error
import PhraseGrammar.Text.Uppercase

/-! Rules as written: literal text and `#symbol.modifier#` placeholders. Delimiters pair up from the
left, so a rule is balanced when it has an even number of them. -/
namespace PhraseGrammar

/-- A change made to a text once its placeholder has been filled. -/
inductive Modifier
  | capitalize
deriving DecidableEq

namespace Modifier

def all : List Modifier := [capitalize]

def name : Modifier → String
  | capitalize => "capitalize"

def apply : Modifier → String → String
  | capitalize, text => String.ofList (PhraseGrammar.capitalize text.toList)

/-- How the modifier is written at the end of a placeholder. -/
def suffix (m : Modifier) : List Char := '.' :: m.name.toList

def strip? (raw : List Char) (m : Modifier) : Option (List Char × Modifier) :=
  (m.suffix.isSuffixOf? raw).map (·,m)

theorem length_of_isPrefixOf? {front text rest : List Char}
    (h : front.isPrefixOf? text = some rest) : text.length = front.length + rest.length := by
  induction front generalizing text with
  | nil =>
    have h : some text = some rest := by cases text <;> exact h
    simp [Option.some.inj h]
  | cons a front ih =>
    cases text with
    | nil => cases h
    | cons b text =>
      have h : (if a == b then front.isPrefixOf? text else none) = some rest := h
      split at h
      · simp [ih h,Nat.add_right_comm]
      · cases h

theorem length_lt_of_strip? {raw rest : List Char} {m : Modifier}
    (h : all.findSome? (strip? raw) = some (rest,m)) : rest.length < raw.length := by
  obtain ⟨a,-,ha⟩ := List.exists_of_findSome?_eq_some h
  obtain ⟨r,hr,he⟩ := Option.map_eq_some_iff.1 ha
  obtain ⟨rfl,rfl⟩ := Prod.mk.inj he
  obtain ⟨back,hback,rfl⟩ := Option.map_eq_some_iff.1 hr
  have hlen := length_of_isPrefixOf? hback
  simp only [suffix,List.length_reverse,List.length_cons] at hlen ⊢
  omega

end Modifier

structure Placeholder where
  symbol : String
  /-- In the order they are written. -/
  modifiers : List Modifier
  raw : String
deriving DecidableEq

namespace Placeholder

/-- Takes modifiers off the end until none is left; an ending that is no modifier stays in the
symbol. -/
def split (raw : List Char) : List Char × List Modifier :=
  match h : Modifier.all.findSome? (Modifier.strip? raw) with
  | some (rest,m) =>
    have : rest.length < raw.length := Modifier.length_lt_of_strip? h
    let (symbol,modifiers) := split rest
    (symbol,modifiers ++ [m])
  | none => (raw,[])
termination_by raw.length

def parse (raw : String) : Placeholder :=
  let (symbol,modifiers) := split raw.toList
  ⟨String.ofList symbol,modifiers,raw⟩

def applyModifiers (p : Placeholder) (text : String) : String :=
  p.modifiers.foldl (fun t m => m.apply t) text

end Placeholder

inductive Segment
  | literal (text : String)
  | placeholder (p : Placeholder)
deriving DecidableEq

def Segment.placeholder? : Segment → Option Placeholder
  | literal _ => none
  | placeholder p => some p

def Segment.render : Segment → String
  | literal text => text
  | placeholder p => "#" ++ p.raw ++ "#"

structure Template where
  source : String
  segments : List Segment
deriving DecidableEq

namespace Template

def delimiter : Char := '#'

def literals : List Char → List Segment
  | [] => []
  | cs => [.literal (String.ofList cs)]

/-- Pieces between delimiters are literal and placeholder by turns; an open placeholder is
refused. -/
def alternate : List (List Char) → Option (List Segment)
  | [] => some []
  | [text] => some (literals text)
  | [_,_] => none
  | text :: raw :: rest =>
    (alternate rest).map fun segments =>
      literals text ++ .placeholder (Placeholder.parse (String.ofList raw)) :: segments

def parse (source : String) : Except Error Template :=
  match alternate (source.toList.splitOn delimiter) with
  | some segments => .ok ⟨source,segments⟩
  | none => .error (.unbalancedDelimiters source)

def placeholders (t : Template) : List Placeholder := t.segments.filterMap Segment.placeholder?

def symbols (t : Template) : List String := t.placeholders.map Placeholder.symbol

def render (t : Template) : String := String.join (t.segments.map Segment.render)

end Template

end PhraseGrammar
