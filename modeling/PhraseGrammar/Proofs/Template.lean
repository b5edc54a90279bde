import PhraseGrammar.Naming
import PhraseGrammar.Proofs.Lists
import PhraseGrammar.Template

/-! What text put before a rule leaves as it was. Delimiters pair up from the left, so a beginning
without any moves none of them from opening to closing. -/
namespace PhraseGrammar

namespace Template

@[simp] theorem placeholders_literals (text : List Char) :
    (literals text).filterMap Segment.placeholder? = [] := by
  cases text <;> rfl

/-- The first piece is literal, so no placeholder depends on it. -/
theorem alternate_head (text other : List Char) (pieces : List (List Char)) :
    (alternate (text :: pieces)).map (List.filterMap Segment.placeholder?) =
      (alternate (other :: pieces)).map (List.filterMap Segment.placeholder?) := by
  cases pieces with
  | nil => simp [alternate]
  | cons raw pieces =>
    cases pieces with
    | nil => rfl
    | cons next pieces => simp [alternate,Function.comp_def]

theorem placeholders_parse_append {lead : String} (h : delimiter ∉ lead.toList) (source : String) :
    (Template.parse (lead ++ source)).toOption.map placeholders =
      (Template.parse source).toOption.map placeholders := by
  have hparse (s : String) : (Template.parse s).toOption.map placeholders =
      (alternate (s.toList.splitOn delimiter)).map (List.filterMap Segment.placeholder?) := by
    rw [Template.parse]
    cases alternate (s.toList.splitOn delimiter) <;> rfl
  rw [hparse,hparse,String.toList_append,splitOn_append_left h]
  cases hs : source.toList.splitOn delimiter with
  | nil => rfl
  | cons piece pieces => exact alternate_head _ _ _

theorem exists_parse_of_placeholders {source other : String}
    (h : (Template.parse source).toOption.map placeholders =
      (Template.parse other).toOption.map placeholders) {template : Template}
    (ht : Template.parse source = .ok template) :
    ∃ template', Template.parse other = .ok template' ∧ template'.symbols = template.symbols := by
  rw [ht] at h
  cases hother : Template.parse other with
  | error e => simp [hother,Except.toOption] at h
  | ok template' =>
    rw [hother] at h
    have hplaceholders : template.placeholders = template'.placeholders := Option.some.inj h
    exact ⟨template',rfl,by rw [Template.symbols,Template.symbols,hplaceholders]⟩

end Template

namespace Determiner

theorem delimiter_notMem_article (d : Determiner) (g : Gender) (elided : Bool) :
    Template.delimiter ∉ (d.article g elided).toList := by
  cases d <;> cases g <;> cases elided <;> decide

theorem placeholders_parse_apply (d : Determiner) (g : Gender) (item : String) :
    (Template.parse (d.apply g item)).toOption.map Template.placeholders =
      (Template.parse item).toOption.map Template.placeholders :=
  Template.placeholders_parse_append (delimiter_notMem_article d g (elides item.toList)) item

theorem symbols_parse_apply {d : Determiner} {g : Gender} {item : String} {template : Template}
    (h : Template.parse (d.apply g item) = .ok template) :
    ∃ bare, Template.parse item = .ok bare ∧ bare.symbols = template.symbols :=
  Template.exists_parse_of_placeholders (placeholders_parse_apply d g item) h

theorem exists_parse_apply {item : String} {bare : Template} (h : Template.parse item = .ok bare)
    (d : Determiner) (g : Gender) :
    ∃ template, Template.parse (d.apply g item) = .ok template ∧
      template.symbols = bare.symbols :=
  Template.exists_parse_of_placeholders (placeholders_parse_apply d g item).symm h

end Determiner

end PhraseGrammar
