import PhraseGrammar.Expansion
import PhraseGrammar.Proofs.Naming
import PhraseGrammar.Proofs.Segmentation
import PhraseGrammar.Proofs.Template

/-! The text that a determiner puts before an item. It depends on no more of the item than its first
character, the item can be told from the whole, and an expansion of the whole is the text followed
by an expansion of the item, since the text only joins the first literal. -/
namespace PhraseGrammar

namespace Determiner

/-- What the determiner puts before an item that begins with this character. -/
def lead (d : Determiner) (g : Gender) (first : Option Char) : String :=
  d.article g (first.any vowels.contains)

theorem apply_eq_lead (d : Determiner) (g : Gender) (item : String) :
    d.apply g item = d.lead g item.toList.head? ++ item := by
  have helides : elides item.toList = item.toList.head?.any vowels.contains := by
    cases item.toList <;> rfl
  rw [apply,lead,helides]

theorem article_ne_empty (d : Determiner) (g : Gender) (elided : Bool) :
    d.article g elided ≠ "" := by
  cases d <;> cases g <;> cases elided <;> decide

/-- No text of a determiner begins another one of it. -/
theorem article_eq_of_begins {d : Determiner} {g : Gender} {elided elided' : Bool}
    (h : (d.article g elided).toList <+: (d.article g elided').toList) :
    d.article g elided = d.article g elided' := by
  revert h
  cases d <;> cases g <;> cases elided <;> cases elided' <;> decide

theorem article_append_inj {d : Determiner} {g : Gender} {elided elided' : Bool}
    {item item' : String} (h : d.article g elided ++ item = d.article g elided' ++ item') :
    item = item' := by
  have hchars := congrArg String.toList h
  rw [String.toList_append,String.toList_append] at hchars
  have hbegins : (d.article g elided).toList <+: (d.article g elided').toList ++ item'.toList :=
    hchars ▸ List.prefix_append _ _
  have harticle : d.article g elided = d.article g elided' := by
    rcases List.prefix_or_prefix_of_prefix hbegins (List.prefix_append _ _) with hp | hp
    · exact article_eq_of_begins hp
    · exact (article_eq_of_begins hp).symm
  rw [harticle] at hchars
  exact String.toList_injective (List.append_cancel_left hchars)

theorem apply_injective (d : Determiner) (g : Gender) : Function.Injective (d.apply g) :=
  fun _ _ h => article_append_inj h

end Determiner

theorem Outcome.map_map {α β γ : Type} (f : α → β) (f' : β → γ) (o : Outcome α) :
    (o.map f).map f' = o.map (f' ∘ f) := by
  cases o <;> rfl

namespace Template

theorem segments_append {lead source : String} {t t' : Template} (hlead : delimiter ∉ lead.toList)
    (ht : Template.parse source = .ok t) (ht' : Template.parse (lead ++ source) = .ok t') :
    ∃ text rest, t.segments = literals text ++ rest ∧
      t'.segments = literals (lead.toList ++ text) ++ rest := by
  have hsegments {s : String} {t : Template} (h : Template.parse s = .ok t) :
      alternate (s.toList.splitOn delimiter) = some t.segments := by
    rw [Template.parse] at h
    cases hs : alternate (s.toList.splitOn delimiter) with
    | none => simp [hs] at h
    | some segments =>
      rw [hs] at h
      rw [← Except.ok.inj h]
  have h := hsegments ht
  have h' := hsegments ht'
  rw [String.toList_append,splitOn_append_left hlead] at h'
  cases hpieces : source.toList.splitOn delimiter with
  | nil => exact absurd hpieces (List.splitOn_ne_nil _ _)
  | cons text pieces =>
    rw [hpieces,alternate_cons] at h
    rw [hpieces,List.modifyHead_cons,alternate_cons] at h'
    obtain ⟨rest,hrest,hsegments⟩ := Option.map_eq_some_iff.mp h
    obtain ⟨rest',hrest',hsegments'⟩ := Option.map_eq_some_iff.mp h'
    obtain rfl := Option.some.inj (hrest.symm.trans hrest')
    exact ⟨text,rest,hsegments.symm,hsegments'.symm⟩

end Template

namespace Graph

variable {σ : Type} (enter : GroupId → σ → Outcome String × σ)

theorem fill_literals (text : List Char) (segments : List Segment) (ids : List GroupId) (s : σ) :
    fill enter (Template.literals text ++ segments) ids s =
      ((fill enter segments ids s).1.map (String.ofList text ++ ·),
        (fill enter segments ids s).2) := by
  cases text with
  | nil =>
    have hid : (String.ofList [] ++ ·) = (id : String → String) := funext fun t => by simp
    rw [hid]
    cases hfill : fill enter segments ids s with
    | mk o s' => cases o <;> simp [Template.literals,hfill]
  | cons c text => rfl

theorem fill_append {lead source : String} {t t' : Template}
    (hlead : Template.delimiter ∉ lead.toList) (ht : Template.parse source = .ok t)
    (ht' : Template.parse (lead ++ source) = .ok t') (ids : List GroupId) (s : σ) :
    fill enter t'.segments ids s =
      ((fill enter t.segments ids s).1.map (lead ++ ·),(fill enter t.segments ids s).2) := by
  obtain ⟨text,rest,hsegments,hsegments'⟩ := Template.segments_append hlead ht ht'
  rw [hsegments,hsegments',fill_literals,fill_literals,Outcome.map_map]
  congr 2
  funext tail
  simp [String.ofList_append,String.append_assoc]

end Graph
end PhraseGrammar
