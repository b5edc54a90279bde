import Mathlib.Algebra.Ring.Parity
import Mathlib.Data.List.Chain
import PhraseGrammar.Proofs.Lists
import PhraseGrammar.Template

/-! The one way to cut a rule into segments. A balanced rule is cut into segments that are rendered
as the rule again, and segments in this form are what their rendering is cut into; so a rule and its
segments determine each other. -/
namespace PhraseGrammar

@[simp] theorem Placeholder.raw_parse (raw : String) : (Placeholder.parse raw).raw = raw := rfl

namespace Segment

/-- A literal is not empty, a placeholder is what its text stands for, and neither has a
delimiter. -/
def Proper : Segment → Prop
  | literal text => text ≠ "" ∧ Template.delimiter ∉ text.toList
  | placeholder p => Template.delimiter ∉ p.raw.toList ∧ p = Placeholder.parse p.raw

def IsLiteral (s : Segment) : Prop := s.placeholder? = none

end Segment

namespace Template

/-- Segments as parsing leaves them; two literals in a row would be one. -/
structure Canonical (segments : List Segment) : Prop where
  proper : ∀ s ∈ segments, s.Proper
  apart : segments.IsChain fun s t => ¬ (s.IsLiteral ∧ t.IsLiteral)

/-- The pieces between delimiters that segments are rendered as: literals in even places and
placeholders in odd ones. -/
def pieces : List Segment → List (List Char)
  | [] => [[]]
  | .literal text :: segments => (pieces segments).modifyHead (text.toList ++ ·)
  | .placeholder p :: segments => [] :: p.raw.toList :: pieces segments

theorem pieces_ne_nil (segments : List Segment) : pieces segments ≠ [] := by
  fun_induction pieces segments with
  | case1 => exact List.cons_ne_nil _ _
  | case2 text segments ih => simpa using ih
  | case3 => exact List.cons_ne_nil _ _

theorem exists_pieces (segments : List Segment) : ∃ first rest, pieces segments = first :: rest :=
  List.exists_cons_of_ne_nil (pieces_ne_nil segments)

theorem intercalate_pieces (segments : List Segment) :
    [delimiter].intercalate (pieces segments) = segments.flatMap fun s => s.render.toList := by
  fun_induction pieces segments with
  | case1 => rfl
  | case2 text segments ih =>
    obtain ⟨first,rest,hpieces⟩ := exists_pieces segments
    rw [hpieces] at ih ⊢
    rw [List.flatMap_cons,← ih]
    cases rest with
    | nil => simp [Segment.render]
    | cons piece rest => simp [Segment.render,List.intercalate_cons_cons]
  | case3 p segments ih =>
    obtain ⟨first,rest,hpieces⟩ := exists_pieces segments
    rw [hpieces] at ih ⊢
    rw [List.flatMap_cons,← ih,List.intercalate_cons_cons,List.intercalate_cons_cons]
    simp [Segment.render,delimiter]

theorem toList_render (t : Template) :
    t.render.toList = [delimiter].intercalate (pieces t.segments) := by
  rw [intercalate_pieces,render,String.toList_join,List.flatMap_map]

theorem alternate_isSome {texts : List (List Char)} (hne : texts ≠ []) :
    (∃ segments, alternate texts = some segments) ↔ Odd texts.length := by
  fun_induction alternate texts with
  | case1 => exact absurd rfl hne
  | case2 text => simp
  | case3 text raw => simp [Nat.odd_iff]
  | case4 text raw rest hrest ih =>
    rw [List.length_cons,List.length_cons,Nat.odd_add_one,Nat.odd_add_one,not_not,← ih hrest]
    simp

theorem Canonical.nil : Canonical [] := ⟨by simp,.nil⟩

theorem Canonical.tail {s : Segment} {segments : List Segment} (h : Canonical (s :: segments)) :
    Canonical segments :=
  ⟨fun t ht => h.proper t (List.mem_cons_of_mem s ht),h.apart.tail⟩

theorem Canonical.placeholder {segments : List Segment} (h : Canonical segments) {p : Placeholder}
    (hp : (Segment.placeholder p).Proper) : Canonical (.placeholder p :: segments) := by
  refine ⟨List.forall_mem_cons.mpr ⟨hp,h.proper⟩,List.isChain_cons.mpr ⟨fun s _ hs => ?_,h.apart⟩⟩
  exact Option.some_ne_none p hs.1

theorem Canonical.lead {p : Placeholder} {segments : List Segment}
    (h : Canonical (.placeholder p :: segments)) {text : List Char} (htext : delimiter ∉ text) :
    Canonical (literals text ++ .placeholder p :: segments) := by
  cases text with
  | nil => exact h
  | cons c text =>
    refine ⟨List.forall_mem_cons.mpr ⟨⟨?_,?_⟩,h.proper⟩,List.isChain_cons_cons.mpr ⟨?_,h.apart⟩⟩
    · simp
    · rwa [String.toList_ofList]
    · exact fun hs => Option.some_ne_none p hs.2

theorem canonical_literals {text : List Char} (htext : delimiter ∉ text) :
    Canonical (literals text) := by
  cases text with
  | nil => exact .nil
  | cons c text =>
    refine ⟨List.forall_mem_singleton.mpr ⟨?_,?_⟩,.singleton _⟩
    · simp
    · rwa [String.toList_ofList]

theorem Canonical.of_alternate {texts : List (List Char)}
    (htexts : ∀ text ∈ texts, delimiter ∉ text) {segments : List Segment}
    (h : alternate texts = some segments) : Canonical segments := by
  fun_induction alternate texts generalizing segments with
  | case1 => exact Option.some.inj h ▸ .nil
  | case2 text => exact Option.some.inj h ▸ canonical_literals (htexts text List.mem_cons_self)
  | case3 => cases h
  | case4 text raw rest hrest ih =>
    obtain ⟨htext,htexts⟩ := List.forall_mem_cons.mp htexts
    obtain ⟨hraw,htexts⟩ := List.forall_mem_cons.mp htexts
    obtain ⟨segments,hsegments,rfl⟩ := Option.map_eq_some_iff.mp h
    refine ((ih htexts hsegments).placeholder ⟨?_,rfl⟩).lead htext
    rwa [Placeholder.raw_parse,String.toList_ofList]

theorem pieces_alternate {texts : List (List Char)} (hne : texts ≠ []) {segments : List Segment}
    (h : alternate texts = some segments) : pieces segments = texts := by
  fun_induction alternate texts generalizing segments with
  | case1 => exact absurd rfl hne
  | case2 text =>
    obtain rfl := Option.some.inj h
    cases text <;> simp [literals,pieces]
  | case3 => cases h
  | case4 text raw rest hrest ih =>
    obtain ⟨segments,hsegments,rfl⟩ := Option.map_eq_some_iff.mp h
    have hpieces := ih hrest hsegments
    cases text <;> simp [literals,pieces,hpieces,Placeholder.raw_parse]

theorem alternate_cons (text : List Char) (texts : List (List Char)) :
    alternate (text :: texts) = (alternate ([] :: texts)).map (literals text ++ ·) := by
  cases texts with
  | nil => simp [alternate,literals]
  | cons raw texts =>
    cases texts with
    | nil => rfl
    | cons next texts => simp [alternate,literals,Function.comp_def]

/-- Segments that start with no literal have an empty piece for it. -/
theorem exists_pieces_nil {segments : List Segment}
    (h : ∀ s ∈ segments.head?, ¬ s.IsLiteral) : ∃ rest, pieces segments = [] :: rest := by
  cases segments with
  | nil => exact ⟨[],rfl⟩
  | cons s segments =>
    cases s with
    | literal text => exact absurd rfl (h _ rfl)
    | placeholder p => exact ⟨_,rfl⟩

theorem Canonical.alternate_pieces {segments : List Segment} (h : Canonical segments) :
    alternate (pieces segments) = some segments := by
  induction segments with
  | nil => rfl
  | cons s segments ih =>
    have hs := h.proper s List.mem_cons_self
    have ih := ih h.tail
    cases s with
    | placeholder p =>
      have hp : Placeholder.parse (String.ofList p.raw.toList) = p := by
        rw [String.ofList_toList,← hs.2]
      rw [pieces,alternate,ih,Option.map_some,hp]
      · rfl
      · exact pieces_ne_nil segments
    | literal text =>
      have hhead : ∀ t ∈ segments.head?, ¬ t.IsLiteral := fun t ht hliteral =>
        (List.isChain_cons.mp h.apart).1 t ht ⟨rfl,hliteral⟩
      have htext : literals text.toList = [.literal text] := by
        rcases hcs : text.toList with _ | ⟨c,cs⟩
        · exact absurd (String.toList_eq_nil_iff.mp hcs) hs.1
        · rw [literals,← hcs,String.ofList_toList]
          exact List.cons_ne_nil c cs
      obtain ⟨rest,hrest⟩ := exists_pieces_nil hhead
      rw [hrest] at ih
      rw [pieces,hrest,List.modifyHead_cons,alternate_cons,List.append_nil,ih,Option.map_some,htext]
      rfl

theorem Canonical.not_mem_pieces {segments : List Segment} (h : Canonical segments) :
    ∀ piece ∈ pieces segments, delimiter ∉ piece := by
  induction segments with
  | nil => simp [pieces]
  | cons s segments ih =>
    have hs := h.proper s List.mem_cons_self
    have ih := ih h.tail
    cases s with
    | placeholder p =>
      exact List.forall_mem_cons.mpr ⟨List.not_mem_nil,List.forall_mem_cons.mpr ⟨hs.1,ih⟩⟩
    | literal text =>
      obtain ⟨first,rest,hpieces⟩ := exists_pieces segments
      rw [hpieces] at ih
      obtain ⟨hfirst,hrest⟩ := List.forall_mem_cons.mp ih
      rw [pieces,hpieces,List.modifyHead_cons]
      refine List.forall_mem_cons.mpr ⟨fun hmem => ?_,hrest⟩
      rcases List.mem_append.mp hmem with hmem | hmem
      · exact hs.2 hmem
      · exact hfirst hmem

theorem parse_eq_ok {source : String} {t : Template} : parse source = .ok t ↔
    t.source = source ∧ alternate (source.toList.splitOn delimiter) = some t.segments := by
  rw [parse]
  cases alternate (source.toList.splitOn delimiter) with
  | none => simp
  | some segments =>
    obtain ⟨source',segments'⟩ := t
    simp only [Except.ok.injEq,Template.mk.injEq,Option.some.injEq]
    exact and_congr_left' eq_comm

theorem exists_parse_iff_even (source : String) :
    (∃ t, parse source = .ok t) ↔ Even (source.toList.count delimiter) := by
  have hne : source.toList.splitOn delimiter ≠ [] := List.splitOn_ne_nil _ _
  rw [← Nat.not_odd_iff_even,← Nat.odd_add_one,← length_splitOn,← alternate_isSome hne]
  constructor
  · rintro ⟨t,ht⟩
    exact ⟨t.segments,(parse_eq_ok.mp ht).2⟩
  · rintro ⟨segments,hsegments⟩
    exact ⟨⟨source,segments⟩,parse_eq_ok.mpr ⟨rfl,hsegments⟩⟩

/-- Rules are cut into canonical segments that are rendered as the rule, exactly when their
delimiters are even in number; and canonical segments are what their rendering is cut into. -/
theorem parse_segmentation :
    (∀ source, (∃ t, parse source = .ok t) ↔ Even (source.toList.count delimiter)) ∧
    (∀ source t, parse source = .ok t →
      t.source = source ∧ t.render = source ∧ Canonical t.segments) ∧
    ∀ t : Template, Canonical t.segments → parse t.render = .ok { t with source := t.render } := by
  refine ⟨exists_parse_iff_even,fun source t ht => ?_,fun t ht => ?_⟩
  · obtain ⟨hsource,hsegments⟩ := parse_eq_ok.mp ht
    refine ⟨hsource,?_,.of_alternate (fun _ => not_mem_of_mem_splitOn) hsegments⟩
    apply String.toList_injective
    rw [toList_render,pieces_alternate (List.splitOn_ne_nil _ _) hsegments,
      List.intercalate_splitOn]
  · refine parse_eq_ok.mpr ⟨rfl,?_⟩
    rw [toList_render,List.splitOn_intercalate delimiter ht.not_mem_pieces (pieces_ne_nil _)]
    exact ht.alternate_pieces

/-- An empty placeholder, two placeholders in a row, and delimiters at both ends. -/
def garland : Template :=
  ⟨"##é#a.capitalize##b.s#",[.placeholder ⟨"",[],""⟩,.literal "é",
    .placeholder ⟨"a",[.capitalize],"a.capitalize"⟩,.placeholder ⟨"b.s",[],"b.s"⟩]⟩

theorem parse_segmentation_garland :
    parse "##é#a.capitalize##b.s#" = .ok garland ∧
    garland.render = "##é#a.capitalize##b.s#" ∧ Canonical garland.segments ∧
    parse garland.render = .ok { garland with source := garland.render } := by
  obtain ⟨-,hcut,hrendered⟩ := parse_segmentation
  have hparsed : parse "##é#a.capitalize##b.s#" = .ok garland := by decide +kernel
  obtain ⟨-,hrender,hcanonical⟩ := hcut _ _ hparsed
  exact ⟨hparsed,hrender,hcanonical,hrendered garland hcanonical⟩

end Template

end PhraseGrammar
