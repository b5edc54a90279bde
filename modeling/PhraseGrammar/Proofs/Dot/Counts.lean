import PhraseGrammar.Proofs.Dot.Edges
import PhraseGrammar.Proofs.Grouped

/-! Counts in a drawing. A count is written with points and can be read back without them; it has no
space, so that a label of a name and a count is cut at its last space into these, whatever the name
is and also where the label is quoted. -/
namespace PhraseGrammar

theorem toList_grouped (n : Nat) :
    (grouped n).toList = Grouped.digits (Nat.toDigits 10 n) := by
  rw [grouped,String.toList_ofList]

theorem filter_grouped (n : Nat) : (grouped n).toList.filter (· ≠ '.') = Nat.toDigits 10 n := by
  rw [toList_grouped,Grouped.filter_digits (Dot.notMem_digits rfl n)]

theorem grouped_injective : Function.Injective grouped := by
  intro n m h
  rw [← Dot.digits_inj,← filter_grouped,← filter_grouped,h]

theorem eq_point_or_isDigit {c : Char} {n : Nat} (h : c ∈ (grouped n).toList) :
    c = '.' ∨ c.isDigit = true := by
  by_cases hpoint : c = '.'
  · exact .inl hpoint
  · have hmem : c ∈ (grouped n).toList.filter (· ≠ '.') :=
      List.mem_filter.mpr ⟨h,decide_eq_true hpoint⟩
    rw [filter_grouped] at hmem
    exact .inr (Nat.isDigit_of_mem_toDigits (by decide) (by decide) hmem)

theorem space_notMem_grouped (n : Nat) : ' ' ∉ (grouped n).toList := by
  intro h
  rcases eq_point_or_isDigit h with h | h <;> cases h

namespace Dot

theorem flatMap_escape_grouped (n : Nat) :
    (grouped n).toList.flatMap escape = (grouped n).toList := by
  have hescape : ∀ c ∈ (grouped n).toList, escape c = [c] := by
    intro c hc
    rcases eq_point_or_isDigit hc with rfl | hdigit
    · rfl
    · have hne {d : Char} (hd : d.isDigit = false) : c ≠ d := fun he => by
        rw [he,hd] at hdigit
        cases hdigit
      rw [escape,if_neg (hne rfl),if_neg (hne rfl),if_neg (hne rfl)]
  rw [List.flatMap_congr hescape,List.flatMap_singleton']

/-- What stands before and after the last space of a text. -/
def CutAtLastSpace (text before after : List Char) : Prop :=
  text = before ++ ' ' :: after ∧ ' ' ∉ after

theorem cutAtLastSpace_append {name count before after : List Char} (h : ' ' ∉ count) :
    CutAtLastSpace (name ++ ' ' :: count) before after ↔ before = name ∧ after = count := by
  constructor
  · rintro ⟨he,hafter⟩
    have hreverse := congrArg List.reverse he
    simp only [List.reverse_append,List.reverse_cons,List.append_assoc,List.singleton_append]
      at hreverse
    obtain ⟨hcount,hname⟩ := append_cons_inj (mt List.mem_reverse.mp h)
      (mt List.mem_reverse.mp hafter) hreverse
    exact ⟨(List.reverse_injective hname).symm,(List.reverse_injective hcount).symm⟩
  · rintro ⟨rfl,rfl⟩
    exact ⟨rfl,h⟩

/-- The text is a name, a space and a count. These are what it is cut into at its last space, and so
is the quoted body of its label, in which only the name may have escapes. -/
structure ShowsCount (text name : String) (count : Nat) : Prop where
  eq : text = name ++ " " ++ grouped count
  cut : ∀ before after, CutAtLastSpace text.toList before after ↔
    before = name.toList ∧ after = (grouped count).toList
  quoted : ∃ body, (label text).toList = "label=\"".toList ++ body ++ ['"'] ∧
    ∀ before after, CutAtLastSpace body before after ↔
      before = name.toList.flatMap escape ∧ after = (grouped count).toList

theorem showsCount_withCount (name : String) (count : Nat) :
    ShowsCount (withCount name count) name count where
  eq := rfl
  cut before after := by
    have hchars : (withCount name count).toList = name.toList ++ ' ' :: (grouped count).toList := by
      simp [withCount]
    rw [hchars]
    exact cutAtLastSpace_append (space_notMem_grouped count)
  quoted := by
    refine ⟨(withCount name count).toList.flatMap escape,by simp [toList_label],fun _ _ => ?_⟩
    have hbody : (withCount name count).toList.flatMap escape =
        name.toList.flatMap escape ++ ' ' :: (grouped count).toList := by
      rw [withCount,String.toList_append,String.toList_append,List.flatMap_append,
        List.flatMap_append,flatMap_escape_grouped,List.append_assoc]
      rfl
    rw [hbody]
    exact cutAtLastSpace_append (space_notMem_grouped count)

/-- The statement shows what has been counted: the name of a group with its total, and the source of
a rule with its count, which is left out if it is one. -/
def Statement.Counted (g : Graph) (t : Tally) : Statement → Prop
  | group id text | cluster id text _ => ShowsCount text (g.group id).name (t.total id)
  | rule id index text => ∃ rule, (g.group id).rules[index]? = some rule ∧
      if (t.counts id).getD index 0 = 1 then text = rule.source
      else ShowsCount text rule.source ((t.counts id).getD index 0)
  | compound | leftToRight | blank | groupEdge _ _ | ruleEdge _ _ _ => True

theorem counted_groupStatements (g : Graph) (t : Tally) :
    ∀ s ∈ groupStatements g (some t), s.Counted g t := by
  simp only [groupStatements,groups_eq,List.forall_mem_append,List.forall_mem_singleton,
    List.map_map,List.flatMap_map,List.forall_mem_map]
  refine ⟨⟨fun id _ => showsCount_withCount _ _,trivial⟩,fun s hs => ?_⟩
  obtain ⟨id,-,hs⟩ := List.mem_flatMap.mp hs
  obtain ⟨target,-,rfl⟩ := List.mem_map.mp hs
  trivial

theorem counted_ruleStatements (g : Graph) (t : Tally) :
    ∀ s ∈ ruleStatements g (some t), s.Counted g t := by
  simp only [ruleStatements,groups_eq,List.forall_mem_append,List.forall_mem_singleton,
    List.map_map,List.flatMap_map,List.forall_mem_map]
  refine ⟨⟨⟨⟨fun s hs => ?_,trivial⟩,fun id _ => showsCount_withCount _ _⟩,trivial⟩,fun s hs => ?_⟩
  · obtain ⟨id,-,hs⟩ := List.mem_flatMap.mp hs
    obtain ⟨⟨index,rule⟩,hrule,rfl⟩ := List.mem_map.mp hs
    refine ⟨rule,mem_rulesOf.mp hrule,?_⟩
    rw [ruleLabel]
    split
    · rfl
    · exact showsCount_withCount _ _
  · obtain ⟨id,-,hs⟩ := List.mem_flatMap.mp hs
    obtain ⟨⟨index,rule⟩,-,hs⟩ := List.mem_flatMap.mp hs
    obtain ⟨target,-,rfl⟩ := List.mem_map.mp hs
    trivial

theorem counted_statements {g : Graph} {t : Tally} {style : Style} (h : style.counted = true) :
    ∀ s ∈ statements g style (some t), s.Counted g t := by
  cases style with
  | plain => cases h
  | short => exact List.forall_mem_cons.mpr ⟨trivial,counted_groupStatements g t⟩
  | long =>
    exact List.forall_mem_cons.mpr
      ⟨trivial,List.forall_mem_cons.mpr ⟨trivial,counted_ruleStatements g t⟩⟩

/-- No count is lost. Without its points it is the numeral, each part between points has three
digits, but the first may have fewer, and the points are where they are put from the front; so
different counts are written in different ways. In the styles that show counts, each label can be
cut at its last space into a name and its count. -/
theorem counts_lossless :
    (∀ n, (grouped n).toList.filter (· ≠ '.') = (toString n).toList) ∧
    (∀ n, ∃ first rest, (grouped n).toList.splitOn '.' = first :: rest ∧
      1 ≤ first.length ∧ first.length ≤ 3 ∧ ∀ part ∈ rest, part.length = 3) ∧
    (∀ n, (grouped n).toList = Grouped.pointed (toString n).toList) ∧
    Function.Injective grouped ∧
    ∀ (g : Graph) (t : Tally) (style : Style), style.counted = true →
      ∀ s ∈ statements g style (some t), s.Counted g t := by
  refine ⟨fun n => ?numeral,fun n => ?parts,fun n => ?front,grouped_injective,
    fun _ _ _ => counted_statements⟩
  case numeral => rw [filter_grouped,Nat.toString_eq_repr,Nat.toList_repr]
  case parts =>
    obtain ⟨first,rest,hsplit,-,hparts⟩ :=
      Grouped.splitOn_digits Nat.toDigits_ne_nil (notMem_digits (c := '.') rfl n)
    exact ⟨first,rest,toList_grouped n ▸ hsplit,hparts⟩
  case front => rw [toList_grouped,Nat.toString_eq_repr,Nat.toList_repr,Grouped.pointed_eq]

/-- The name of its first group looks as if it had a count. -/
def hotel : Graph :=
  ((Graph.empty.declare "room \"9\" 9.999" ["#d##d##d##d#"]).2.declare "d"
    ["0","1","2","3","4","5","6","7","8","9"]).2

theorem counts_lossless_hotel :
    (grouped 10000).toList.filter (· ≠ '.') = "10000".toList ∧
    .group 0 "room \"9\" 9.999 10.000" ∈ statements hotel .short (some hotel.tally) ∧
    ShowsCount "room \"9\" 9.999 10.000" "room \"9\" 9.999" 10000 ∧
    .rule 1 9 "9" ∈ statements hotel .long (some hotel.tally) ∧
    (hotel.group 1).rules[9]?.map Rule.source = some "9" := by
  obtain ⟨hnumeral,-,-,-,hcounted⟩ := counts_lossless
  have hgroup : .group 0 "room \"9\" 9.999 10.000" ∈
      statements hotel .short (some hotel.tally) := by decide +kernel
  have hrule : .rule 1 9 "9" ∈ statements hotel .long (some hotel.tally) := by decide +kernel
  have hname : (hotel.group 0).name = "room \"9\" 9.999" := by decide +kernel
  have htotal : hotel.tally.total 0 = 10000 := by decide +kernel
  have hone : (hotel.tally.counts 1).getD 9 0 = 1 := by decide +kernel
  have hshown := hcounted hotel hotel.tally .short rfl _ hgroup
  rw [Statement.Counted,hname,htotal] at hshown
  obtain ⟨rule,hget,hlabel⟩ := hcounted hotel hotel.tally .long rfl _ hrule
  rw [if_pos hone] at hlabel
  exact ⟨hnumeral 10000,hgroup,hshown,hrule,by rw [hget,Option.map_some,← hlabel]⟩

end Dot

end PhraseGrammar
