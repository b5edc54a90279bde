import PhraseGrammar.Lint
import PhraseGrammar.Proofs.Graph.WellFormed

/-! The entries of a list that lint reports as repeated: those that stand in it at least twice, each
of them once, in the order in which they come for the second time. -/
namespace PhraseGrammar
namespace Lint

variable {rules reported : List String} {place : Nat} {rule : String}

/-- The list has an entry for the second time at this place. -/
def SecondAt (rules : List String) (place : Nat) (rule : String) : Prop :=
  rules[place]? = some rule ∧ (rules.take place).count rule = 1

/-- The entries that a list has at least twice, once each, in the order of their second places. -/
structure Repeated (rules reported : List String) : Prop where
  nodup : reported.Nodup
  mem_iff : ∀ rule, rule ∈ reported ↔ 2 ≤ rules.count rule
  ordered : ∃ places : List Nat, places.Pairwise (· < ·) ∧
    List.Forall₂ (SecondAt rules) places reported

theorem SecondAt.lt_length (h : SecondAt rules place rule) : place < rules.length :=
  (List.getElem?_eq_some_iff.mp h.1).1

theorem SecondAt.append (h : SecondAt rules place rule) (more : List String) :
    SecondAt (rules ++ more) place rule := by
  have hlt := h.lt_length
  rw [SecondAt,List.getElem?_append_left hlt,List.take_append_of_le_length (Nat.le_of_lt hlt)]
  exact h

theorem Repeated.eq_nil (h : Repeated rules reported) (hnodup : rules.Nodup) : reported = [] := by
  refine List.eq_nil_iff_forall_not_mem.mpr fun rule hmem => ?_
  have htwice := (h.mem_iff rule).mp hmem
  have honce := List.nodup_iff_count_le_one.mp hnodup rule
  omega

theorem go_concat (seen rules : List String) (rule : String) :
    repeats.go seen (rules ++ [rule]) =
      repeats.go seen rules ++ if rule ∈ seen ∨ rule ∈ rules then [rule] else [] := by
  induction rules generalizing seen with
  | nil => by_cases hseen : rule ∈ seen <;> simp [repeats.go,hseen]
  | cons first rules ih =>
    by_cases hseen : first ∈ seen
    · have hiff : (rule ∈ seen ∨ rule ∈ rules) ↔ (rule ∈ seen ∨ rule ∈ first :: rules) := by
        refine ⟨Or.imp_right (List.mem_cons_of_mem first),?_⟩
        rintro (h | h)
        · exact .inl h
        · exact (List.mem_cons.mp h).imp_left fun he : rule = first => he ▸ hseen
      simp only [List.cons_append,repeats.go,List.contains_iff_mem,if_pos hseen,ih,hiff]
    · have hiff : (rule ∈ first :: seen ∨ rule ∈ rules) ↔ (rule ∈ seen ∨ rule ∈ first :: rules) := by
        simp only [List.mem_cons]
        tauto
      simp only [List.cons_append,repeats.go,List.contains_iff_mem,if_neg hseen,ih,hiff]

theorem mem_go_iff : rule ∈ repeats.go [] rules ↔ 2 ≤ rules.count rule := by
  induction rules using List.reverseRecOn with
  | nil => simp [repeats.go]
  | append_singleton rules last ih =>
    have hpos : last ∈ rules ↔ 0 < rules.count last := List.count_pos_iff.symm
    rw [go_concat,List.mem_append,ih,count_concat]
    by_cases he : last = rule
    · subst he
      simp only [List.not_mem_nil,false_or,hpos,if_true]
      split
      · exact ⟨fun _ => by omega,fun _ => .inr List.mem_cons_self⟩
      · simp only [List.not_mem_nil,or_false]
        omega
    · rw [if_neg he,Nat.add_zero]
      refine or_iff_left ?_
      split
      · exact fun h => he (List.mem_singleton.mp h).symm
      · exact List.not_mem_nil

theorem repeats_concat (rules : List String) (rule : String) :
    repeats (rules ++ [rule]) =
      if rules.count rule = 1 then repeats rules ++ [rule] else repeats rules := by
  have hmem : rule ∈ repeats.go [] rules ↔ 2 ≤ rules.count rule := mem_go_iff
  have hpos : rule ∈ rules ↔ 0 < rules.count rule := List.count_pos_iff.symm
  have hsingle : [rule].eraseDups = [rule] := by simp [List.eraseDups_cons]
  simp only [repeats,go_concat,List.not_mem_nil,false_or,hpos]
  by_cases hone : rules.count rule = 1
  · have hnew : rule ∉ repeats.go [] rules := by
      rw [hmem]
      omega
    simp [hone,List.eraseDups_append,List.removeAll,hnew,hsingle]
  · by_cases hnone : rules.count rule = 0
    · simp [hnone]
    · have hold : rule ∈ repeats.go [] rules := hmem.mpr (by omega)
      simp [hone,Nat.pos_of_ne_zero hnone,List.eraseDups_append,List.removeAll,hold]

theorem Repeated.concat (h : Repeated rules reported) (hone : rules.count rule = 1) :
    Repeated (rules ++ [rule]) (reported ++ [rule]) := by
  obtain ⟨places,hplaces,hseconds⟩ := h.ordered
  have hnew : rule ∉ reported := by
    rw [h.mem_iff]
    omega
  refine ⟨?_,fun other => ?_,places ++ [rules.length],?_,?_⟩
  · exact List.nodup_append.mpr ⟨h.nodup,List.nodup_singleton rule,fun old hold last hlast he =>
      hnew (List.mem_singleton.mp hlast ▸ he ▸ hold)⟩
  · rw [List.mem_append,List.mem_singleton,h.mem_iff,count_concat]
    by_cases he : rule = other
    · simp [← he,hone]
    · have hne : ¬ other = rule := fun h => he h.symm
      simp [he,hne]
  · refine List.pairwise_append.mpr ⟨hplaces,List.pairwise_singleton _ _,fun place hp last hl => ?_⟩
    obtain ⟨other,-,hsecond⟩ := forall₂_exists hseconds hp
    exact List.mem_singleton.mp hl ▸ hsecond.lt_length
  · have hlast : SecondAt (rules ++ [rule]) rules.length rule := by simp [SecondAt,hone]
    exact List.rel_append (hseconds.imp fun _ _ hs => hs.append [rule]) (.cons hlast .nil)

theorem Repeated.skip (h : Repeated rules reported) (hone : rules.count rule ≠ 1) :
    Repeated (rules ++ [rule]) reported := by
  obtain ⟨places,hplaces,hseconds⟩ := h.ordered
  refine ⟨h.nodup,fun other => ?_,places,hplaces,hseconds.imp fun _ _ hs => hs.append [rule]⟩
  rw [h.mem_iff,count_concat]
  by_cases he : rule = other
  · subst he
    simp only [if_true]
    omega
  · simp [he]

theorem repeated_repeats (rules : List String) : Repeated rules (repeats rules) := by
  -- From the end, since what is reported of an entry depends on the entries before it.
  induction rules using List.reverseRecOn with
  | nil => exact ⟨List.nodup_nil,by simp [repeats,repeats.go],[],.nil,.nil⟩
  | append_singleton rules rule ih =>
    rw [repeats_concat]
    split
    · exact ih.concat ‹_›
    · exact ih.skip ‹_›

end Lint

end PhraseGrammar
