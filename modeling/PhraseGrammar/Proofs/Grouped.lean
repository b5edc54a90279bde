import PhraseGrammar.Proofs.Lists
import PhraseGrammar.Text.Grouped

/-! Numerals with points. Taking digits by threes from the last one on, and putting a point where
the digits still to come are a multiple of three, comes to the same. Each part has three digits but
the first, which may have fewer, and without its points the text is the numeral again. -/
namespace PhraseGrammar
namespace Grouped

variable {ds : List Char}

theorem digits_of_length_le (h : ds.length ≤ 3) : digits ds = ds := by
  have hseparate : ∀ cs : List Char, cs.length ≤ 3 → separate cs = cs := by
    intro cs hcs
    match cs with
    | [] | [_] | [_,_] | [_,_,_] => rfl
    | _ :: _ :: _ :: _ :: _ =>
      simp only [List.length_cons] at hcs
      omega
  rw [digits,hseparate ds.reverse (by rwa [List.length_reverse]),List.reverse_reverse]

theorem digits_append (h : ds ≠ []) (a b c : Char) :
    digits (ds ++ [a,b,c]) = digits ds ++ ['.',a,b,c] := by
  obtain ⟨d,rest,hreverse⟩ := List.exists_cons_of_ne_nil (List.reverse_ne_nil_iff.mpr h)
  simp [digits,hreverse,separate]

/-- A numeral is short, or it is another one with three more digits at its end. -/
theorem threes {motive : List Char → Prop} (short : ∀ ds, ds.length ≤ 3 → motive ds)
    (long : ∀ ds a b c, ds ≠ [] → motive ds → motive (ds ++ [a,b,c])) (ds : List Char) :
    motive ds := by
  induction hn : ds.length using Nat.strongRecOn generalizing ds with
  | ind n ih =>
    by_cases hshort : ds.length ≤ 3
    · exact short ds hshort
    · obtain ⟨a,b,c,hlast⟩ := List.length_eq_three.mp
        (show (ds.drop (ds.length - 3)).length = 3 by rw [List.length_drop]; omega)
      have hlen : (ds.take (ds.length - 3)).length = ds.length - 3 := by
        rw [List.length_take]
        omega
      have hne : ds.take (ds.length - 3) ≠ [] := by
        rw [← List.length_pos_iff,hlen]
        omega
      rw [← List.take_append_drop (ds.length - 3) ds,hlast]
      exact long _ a b c hne (ih _ (by omega) _ hlen)

/-- The digits from the first one on, with a point before one if a multiple of three digits are
still to come and it is not the first. -/
def pointed (ds : List Char) : List Char :=
  ds.zipIdx.flatMap fun p => if 0 < p.2 ∧ (ds.length - p.2) % 3 = 0 then ['.',p.1] else [p.1]

theorem pointed_append (h : ds ≠ []) (a b c : Char) :
    pointed (ds ++ [a,b,c]) = pointed ds ++ ['.',a,b,c] := by
  have hpos : 0 < ds.length := List.length_pos_iff.mpr h
  have hlen : (ds ++ [a,b,c]).length = ds.length + 3 := by simp
  rw [pointed,hlen,List.zipIdx_append,List.flatMap_append]
  congr 1
  · refine List.flatMap_congr fun p hp => ?_
    obtain ⟨-,hlt,-⟩ := List.mem_zipIdx hp
    have hmod : (ds.length + 3 - p.2) % 3 = (ds.length - p.2) % 3 := by omega
    rw [hmod]
  · have h0 : ds.length + 3 - ds.length = 3 := by omega
    have h1 : ds.length + 3 - (ds.length + 1) = 2 := by omega
    have h2 : ds.length + 3 - (ds.length + 1 + 1) = 1 := by omega
    simp [h0,h1,h2,hpos]

theorem pointed_eq (ds : List Char) : pointed ds = digits ds := by
  induction ds using threes with
  | short ds h =>
    rw [digits_of_length_le h]
    match ds with
    | [] | [_] | [_,_] | [_,_,_] => rfl
    | _ :: _ :: _ :: _ :: _ =>
      simp only [List.length_cons] at h
      omega
  | long ds a b c hne ih => rw [pointed_append hne,digits_append hne,ih]

theorem filter_digits (h : '.' ∉ ds) : (digits ds).filter (· ≠ '.') = ds := by
  have hkept {cs : List Char} (hcs : '.' ∉ cs) : cs.filter (· ≠ '.') = cs :=
    List.filter_eq_self.mpr fun c hc => decide_eq_true fun he => hcs (he ▸ hc)
  induction ds using threes with
  | short ds hle => rw [digits_of_length_le hle,hkept h]
  | long ds a b c hne ih =>
    rw [List.mem_append,not_or] at h
    rw [digits_append hne,List.filter_append,ih h.1,List.filter_cons_of_neg (by simp),hkept h.2]

theorem exists_parts (h : ds ≠ []) : ∃ (first : List Char) (rest : List (List Char)),
    digits ds = first ++ rest.flatMap ('.' :: ·) ∧ first ++ rest.flatten = ds ∧
    1 ≤ first.length ∧ first.length ≤ 3 ∧
    ∀ part ∈ rest, part.length = 3 := by
  induction ds using threes with
  | short ds hle =>
    have hpos : 0 < ds.length := List.length_pos_iff.mpr h
    exact ⟨ds,[],by simp [digits_of_length_le hle],by simp,hpos,hle,by simp⟩
  | long ds a b c hne ih =>
    obtain ⟨first,rest,hdigits,hds,hfirst,hlast,hrest⟩ := ih hne
    refine ⟨first,rest ++ [[a,b,c]],?_,by simp [← hds],hfirst,hlast,?_⟩
    · simp [digits_append hne,hdigits]
    · exact List.forall_mem_append.mpr ⟨hrest,by simp⟩

theorem splitOn_digits (h : ds ≠ []) (hpoint : '.' ∉ ds) :
    ∃ first rest, (digits ds).splitOn '.' = first :: rest ∧ first ++ rest.flatten = ds ∧
      1 ≤ first.length ∧ first.length ≤ 3 ∧ ∀ part ∈ rest, part.length = 3 := by
  obtain ⟨first,rest,hdigits,rfl,hparts⟩ := exists_parts h
  rw [List.mem_append,not_or,List.mem_flatten,not_exists] at hpoint
  refine ⟨first,rest,?_,rfl,hparts⟩
  rw [hdigits,splitOn_flatMap_cons hpoint.1 fun part hpart hmem => hpoint.2 part ⟨hpart,hmem⟩]

end Grouped

end PhraseGrammar
