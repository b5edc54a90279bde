import Mathlib.Data.List.DropRight
import Mathlib.Data.List.Induction
import PhraseGrammar.Path
import PhraseGrammar.Proofs.Segmentation

/-! A path that ends in a file name, taken apart and put together again. Parts at the end of its
directory that lead nowhere are lost on the way; all other parts are kept. -/
namespace PhraseGrammar
namespace Path

variable {path : String} {front : List (List Char)} {name : List Char}

theorem slash_notMem_parts {part : List Char} (h : part ∈ parts path) : '/' ∉ part :=
  not_mem_of_mem_splitOn h

theorem slash_notMem_front (hparts : parts path = front ++ [name]) : ∀ p ∈ front, '/' ∉ p :=
  fun _ hp => slash_notMem_parts (hparts ▸ List.mem_append_left _ hp)

theorem slash_notMem_name (hparts : parts path = front ++ [name]) : '/' ∉ name :=
  slash_notMem_parts (hparts ▸ List.mem_append_right _ List.mem_cons_self)

theorem ofParts_parts (path : String) : ofParts (parts path) = path := by
  rw [ofParts,parts,List.intercalate_splitOn,String.ofList_toList]

theorem parts_ofParts {ps : List (List Char)} (hps : ps ≠ []) (hslash : ∀ p ∈ ps, '/' ∉ p) :
    parts (ofParts ps) = ps := by
  rw [parts,ofParts,String.toList_ofList]
  exact List.splitOn_intercalate _ hslash hps

theorem toList_ofParts_concat {ps : List (List Char)} (hps : ps ≠ []) (p : List Char) :
    (ofParts (ps ++ [p])).toList = (ofParts ps).toList ++ '/' :: p := by
  simp only [ofParts,String.toList_ofList]
  induction ps with
  | nil => exact absurd rfl hps
  | cons q ps ih =>
    cases ps with
    | nil => simp [List.intercalate_cons_cons]
    | cons r ps =>
      rw [List.cons_append,List.cons_append,List.intercalate_cons_cons,← List.cons_append,
        ih (List.cons_ne_nil r ps),List.intercalate_cons_cons]
      simp only [List.append_assoc]

theorem suffix_ofParts_concat (ps : List (List Char)) (p : List Char) :
    p <:+ (ofParts (ps ++ [p])).toList := by
  by_cases hps : ps = []
  · simp [hps,ofParts]
  · rw [toList_ofParts_concat hps]
    exact (List.suffix_cons '/' p).trans (List.suffix_append _ _)

theorem head?_ofParts {first : List Char} (hfirst : '/' ∉ first) (rest : List (List Char)) :
    (ofParts (first :: rest)).toList.head? = some '/' ↔ first = [] ∧ rest ≠ [] := by
  rw [ofParts,String.toList_ofList]
  cases first with
  | nil => cases rest <;> simp [List.intercalate_cons_cons]
  | cons c cs =>
    have hc : c ≠ '/' := fun he => hfirst (he ▸ List.mem_cons_self)
    cases rest <;> simp [List.intercalate_cons_cons,hc]

theorem head?_eq_slash_iff (hparts : parts path = front ++ [name]) :
    path.toList.head? = some '/' ↔ front.head? = some [] := by
  rw [← ofParts_parts path,hparts]
  cases front with
  | nil => exact (head?_ofParts (slash_notMem_name hparts) []).trans (by simp)
  | cons first inner =>
    rw [List.cons_append,head?_ofParts (slash_notMem_front hparts first List.mem_cons_self)]
    simp

/-- The parts of a directory without those at its end that lead nowhere. -/
def trim : List (List Char) → List (List Char)
  | [] => []
  | first :: inner => first :: inner.rdropWhile idle

@[simp] theorem trim_trim (front : List (List Char)) : trim (trim front) = trim front := by
  cases front with
  | nil => rfl
  | cons first inner => simp [trim,List.rdropWhile_idempotent]

@[simp] theorem head?_trim (front : List (List Char)) : (trim front).head? = front.head? := by
  cases front <;> rfl

theorem trim_subset (front : List (List Char)) : trim front ⊆ front := by
  cases front with
  | nil => exact List.Subset.refl []
  | cons first inner => exact List.cons_subset_cons _ (List.rdropWhile_prefix _ _).subset

/-- What is left of a directory is nothing, the top or ends in a part that is not empty. -/
theorem trim_cases (front : List (List Char)) : trim front = [] ∨ trim front = [[]] ∨
    ∃ before last, trim front = before ++ [last] ∧ last ≠ [] := by
  cases front with
  | nil => exact .inl rfl
  | cons first inner =>
    rw [trim]
    cases hinner : inner.rdropWhile idle using List.reverseRecOn with
    | nil =>
      by_cases hfirst : first = []
      · exact .inr (.inl (by rw [hfirst]))
      · exact .inr (.inr ⟨[],first,rfl,hfirst⟩)
    | append_singleton before last =>
      refine .inr (.inr ⟨first :: before,last,rfl,?_⟩)
      rintro rfl
      have hlast := List.rdropWhile_last_not idle inner (by simp [hinner])
      simp [hinner,idle] at hlast

/-- The text of a directory; only the top has a slash at its end. -/
def text (dir : List (List Char)) : String := if dir = [[]] then "/" else ofParts dir

theorem join_text (hfront : ∀ p ∈ front, '/' ∉ p) (hname : '/' ∉ name) :
    join (text (trim front)) (String.ofList name) = ofParts (trim front ++ [name]) := by
  have hhead : ¬ (String.ofList name).toList.head? = some '/' := by
    rw [String.toList_ofList]
    exact fun h => hname (List.mem_of_head? h)
  rw [join,if_neg hhead]
  rcases trim_cases front with h | h | ⟨before,last,h,hlast⟩
  · simp [h,text,ofParts]
  · simp [h,text,ofParts]
  · have hend : '/' ∉ last := hfront last (trim_subset front (by simp [h]))
    have htop : trim front ≠ [[]] := by
      rw [h]
      cases before <;> simp [hlast]
    obtain ⟨start,hstart⟩ := suffix_ofParts_concat before last
    have hslash : ¬ ((ofParts (trim front)).toList = [] ∨
        (ofParts (trim front)).toList.getLast? = some '/') := by
      rw [h,← hstart,List.getLast?_append_of_ne_nil _ hlast]
      rintro (he | he)
      · exact hlast (List.append_eq_nil_iff.mp he).2
      · exact hend (List.mem_of_getLast? he)
    rw [text,if_neg htop,if_neg (by simpa using hslash),← String.toList_inj,
      toList_ofParts_concat (by simp [h])]
    simp

/-- A last part that is the name of a file. -/
structure Proper (name : List Char) : Prop where
  not_idle : ¬ idle name = true
  ne_above : name ≠ ['.','.']

theorem Proper.ne_nil (h : Proper name) : name ≠ [] := by
  rintro rfl
  exact h.not_idle rfl

theorem split?_of_parts (hparts : parts path = front ++ [name]) (hname : Proper name) :
    split? path = some (text (trim front),name) := by
  rw [split?,hparts]
  cases front with
  | nil =>
    simp only [List.nil_append,List.reverse_nil,List.dropWhile_nil,hname.not_idle,
      hname.ne_above]
    rfl
  | cons first inner =>
    have hlast : (inner ++ [name]).reverse.dropWhile idle = name :: inner.reverse := by
      rw [List.reverse_append,List.reverse_singleton,List.singleton_append,
        List.dropWhile_cons_of_neg hname.not_idle]
    simp only [List.cons_append,hlast,if_neg hname.ne_above]
    rfl

theorem splitName_cases (name : List Char) : splitName name = (name,none) ∨
    ∃ stem extension, splitName name = (stem,some extension) ∧
      name = stem ++ '.' :: extension := by
  rw [splitName]
  split
  · exact .inl rfl
  · exact .inl rfl
  · rename_i dot before _ hdrop
    have hdot : dot = '.' := by
      have hhead := List.head_dropWhile_not (l:=name.reverse) (· != '.') (by simp [hdrop])
      simpa [hdrop] using hhead
    have hname := List.takeWhile_append_dropWhile (p:=(· != '.')) (l:=name.reverse)
    rw [hdrop,hdot] at hname
    refine .inr ⟨_,_,rfl,?_⟩
    simpa using (congrArg List.reverse hname).symm

theorem splitName_append {stem extension : List Char} (hstem : stem ≠ [])
    (hextension : '.' ∉ extension) :
    splitName (stem ++ '.' :: extension) = (stem,some extension) := by
  obtain ⟨before,c,rfl⟩ := (List.eq_nil_or_concat' stem).resolve_left hstem
  have hall : ∀ a ∈ extension.reverse, (a != '.') = true := by
    intro a ha
    rw [bne_iff_ne]
    rintro rfl
    exact hextension (List.mem_reverse.mp ha)
  rw [splitName]
  simp [List.dropWhile_append_of_pos hall,List.takeWhile_append_of_pos hall]

def preparedName (name : List Char) : List Char := (splitName name).1 ++ "_prepared.json".toList

theorem preparedName_ne (name : List Char) : preparedName name ≠ name := by
  rw [preparedName]
  rcases splitName_cases name with h | ⟨stem,extension,h,hname⟩
  · rw [h]
    exact fun he => absurd (List.self_eq_append_right.mp he.symm) (by decide)
  · rw [h,hname]
    intro he
    exact absurd (List.cons.inj (List.append_cancel_left he)).1 (by decide)

theorem preparedName_eq (name : List Char) :
    preparedName name = ((splitName name).1 ++ "_prepared".toList) ++ '.' :: "json".toList := by
  rw [preparedName,List.append_assoc]
  rfl

theorem splitName_preparedName (name : List Char) : splitName (preparedName name) =
    ((splitName name).1 ++ "_prepared".toList,some "json".toList) := by
  rw [preparedName_eq]
  exact splitName_append (by simp) (by decide)

theorem slash_notMem_preparedName (h : '/' ∉ name) : '/' ∉ preparedName name := by
  have hstem : '/' ∉ (splitName name).1 := by
    rcases splitName_cases name with hs | ⟨stem,extension,hs,hname⟩
    · rwa [hs]
    · rw [hs]
      exact fun hmem => h (hname ▸ List.mem_append_left _ hmem)
  rw [preparedName,List.mem_append]
  rintro (hmem | hmem)
  · exact hstem hmem
  · exact absurd hmem (by decide)

theorem proper_preparedName (name : List Char) : Proper (preparedName name) := by
  have hlength : 2 < (preparedName name).length := by
    rw [preparedName,List.length_append]
    exact Nat.lt_add_left _ (by decide)
  constructor
  · intro h
    rw [idle,Bool.or_eq_true,decide_eq_true_iff,decide_eq_true_iff] at h
    rcases h with h | h <;> simp [h] at hlength
  · intro h
    simp [h] at hlength

theorem prepared_eq (hparts : parts path = front ++ [name]) (hname : Proper name) :
    prepared path = ofParts (trim front ++ [preparedName name]) := by
  rw [prepared,directory,stem,fileName?,split?_of_parts hparts hname]
  exact join_text (slash_notMem_front hparts)
    (slash_notMem_preparedName (slash_notMem_name hparts))

theorem parts_prepared (hparts : parts path = front ++ [name]) (hname : Proper name) :
    parts (prepared path) = trim front ++ [preparedName name] := by
  rw [prepared_eq hparts hname,parts_ofParts (by simp)]
  intro p hp
  rcases List.mem_append.mp hp with hp | hp
  · exact slash_notMem_front hparts p (trim_subset front hp)
  · obtain rfl := List.mem_singleton.mp hp
    exact slash_notMem_preparedName (slash_notMem_name hparts)

theorem split?_prepared (hparts : parts path = front ++ [name]) (hname : Proper name) :
    split? (prepared path) = some (text (trim front),preparedName name) := by
  rw [split?_of_parts (parts_prepared hparts hname) (proper_preparedName name),trim_trim]

end Path

end PhraseGrammar
