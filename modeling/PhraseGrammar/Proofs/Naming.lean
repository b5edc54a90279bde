import Mathlib.Data.Nat.PSub
import PhraseGrammar.Naming
import PhraseGrammar.Proofs.Lists

/-! Names put together again from their parts, and parts found again in a name. No determiner's
beginning begins another one's and no gender's ending ends the other one's, so what is found at the
ends of a name does not depend on what its base looks like. -/
namespace PhraseGrammar

/-- The string from a position on that counts bytes and has to lie between two characters. -/
def sliceFrom? (s : String) (bytes : Nat) : Option String :=
  if h : (⟨bytes⟩ : String.Pos.Raw).IsValid s then some (s.sliceFrom (s.pos ⟨bytes⟩ h)).copy
  else none

def sliceTo? (s : String) (bytes : Nat) : Option String :=
  if h : (⟨bytes⟩ : String.Pos.Raw).IsValid s then some (s.sliceTo (s.pos ⟨bytes⟩ h)).copy
  else none

theorem isValid_append (s t : String) :
    (⟨s.utf8ByteSize⟩ : String.Pos.Raw).IsValid (s ++ t) :=
  String.Pos.Raw.isValid_iff_exists_append.mpr ⟨s,t,rfl,rfl⟩

theorem sliceFrom?_append (s t : String) : sliceFrom? (s ++ t) s.utf8ByteSize = some t := by
  rw [sliceFrom?,dif_pos (isValid_append s t)]
  exact congrArg some String.Pos.splits_append_rawEndPos.copy_sliceFrom_eq

theorem sliceTo?_append (s t : String) : sliceTo? (s ++ t) s.utf8ByteSize = some s := by
  rw [sliceTo?,dif_pos (isValid_append s t)]
  exact congrArg some String.Pos.splits_append_rawEndPos.copy_sliceTo_eq

namespace SymbolName

def before : Option Determiner → List Char
  | some d => d.tag.toList ++ ['_']
  | none => []

def after : Option Gender → List Char
  | some gender => '_' :: gender.tag.toList
  | none => []

/-- The name that the parts are written as. -/
def spell (n : SymbolName) : String :=
  String.ofList (before n.determiner ++ n.base.toList ++ after n.gender)

theorem splitDeterminer_append (name : List Char) :
    before (splitDeterminer name).1 ++ (splitDeterminer name).2 = name := by
  unfold splitDeterminer
  cases hf : Determiner.all.findSome? (afterDeterminer? name) with
  | none => rfl
  | some found =>
    obtain ⟨d,-,hd⟩ := List.exists_of_findSome?_eq_some hf
    obtain ⟨rest,hrest,rfl⟩ := Option.map_eq_some_iff.mp hd
    exact List.append_eq_of_isPrefixOf?_eq_some hrest

theorem splitGender_append (name : List Char) :
    (splitGender name).1 ++ after (splitGender name).2 = name := by
  unfold splitGender
  cases hf : Gender.all.findSome? (beforeGender? name) with
  | none => exact List.append_nil name
  | some found =>
    obtain ⟨gender,-,hg⟩ := List.exists_of_findSome?_eq_some hf
    obtain ⟨rest,hrest,rfl⟩ := Option.map_eq_some_iff.mp hg
    exact List.append_eq_of_isSuffixOf?_eq_some hrest

@[simp] theorem spell_parse (name : String) : (parse name).spell = name := by
  have hrest := splitGender_append (splitDeterminer name.toList).2
  have hname := splitDeterminer_append name.toList
  rw [← hrest,← List.append_assoc] at hname
  have hspell : (parse name).spell = String.ofList (before (splitDeterminer name.toList).1 ++
      (splitGender (splitDeterminer name.toList).2).1 ++
      after (splitGender (splitDeterminer name.toList).2).2) := by
    rw [spell,parse]
    simp only [String.toList_ofList]
  rw [hspell,hname,String.ofList_toList]

/-- No determiner's tag, with its underscore, begins another one's. -/
theorem splitDeterminer_before (d : Determiner) (rest : List Char) :
    splitDeterminer (before (some d) ++ rest) = (some d,rest) := by
  cases d <;> rfl

theorem splitGender_after (base : List Char) (gender : Gender) :
    splitGender (base ++ after (some gender)) = (base,some gender) := by
  have hown : beforeGender? (base ++ after (some gender)) gender = some (base,gender) :=
    Option.map_eq_some_iff.mpr ⟨base,List.isSuffixOf?_eq_some_iff_append_eq.mpr rfl,rfl⟩
  cases gender with
  | masc => simp only [splitGender,Gender.all,List.findSome?_cons,hown]
  | fem =>
    have hmasc : beforeGender? (base ++ after (some .fem)) .masc = none := by
      rw [beforeGender?,Option.map_eq_none_iff,Option.eq_none_iff_forall_ne_some]
      intro rest h
      have hlast := congrArg List.getLast? (List.append_eq_of_isSuffixOf?_eq_some h)
      simp [after,Gender.tag] at hlast
    simp only [splitGender,Gender.all,List.findSome?_cons,hmasc,hown]

@[simp] theorem parse_spell (d : Determiner) (base : String) (gender : Gender) :
    parse (spell ⟨some d,base,some gender⟩) = ⟨some d,base,some gender⟩ := by
  rw [parse,spell,String.toList_ofList,List.append_assoc,splitDeterminer_before]
  simp only [splitGender_after,String.ofList_toList]

theorem splitDeterminer_fst {name : List Char} {d : Determiner} :
    (splitDeterminer name).1 = some d ↔ before (some d) <+: name := by
  constructor
  · intro h
    refine ⟨(splitDeterminer name).2,?_⟩
    rw [← h,splitDeterminer_append]
  · rintro ⟨rest,rfl⟩
    rw [splitDeterminer_before]

theorem splitGender_snd {name : List Char} {gender : Gender} :
    (splitGender name).2 = some gender ↔ after (some gender) <:+ name := by
  constructor
  · intro h
    refine ⟨(splitGender name).1,?_⟩
    rw [← h,splitGender_append]
  · rintro ⟨base,rfl⟩
    rw [splitGender_after]

theorem splitDeterminer_snd {name rest : List Char}
    (h : name = before (splitDeterminer name).1 ++ rest) : (splitDeterminer name).2 = rest :=
  List.append_cancel_left ((splitDeterminer_append name).trans h)

/-- The name begins with the tag and then has an underscore. -/
def begins (name : String) (d : Determiner) : Bool :=
  (List.isPrefixOf? d.tag.toList name.toList).any fun rest => rest.head? == some '_'

/-- The string ends with the tag and has an underscore before it. -/
def ends (s : String) (gender : Gender) : Bool :=
  (List.isSuffixOf? gender.tag.toList s.toList).any fun rest => rest.getLast? == some '_'

/-- Takes the tag and its underscore off by a slice. -/
def sliceDeterminer? (name : String) : Option (Option Determiner × String) :=
  match Determiner.all.find? (begins name) with
  | some d => (sliceFrom? name (d.tag.utf8ByteSize + 1)).map (some d,·)
  | none => some (none,name)

def sliceGender? (s : String) : Option (String × Option Gender) :=
  match Gender.all.find? (ends s) with
  | some gender => do
    let length ← s.utf8ByteSize.psub gender.tag.utf8ByteSize
    let base ← sliceTo? s (← length.psub 1)
    return (base,some gender)
  | none => some (s,none)

/-- A name taken apart by slices. It is lost when a position is below zero or no position of the
string. -/
def parseSlicing? (name : String) : Option SymbolName := do
  let (determiner,rest) ← sliceDeterminer? name
  let (base,gender) ← sliceGender? rest
  return ⟨determiner,base,gender⟩

theorem begins_iff {name : String} {d : Determiner} :
    begins name d = true ↔ before (some d) <+: name.toList := by
  simp only [begins,Option.any_eq_true,List.isPrefixOf?_eq_some_iff_append_eq,beq_iff_eq,
    List.head?_eq_some_iff]
  constructor
  · rintro ⟨_,hname,rest,rfl⟩
    exact ⟨rest,by rw [← hname,before,List.append_assoc,List.singleton_append]⟩
  · rintro ⟨rest,hrest⟩
    exact ⟨'_' :: rest,by rw [← hrest,before,List.append_assoc,List.singleton_append],rest,rfl⟩

theorem ends_iff {s : String} {gender : Gender} :
    ends s gender = true ↔ after (some gender) <:+ s.toList := by
  simp only [ends,Option.any_eq_true,List.isSuffixOf?_eq_some_iff_append_eq,beq_iff_eq,
    List.getLast?_eq_some_iff]
  constructor
  · rintro ⟨_,hs,base,rfl⟩
    exact ⟨base,by rw [← hs,after,List.append_assoc,List.singleton_append]⟩
  · rintro ⟨base,hbase⟩
    exact ⟨base ++ ['_'],by rw [← hbase,after,List.append_assoc,List.singleton_append],base,rfl⟩

theorem sliceDeterminer?_eq (name : String) : sliceDeterminer? name =
    some ((splitDeterminer name.toList).1,String.ofList (splitDeterminer name.toList).2) := by
  have hfind : Determiner.all.find? (begins name) = (splitDeterminer name.toList).1 :=
    find?_eq (fun d => by cases d <;> decide)
      fun d => begins_iff.trans splitDeterminer_fst.symm
  have happend := splitDeterminer_append name.toList
  rw [sliceDeterminer?,hfind]
  generalize splitDeterminer name.toList = found at happend ⊢
  obtain ⟨_ | d,rest⟩ := found
  · obtain rfl : rest = name.toList := happend
    simp
  · have hname : name = d.tag ++ "_" ++ String.ofList rest :=
      String.toList_injective (by simpa [before] using happend.symm)
    have hbytes : (d.tag ++ "_").utf8ByteSize = d.tag.utf8ByteSize + 1 :=
      String.utf8ByteSize_append
    have hslice : sliceFrom? name (d.tag.utf8ByteSize + 1) = some (String.ofList rest) := by
      rw [hname,← hbytes,sliceFrom?_append]
    simp [hslice]

theorem sliceGender?_eq (s : String) : sliceGender? s =
    some (String.ofList (splitGender s.toList).1,(splitGender s.toList).2) := by
  have hfind : Gender.all.find? (ends s) = (splitGender s.toList).2 :=
    find?_eq (fun gender => by cases gender <;> decide)
      fun gender => ends_iff.trans splitGender_snd.symm
  have happend := splitGender_append s.toList
  rw [sliceGender?,hfind]
  generalize splitGender s.toList = found at happend ⊢
  obtain ⟨base,_ | gender⟩ := found
  · obtain rfl : base = s.toList := (List.append_nil base).symm.trans happend
    simp
  · have hs : s = String.ofList base ++ ("_" ++ gender.tag) :=
      String.toList_injective (by simpa [after] using happend.symm)
    have hbytes : s.utf8ByteSize =
        (String.ofList base).utf8ByteSize + 1 + gender.tag.utf8ByteSize := by
      rw [hs,String.utf8ByteSize_append,String.utf8ByteSize_append,← Nat.add_assoc]
      rfl
    have hlength : s.utf8ByteSize.psub gender.tag.utf8ByteSize =
        some ((String.ofList base).utf8ByteSize + 1) := by
      rw [hbytes,Nat.psub_eq_sub (Nat.le_add_left _ _),Nat.add_sub_cancel]
    have hslice : sliceTo? s (String.ofList base).utf8ByteSize = some (String.ofList base) := by
      rw [hs,sliceTo?_append]
    simp [hlength,hslice,Nat.psub]

theorem parseSlicing?_eq (name : String) : parseSlicing? name = some (parse name) := by
  simp [parseSlicing?,sliceDeterminer?_eq,sliceGender?_eq,parse]

/-- A name is its determiner's tag, its base and its gender's tag, and nothing is missed or made up:
the determiner and the gender are those that the name has at its ends, no slice leaves the string,
and whatever is put between a determiner and a gender is found again as the base. -/
theorem parse_exact :
    (∀ name : String, (parse name).spell = name ∧
      (∀ d, (parse name).determiner = some d ↔ before (some d) <+: name.toList) ∧
      (∀ d d', before (some d) <+: name.toList → before (some d') <+: name.toList → d = d') ∧
      (∀ rest, name.toList = before (parse name).determiner ++ rest →
        ∀ gender, (parse name).gender = some gender ↔ after (some gender) <:+ rest) ∧
      parseSlicing? name = some (parse name)) ∧
    ∀ (d : Determiner) (base : String) (gender : Gender),
      parse (d.tag ++ "_" ++ base ++ "_" ++ gender.tag) = ⟨some d,base,some gender⟩ := by
  refine ⟨fun name => ⟨spell_parse name,?_,?_,?_,parseSlicing?_eq name⟩,?_⟩
  · exact fun d => splitDeterminer_fst
  · exact fun d d' h h' =>
      Option.some.inj ((splitDeterminer_fst.mpr h).symm.trans (splitDeterminer_fst.mpr h'))
  · intro rest hrest gender
    rw [← splitDeterminer_snd hrest]
    exact splitGender_snd
  · intro d base gender
    have hspell : d.tag ++ "_" ++ base ++ "_" ++ gender.tag = spell ⟨some d,base,some gender⟩ :=
      String.toList_injective (by simp [spell,before,after])
    rw [hspell,parse_spell]

/-- An underscore that belongs to the determiner does not begin an ending, and what looks like a
determiner or a gender inside the base stays there. -/
theorem parse_exact_nested :
    (parse "pronomdef_masc").determiner = some .definite ∧
    (parse "pronomdef_masc").gender ≠ some .masc ∧
    parse "pronomdef_pronompart_é_fem_masc" =
      ⟨some .definite,"pronompart_é_fem",some .masc⟩ := by
  obtain ⟨hname,hparts⟩ := parse_exact
  obtain ⟨-,hdeterminer,-,hgender,-⟩ := hname "pronomdef_masc"
  have hdefinite := (hdeterminer .definite).mpr (by decide)
  refine ⟨hdefinite,fun h => ?_,hparts .definite "pronompart_é_fem" .masc⟩
  have hends := (hgender "masc".toList (by rw [hdefinite]; decide) .masc).mp h
  exact absurd hends (by decide)

end SymbolName

end PhraseGrammar
