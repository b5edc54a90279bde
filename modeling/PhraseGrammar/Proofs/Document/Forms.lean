import Mathlib.Tactic.MkIffOfInductiveProp
import PhraseGrammar.Proofs.Document.Grammar
import PhraseGrammar.Proofs.Document.Json.Values
import PhraseGrammar.Proofs.Grammar
import PhraseGrammar.Proofs.Graph.WellFormed

/-! The forms in which a JSON document may give the rules of a group. A list of strings is flat; any
other list, and every object, is one that names the genders, by position or by key. A list that is
`null` is as if it was left out, which differs from an empty one. -/
namespace PhraseGrammar

namespace GenderedRules

/-- The key of a gender's list, or of the list that the genders share. -/
def key : Option Gender → String
  | some gender => gender.tag
  | none => "*"

def position : Option Gender → Nat
  | some .masc => 0
  | some .fem => 1
  | none => 2

def list (r : GenderedRules) : Option Gender → Option (List String)
  | some gender => r.own gender
  | none => r.shared

theorem key_injective : Function.Injective key := by
  intro slot slot' h
  revert h
  rcases slot with _ | _ | _ <;> rcases slot' with _ | _ | _ <;> decide

theorem ext_list {r r' : GenderedRules}
    (h : ∀ slot rules, r.list slot = some rules ↔ r'.list slot = some rules) : r = r' := by
  have hlist (slot : Option Gender) : r.list slot = r'.list slot := Option.ext (h slot)
  have hmasc : r.masc = r'.masc := hlist (some .masc)
  have hfem : r.fem = r'.fem := hlist (some .fem)
  have hshared : r.shared = r'.shared := hlist none
  cases r
  cases r'
  simp_all

end GenderedRules

/-- A list of strings, or `null` in its place. -/
def Value.Optional (v : Value) : Prop := v = .null ∨ ∃ texts, v = .ofTexts texts

namespace GenderedRules

/-- The lists are those of an object, by their keys. -/
structure AtKeys (r : GenderedRules) (entries : List (String × Value)) : Prop where
  nodup : (entries.map Prod.fst).Nodup
  keys : ∀ e ∈ entries, ∃ slot, e.1 = key slot
  optional : ∀ e ∈ entries, e.2.Optional
  lists : ∀ slot rules, r.list slot = some rules ↔ (key slot,.ofTexts rules) ∈ entries

/-- The lists are those of a list, by their positions. -/
structure AtPositions (r : GenderedRules) (values : List Value) : Prop where
  length : values.length ≤ 3
  optional : ∀ v ∈ values, v.Optional
  lists : ∀ slot rules, r.list slot = some rules ↔
    values[position slot]? = some (.ofTexts rules)

theorem AtKeys.eq {r r' : GenderedRules} {entries : List (String × Value)}
    (h : r.AtKeys entries) (h' : r'.AtKeys entries) : r = r' :=
  ext_list fun slot rules => (h.lists slot rules).trans (h'.lists slot rules).symm

theorem AtPositions.eq {r r' : GenderedRules} {values : List Value} (h : r.AtPositions values)
    (h' : r'.AtPositions values) : r = r' :=
  ext_list fun slot rules => (h.lists slot rules).trans (h'.lists slot rules).symm

end GenderedRules

namespace Value

/-- The forms in which a group's rules may be written. -/
@[mk_iff]
inductive Forms : Value → GroupRules → Prop
  | flat (rules : List String) : Forms (.ofTexts rules) (.flat rules)
  | keys {entries : List (String × Value)} {r : GenderedRules} (h : r.AtKeys entries) :
    Forms (.ofEntries entries) (.gendered r)
  | positions {values : List Value} {r : GenderedRules}
    (hflat : ∀ rules, .list values ≠ ofTexts rules) (h : r.AtPositions values) :
    Forms (.list values) (.gendered r)

theorem texts?_eq_some {v : Value} (hv : v.isJson = true) {texts : List String} :
    v.texts? = some texts ↔ v = .ofTexts texts := by
  cases v with
  | list items => simp [texts?,items?,ofTexts,mapM_text?_eq_some]
  | tuple items => cases hv
  | _ => simp [texts?,items?,ofTexts]

theorem rules?_eq_some {v : Value} (hv : v.isJson = true) {rules : Option (List String)} :
    v.rules? = some rules ↔
      v = .null ∧ rules = none ∨ ∃ texts, v = .ofTexts texts ∧ rules = some texts := by
  cases v with
  | null => simp [rules?,ofTexts,eq_comm]
  | absent => cases hv
  | present v => cases hv
  | _ => simp only [rules?,Option.map_eq_some_iff,texts?_eq_some hv,reduceCtorEq,false_and,
      false_or,eq_comm (b:=rules)]

theorem exists_rules? {v : Value} (hv : v.isJson = true) :
    (∃ rules, v.rules? = some rules) ↔ v.Optional := by
  simp only [rules?_eq_some hv,Optional]
  constructor
  · rintro ⟨rules,⟨rfl,-⟩ | ⟨texts,rfl,-⟩⟩
    · exact .inl rfl
    · exact .inr ⟨texts,rfl⟩
  · rintro (rfl | ⟨texts,rfl⟩)
    · exact ⟨none,.inl ⟨rfl,rfl⟩⟩
    · exact ⟨some texts,.inr ⟨texts,rfl,rfl⟩⟩

theorem rules?_eq_some_some {v : Value} (hv : v.isJson = true) {texts : List String} :
    v.rules? = some (some texts) ↔ v = .ofTexts texts := by
  simp [rules?_eq_some hv]

theorem slot?_text {s : String} {slot : Option Gender} :
    (Value.text s).slot? = some slot ↔ s = GenderedRules.key slot := by
  rw [slot?]
  split_ifs with hmasc hfem hshared
  · rcases slot with _ | _ | _ <;> simp [hmasc,GenderedRules.key,Gender.tag]
  · rcases slot with _ | _ | _ <;> simp [hfem,GenderedRules.key,Gender.tag]
  · rcases slot with _ | _ | _ <;> simp [hshared,GenderedRules.key,Gender.tag]
  · rcases slot with _ | _ | _ <;> simp [hmasc,hfem,hshared,GenderedRules.key]

end Value

namespace GenderedRules

theorem atPositions_of_ofItems? {values : List Value} (hjson : ∀ v ∈ values, v.isJson = true)
    {r : GenderedRules} (h : ofItems? values = some r) : r.AtPositions values := by
  simp only [ofItems?,Option.bind_eq_bind,Option.bind_eq_some_iff] at h
  obtain ⟨lists,hlists,h⟩ := h
  split_ifs at h with hlength
  obtain rfl := Option.some.inj h
  have hpairs := mapM_eq_some.mp hlists
  refine ⟨hpairs.length_eq ▸ hlength,fun v hv => ?_,fun slot rules => ?_⟩
  · obtain ⟨list,-,hlist⟩ := forall₂_exists hpairs hv
    exact (Value.exists_rules? (hjson v hv)).mp ⟨list,hlist⟩
  · have hslot : list ⟨lists.getD 0 none,lists.getD 1 none,lists.getD 2 none⟩ slot =
        lists.getD (position slot) none := by
      rcases slot with _ | _ | _ <;> rfl
    rw [hslot,List.getD_eq_getElem?_getD]
    rcases forall₂_getElem? hpairs (position slot) with ⟨hv,hl⟩ | ⟨v,l,hv,hl,hvl⟩
    · simp [hv,hl]
    · have hmem := List.mem_of_getElem? hv
      rw [hv,hl,Option.getD_some,Option.some.injEq,← Value.rules?_eq_some_some (hjson v hmem),
        hvl,Option.some.injEq]

theorem ofItems?_eq_some {values : List Value} (hjson : ∀ v ∈ values, v.isJson = true)
    {r : GenderedRules} : ofItems? values = some r ↔ r.AtPositions values := by
  refine ⟨atPositions_of_ofItems? hjson,fun h => ?_⟩
  obtain ⟨lists,hlists⟩ :=
    exists_mapM_eq_some fun v hv => (Value.exists_rules? (hjson v hv)).mpr (h.optional v hv)
  have hcount : lists.length ≤ 3 := (mapM_eq_some.mp hlists).length_eq ▸ h.length
  obtain ⟨r',hr'⟩ : ∃ r', ofItems? values = some r' := by
    simp [ofItems?,hlists,hcount]
  rw [hr',(atPositions_of_ofItems? hjson hr').eq h]

theorem entry?_eq_some {entry : String × Value} {slot : Option Gender × Option (List String)} :
    entry? (.text entry.1,entry.2) = some slot ↔
      entry.1 = key slot.1 ∧ entry.2.rules? = some slot.2 := by
  obtain ⟨slot,rules⟩ := slot
  simp [ entry?,Option.bind_eq_some_iff,Value.slot?_text]

section Entries

variable {entries : List (String × Value)} {slots : List (Option Gender × Option (List String))}

theorem slots_of_mapM (h : (entries.map fun e => (Value.text e.1,e.2)).mapM entry? = some slots) :
    List.Forall₂ (fun e slot => e.1 = key slot.1 ∧ e.2.rules? = some slot.2) entries slots := by
  simpa only [mapM_eq_some,List.forall₂_map_left_iff,entry?_eq_some] using h

theorem nodup_slots_iff
    (h : (entries.map fun e => (Value.text e.1,e.2)).mapM entry? = some slots) :
    (slots.map Prod.fst).Nodup ↔ (entries.map Prod.fst).Nodup := by
  have hkeys : entries.map Prod.fst = (slots.map Prod.fst).map key := by
    rw [List.map_map]
    exact map_eq_map_of_forall₂ (slots_of_mapM h) fun e _ slot _ he => he.1
  rw [hkeys,List.nodup_map_iff key_injective]

theorem atKeys_of_ofEntries? (hjson : ∀ e ∈ entries, e.2.isJson = true) {r : GenderedRules}
    (h : ofEntries? (entries.map fun e => (.text e.1,e.2)) = some r) : r.AtKeys entries := by
  simp only [ofEntries?,Option.bind_eq_bind,Option.bind_eq_some_iff] at h
  obtain ⟨slots,hslots,h⟩ := h
  split_ifs at h with hdistinct
  obtain rfl := Option.some.inj h
  have hpairs := slots_of_mapM hslots
  refine ⟨(nodup_slots_iff hslots).mp hdistinct,fun e he => ?_,fun e he => ?_,
    fun slot rules => ?_⟩
  · obtain ⟨slot,-,hkey,-⟩ := forall₂_exists hpairs he
    exact ⟨slot.1,hkey⟩
  · obtain ⟨slot,-,-,hrules⟩ := forall₂_exists hpairs he
    exact (Value.exists_rules? (hjson e he)).mp ⟨slot.2,hrules⟩
  · have hslot : list ⟨(slots.lookup (some .masc)).join,(slots.lookup (some .fem)).join,
        (slots.lookup none).join⟩ slot = (slots.lookup slot).join := by
      rcases slot with _ | _ | _ <;> rfl
    rw [hslot,Option.join_eq_some_iff,lookup_eq_some_iff_mem hdistinct]
    constructor
    · intro hmem
      obtain ⟨e,he,hkey,hrules⟩ := forall₂_exists hpairs.flip hmem
      rw [Value.rules?_eq_some_some (hjson e he)] at hrules
      rwa [← hkey,← hrules]
    · intro hmem
      obtain ⟨⟨slot',rules'⟩,hslot',hkey,hrules⟩ := forall₂_exists hpairs hmem
      obtain rfl := key_injective hkey
      rw [rules?_ofTexts,Option.some.injEq] at hrules
      rwa [hrules]

theorem ofEntries?_eq_some (hjson : ∀ e ∈ entries, e.2.isJson = true) {r : GenderedRules} :
    ofEntries? (entries.map fun e => (.text e.1,e.2)) = some r ↔ r.AtKeys entries := by
  refine ⟨atKeys_of_ofEntries? hjson,fun h => ?_⟩
  obtain ⟨slots,hslots⟩ : ∃ slots,
      (entries.map fun e => (Value.text e.1,e.2)).mapM entry? = some slots := by
    refine exists_mapM_eq_some (List.forall_mem_map.mpr fun e he => ?_)
    obtain ⟨slot,hkey⟩ := h.keys e he
    obtain ⟨rules,hrules⟩ := (Value.exists_rules? (hjson e he)).mpr (h.optional e he)
    exact ⟨(slot,rules),entry?_eq_some.mpr ⟨hkey,hrules⟩⟩
  obtain ⟨r',hr'⟩ : ∃ r', ofEntries? (entries.map fun e => (.text e.1,e.2)) = some r' := by
    simp [ofEntries?,hslots,(nodup_slots_iff hslots).mpr h.nodup]
  rw [hr',(atKeys_of_ofEntries? hjson hr').eq h]

end Entries

end GenderedRules

theorem Value.exists_ofEntries {entries : List (Value × Value)}
    (h : (Value.map entries).isJson = true) : ∃ fields : List (String × Value),
      Value.map entries = .ofEntries fields ∧ ∀ e ∈ fields, e.2.isJson = true := by
  have hentries := isJsonEntries_iff.mp h
  clear h
  induction entries with
  | nil => exact ⟨[],rfl,by simp⟩
  | cons e entries ih =>
    obtain ⟨⟨⟨key,hkey⟩,hv⟩,hrest⟩ := List.forall_mem_cons.mp hentries
    obtain ⟨fields,he,hfields⟩ := ih hrest
    refine ⟨(key,e.2) :: fields,?_,List.forall_mem_cons.mpr ⟨hv,hfields⟩⟩
    rw [Value.map.inj he,ofEntries,List.map_cons,← hkey]

theorem Value.ofTexts_injective : Function.Injective Value.ofTexts := by
  intro texts texts' h
  exact List.map_injective_iff.mpr (fun _ _ => Value.text.inj) (Value.list.inj h)

theorem Value.ofEntries_injective : Function.Injective Value.ofEntries := by
  intro entries entries' h
  refine List.map_injective_iff.mpr (fun e e' he => ?_) (Value.map.inj h)
  exact Prod.ext (Value.text.inj (Prod.mk.inj he).1) (Prod.mk.inj he).2

theorem GroupRules.ofValue?_eq_some {v : Value} (hv : v.isJson = true) {rules : GroupRules} :
    GroupRules.ofValue? v = some rules ↔ v.Forms rules := by
  rw [ofValue?,Value.forms_iff]
  cases htexts : v.texts? with
  | some texts =>
    obtain rfl := (Value.texts?_eq_some hv).mp htexts
    constructor
    · rintro ⟨⟩
      exact .inl ⟨texts,rfl,rfl⟩
    · rintro (⟨texts',he,rfl⟩ | ⟨_,_,-,he,-⟩ | ⟨_,_,hflat,-,he,-⟩)
      · rw [Value.ofTexts_injective he]
      · cases he
      · exact absurd he.symm (hflat texts)
  | none =>
    have hflat (texts : List String) : v ≠ .ofTexts texts := by
      rintro rfl
      simp at htexts
    cases v with
    | list values =>
      simp only [Value.items?,Option.map_eq_some_iff,
        GenderedRules.ofItems?_eq_some (Value.isJsonItems_iff.mp hv)]
      constructor
      · rintro ⟨r,h,rfl⟩
        exact .inr (.inr ⟨values,r,hflat,h,rfl,rfl⟩)
      · rintro (⟨texts,he,-⟩ | ⟨_,_,-,he,-⟩ | ⟨_,r,-,h,he,rfl⟩)
        · exact absurd he (hflat texts)
        · cases he
        · exact ⟨r,Value.list.inj he ▸ h,rfl⟩
    | map entries =>
      obtain ⟨fields,hfields,hjson⟩ := Value.exists_ofEntries hv
      obtain rfl := Value.map.inj hfields
      simp only [Value.items?,Value.entries?,Option.map_eq_some_iff,
        GenderedRules.ofEntries?_eq_some hjson]
      constructor
      · rintro ⟨r,h,rfl⟩
        exact .inr (.inl ⟨fields,r,h,rfl,rfl⟩)
      · rintro (⟨texts,he,-⟩ | ⟨_,r,h,he,rfl⟩ | ⟨_,_,-,-,he,-⟩)
        · exact absurd he (hflat texts)
        · obtain rfl := Value.ofEntries_injective he
          exact ⟨r,h,rfl⟩
        · cases he
    | tuple items => cases hv
    | record entries => cases hv
    | _ => simp [Value.items?,Value.entries?,Value.ofTexts,Value.ofEntries]

end PhraseGrammar
