import PhraseGrammar.Preparation
import PhraseGrammar.Proofs.Naming

/-! The names that a grammar has rules for, and what rules mention. -/
namespace PhraseGrammar

namespace Grammar

theorem mem_names_of_get? {g : Grammar} {name : String} {rules : GroupRules}
    (h : g.get? name = some rules) : name ∈ g.names := by
  obtain ⟨before,after,he,-⟩ := List.lookup_eq_some_iff.mp h
  simp [names,he]

theorem get?_eq_none {g : Grammar} {name : String} : g.get? name = none ↔ name ∉ g.names := by
  rw [get?,List.lookup_eq_none_iff,names,List.mem_map]
  constructor
  · rintro h ⟨key,hkey,rfl⟩
    simpa using h key hkey
  · intro h key hkey
    exact bne_iff_ne.mpr fun he => h ⟨key,hkey,he.symm⟩

theorem get?_of_mem {g : Grammar} (hnodup : g.names.Nodup) {name : String} {rules : GroupRules}
    (h : (name,rules) ∈ g.groups) : g.get? name = some rules :=
  (lookup_eq_some_iff_mem hnodup).mpr h

/-- The names that a group can have rules for: its own, and for both genders those with a
determiner or without. -/
def answers (base : String) : List String :=
  base :: (none :: Determiner.all.map some).flatMap fun determiner =>
    Gender.all.map fun gender => SymbolName.spell ⟨determiner,base,some gender⟩

theorem length_answers (base : String) : (answers base).length = 15 := rfl

theorem exists_answers_of_resolve {g : Grammar} {name : String} {rules : List String}
    (h : g.resolve name = .ok rules) : ∃ base ∈ g.names, name ∈ answers base := by
  rw [resolve] at h
  cases hget : g.get? name with
  | some rules => exact ⟨name,mem_names_of_get? hget,List.mem_cons_self⟩
  | none =>
    simp only [hget] at h
    have hspell := SymbolName.spell_parse name
    generalize SymbolName.parse name = symbol at h hspell
    obtain ⟨determiner,base,gender⟩ := symbol
    cases gender with
    | none => cases determiner <;> simp at h
    | some gender =>
      cases hbase : g.get? base with
      | none => simp [hbase] at h
      | some rules =>
        refine ⟨base,mem_names_of_get? hbase,List.mem_cons_of_mem _ ?_⟩
        rw [← hspell]
        refine List.mem_flatMap.mpr ⟨determiner,?_,List.mem_map_of_mem ?_⟩
        · cases determiner with
          | none => exact List.mem_cons_self
          | some d => cases d <;> simp [Determiner.all]
        · cases gender <;> simp [Gender.all]

theorem exists_candidates_of_resolve {g : Grammar} {name : String} {rules : List String}
    (hname : g.get? name = none) (h : g.resolve name = .ok rules) :
    ∃ gender grouped candidates, g.get? (SymbolName.parse name).base = some (.gendered grouped) ∧
      grouped.candidates gender = some candidates ∧
      (rules = candidates ∨ ∃ d : Determiner, rules = candidates.map (d.apply gender)) := by
  simp only [resolve,hname] at h
  generalize SymbolName.parse name = symbol at h ⊢
  obtain ⟨determiner,base,gender⟩ := symbol
  cases gender with
  | none => cases determiner <;> simp at h
  | some gender =>
    rcases hbase : g.get? base with _ | ⟨rules⟩ | ⟨grouped⟩
    · simp [hbase] at h
    · simp [hbase] at h
    · cases hc : grouped.candidates gender with
      | none => simp [hbase,hc] at h
      | some candidates =>
        refine ⟨gender,grouped,candidates,rfl,hc,?_⟩
        cases determiner with
        | none => exact .inl (by simpa [hbase,hc] using h.symm)
        | some d => exact .inr ⟨d,by simpa [hbase,hc] using h.symm⟩

theorem isGendered_of_resolve {g : Grammar} {name : String} {rules : List String}
    (hname : g.get? name = none) (h : g.resolve name = .ok rules) :
    ∃ base, g.get? (SymbolName.parse name).base = some base ∧ base.isGendered = true := by
  obtain ⟨-,grouped,-,hbase,-⟩ := exists_candidates_of_resolve hname h
  exact ⟨.gendered grouped,hbase,rfl⟩

theorem candidates_subset_all {grouped : GenderedRules} {gender : Gender}
    {candidates : List String} (h : grouped.candidates gender = some candidates) :
    candidates ⊆ (GroupRules.gendered grouped).all := by
  obtain ⟨own,hown,rfl⟩ := Option.map_eq_some_iff.mp h
  intro item hitem
  simp only [GroupRules.all,List.mem_append]
  rcases List.mem_append.mp hitem with hitem | hitem
  · cases gender with
    | masc => exact .inl (.inl (by rw [show grouped.masc = some own from hown]; exact hitem))
    | fem => exact .inl (.inr (by rw [show grouped.fem = some own from hown]; exact hitem))
  · exact .inr hitem

theorem mentions_cons (source : String) (sources : List String) :
    mentions (source :: sources) = (Template.parse source).bind fun template =>
      (mentions sources).map (template.symbols ++ ·) := by
  rw [mentions]
  cases Template.parse source with
  | error e => rfl
  | ok template => cases mentions sources <;> rfl

theorem mentions_cons_eq_ok {source : String} {sources symbols : List String} :
    mentions (source :: sources) = .ok symbols ↔ ∃ template rest,
      Template.parse source = .ok template ∧ mentions sources = .ok rest ∧
        symbols = template.symbols ++ rest := by
  rw [mentions_cons]
  cases Template.parse source with
  | error e => simp [Except.bind]
  | ok template =>
    cases mentions sources with
    | error e => simp [Except.bind,Except.map]
    | ok rest => simp [Except.bind,Except.map,eq_comm]

theorem exists_mentions_iff {sources : List String} :
    (∃ symbols, mentions sources = .ok symbols) ↔
      ∀ source ∈ sources, ∃ template, Template.parse source = .ok template := by
  induction sources with
  | nil => exact ⟨fun _ => by simp,fun _ => ⟨[],rfl⟩⟩
  | cons source sources ih =>
    rw [List.forall_mem_cons,← ih]
    constructor
    · rintro ⟨symbols,h⟩
      obtain ⟨template,rest,ht,hrest,-⟩ := mentions_cons_eq_ok.mp h
      exact ⟨⟨template,ht⟩,rest,hrest⟩
    · rintro ⟨⟨template,ht⟩,rest,hrest⟩
      exact ⟨_,mentions_cons_eq_ok.mpr ⟨template,rest,ht,hrest,rfl⟩⟩

theorem mem_mentions {sources symbols : List String} (h : mentions sources = .ok symbols)
    {symbol : String} : symbol ∈ symbols ↔ ∃ source ∈ sources, ∃ template,
      Template.parse source = .ok template ∧ symbol ∈ template.symbols := by
  induction sources generalizing symbols with
  | nil =>
    obtain rfl := Except.ok.inj h
    simp
  | cons source sources ih =>
    obtain ⟨template,rest,ht,hrest,rfl⟩ := mentions_cons_eq_ok.mp h
    simp [ih hrest,ht]

end Grammar

end PhraseGrammar
