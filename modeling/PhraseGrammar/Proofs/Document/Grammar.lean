import PhraseGrammar.Document.Grammar
import PhraseGrammar.Proofs.Document.Json.Reader

/-! Grammars as documents. A grammar is printed as the text of a value, and this value is taken for
the grammar again, unless a group has the name that stands for includes. -/
namespace PhraseGrammar

open Json

def Value.ofTexts (texts : List String) : Value := .list (texts.map .text)

def Value.ofEntries (entries : List (String × Value)) : Value :=
  .map (entries.map fun e => (.text e.1,e.2))

def GenderedRules.values (r : GenderedRules) : List (String × Value) :=
  r.entries.map fun e => (e.1,.ofTexts e.2)

def GroupRules.toValue : GroupRules → Value
  | flat rules => .ofTexts rules
  | gendered r => .ofEntries r.values

def Grammar.values (g : Grammar) : List (String × Value) :=
  (if g.includes.isEmpty then [] else [(includeKey,.ofTexts g.includes)]) ++
    g.groups.map fun key => (key.1,key.2.toValue)

theorem denotes_texts (rules : List String) (k depth : Nat) :
    Denotes (Json.texts k rules) (depth + 1) (.ofTexts rules) := by
  refine denotes_array ?_ k
  rw [List.forall₂_map_left_iff,List.forall₂_map_right_iff,List.forall₂_same]
  exact fun rule _ => denotes_quote rule depth

theorem denotes_rules (rules : GroupRules) (k depth : Nat) :
    Denotes (rules.toJson k) (depth + 2) rules.toValue := by
  cases rules with
  | flat rules => exact denotes_texts rules k (depth + 1)
  | gendered r =>
    refine denotes_object ?_ k
    rw [GenderedRules.values,List.forall₂_map_left_iff,List.forall₂_map_right_iff,
      List.forall₂_same]
    exact fun e _ => ⟨rfl,denotes_texts e.2 (k + 1) depth⟩

theorem denotes_grammar (g : Grammar) (depth : Nat) :
    Denotes g.toJson (depth + 3) (.ofEntries g.values) := by
  refine denotes_object (List.rel_append ?_ ?_) 0
  · split
    · exact .nil
    · exact .cons ⟨rfl,denotes_texts g.includes 1 (depth + 1)⟩ .nil
  · rw [List.forall₂_map_left_iff,List.forall₂_map_right_iff,List.forall₂_same]
    exact fun key _ => ⟨rfl,denotes_rules key.2 1 depth⟩

theorem read_toJson (g : Grammar) : Json.read g.toJson = ⟨.ofEntries g.values,true⟩ :=
  (denotes_grammar g (maxDepth - 3)).read_eq

theorem Value.mapM_text?_eq_some {items : List Value} {texts : List String} :
    items.mapM Value.text? = some texts ↔ items = texts.map .text := by
  have htext (v : Value) (s : String) : v.text? = some s ↔ v = .text s := by
    cases v <;> simp [Value.text?]
  simp only [mapM_eq_some,htext]
  rw [← List.forall₂_eq_eq_eq,List.forall₂_map_right_iff]

@[simp] theorem texts?_ofTexts (texts : List String) : (Value.ofTexts texts).texts? = some texts :=
  Value.mapM_text?_eq_some.mpr rfl

@[simp] theorem rules?_ofTexts (texts : List String) :
    (Value.ofTexts texts).rules? = some (some texts) :=
  congrArg (Option.map some) (texts?_ofTexts texts)

theorem complete_ofTexts (texts : List String) : (Value.ofTexts texts).complete = true := by
  rw [Value.ofTexts,Value.complete]
  induction texts with
  | nil => rfl
  | cons text texts ih => simpa [Value.completeItems,Value.complete] using ih

theorem complete_toValue (rules : GroupRules) : rules.toValue.complete = true := by
  cases rules with
  | flat rules => exact complete_ofTexts rules
  | gendered r =>
    rw [GroupRules.toValue,Value.ofEntries,GenderedRules.values,Value.complete]
    induction r.entries with
    | nil => rfl
    | cons e entries ih => simpa [Value.completeEntries,Value.complete,complete_ofTexts] using ih

theorem ofEntries?_values (r : GenderedRules) :
    GenderedRules.ofEntries? (r.values.map fun e => (.text e.1,e.2)) = some r := by
  have hmasc : (Gender.masc == Gender.fem) = false := rfl
  have hfem : (Gender.fem == Gender.masc) = false := rfl
  obtain ⟨masc,fem,shared⟩ := r
  cases masc <;> cases fem <;> cases shared <;>
    simp [GenderedRules.values,GenderedRules.entries,GenderedRules.ofEntries?,GenderedRules.entry?,
      Value.slot?,Gender.tag,List.lookup_cons,hmasc,hfem]

theorem ofValue?_toValue (rules : GroupRules) : GroupRules.ofValue? rules.toValue = some rules := by
  cases rules with
  | flat rules => rw [GroupRules.toValue,GroupRules.ofValue?,texts?_ofTexts]
  | gendered r =>
    simp [GroupRules.toValue,GroupRules.ofValue?,Value.ofEntries,Value.texts?,Value.items?,
      Value.entries?,ofEntries?_values]

namespace Grammar

variable {g : Grammar} {format : Format}

theorem rulesOf_toValue (format : Format) (rules : GroupRules) :
    rulesOf format rules.toValue = .ok rules := by
  rw [rulesOf,complete_toValue,ofValue?_toValue]
  rfl

theorem uncut_toValue (rules : GroupRules) :
    rules.toValue.uncut = rules.toValue ∧ rules.toValue.isCut = false := by
  cases rules <;> exact ⟨rfl,rfl⟩

theorem addEntry_toValue {name : String} (rules : GroupRules) (hname : name ≠ includeKey)
    (hnew : name ∉ g.names) :
    addEntry format g (.text name,rules.toValue) = .ok (g.push name rules) := by
  have hcontains : g.contains name = false := by simpa [contains] using hnew
  obtain ⟨huncut,hcut⟩ := uncut_toValue rules
  simp [addEntry,hname,huncut,hcut,rulesOf_toValue,hcontains]

theorem includesOf_ofTexts (format : Format) (paths : List String) :
    includesOf format (.ofTexts paths) = .ok paths := by
  rw [Value.ofTexts,includesOf]
  induction paths with
  | nil => rfl
  | cons path paths ih => rw [List.map_cons,includesOfItems,ih,Except.map]

theorem foldlM_groups {groups : List (String × GroupRules)}
    (hkey : includeKey ∉ groups.map Prod.fst) (hnodup : (g.names ++ groups.map Prod.fst).Nodup) :
    (groups.map fun key => (Value.text key.1,key.2.toValue)).foldlM (addEntry format) g =
      .ok { g with groups := g.groups ++ groups } := by
  induction groups generalizing g with
  | nil => simp [pure,Except.pure]
  | cons key groups ih =>
    rw [List.map_cons,List.mem_cons,not_or] at hkey
    have hnew : key.1 ∉ g.names := fun hmem =>
      (List.nodup_append.mp hnodup).2.2 _ hmem _ List.mem_cons_self rfl
    have hrest := ih (g:=g.push key.1 key.2) hkey.2 (by simpa using hnodup)
    rw [List.map_cons,List.foldlM_cons,addEntry_toValue key.2 (Ne.symm hkey.1) hnew]
    show List.foldlM _ (g.push key.1 key.2) _ = _
    rw [hrest]
    simp [push]

theorem ofEntries_values (hnodup : g.names.Nodup) (hkey : includeKey ∉ g.names) :
    ofEntries format (g.values.map fun e => (.text e.1,e.2)) = .ok g := by
  have hgroups (paths : List String) :
      (g.groups.map fun key => (Value.text key.1,key.2.toValue)).foldlM (addEntry format)
        ⟨[],paths⟩ = .ok ⟨g.groups,paths⟩ :=
    foldlM_groups hkey (by simpa [names] using hnodup)
  rw [ofEntries,values,List.map_append,List.map_map]
  cases hincludes : g.includes with
  | nil => exact (hgroups []).trans (by rw [← hincludes])
  | cons path paths =>
    have hadd : addEntry format .empty (.text includeKey,.ofTexts (path :: paths)) =
        .ok ⟨[],path :: paths⟩ := by
      simp [addEntry,includesOf_ofTexts,Except.map,empty]
    simp only [List.isEmpty_cons,Bool.false_eq_true,if_false,List.map_cons,List.map_nil,
      List.singleton_append,List.foldlM_cons,hadd]
    exact (hgroups (path :: paths)).trans (by rw [← hincludes])

theorem parseJson_toJson (hnodup : g.names.Nodup) (hkey : includeKey ∉ g.names) :
    parseJson g.toJson = .ok g := by
  rw [parseJson,read_toJson,ofDocument,Value.ofEntries]
  simp [ofEntries_values hnodup hkey]

end Grammar

end PhraseGrammar
