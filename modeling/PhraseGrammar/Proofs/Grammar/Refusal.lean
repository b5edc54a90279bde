import PhraseGrammar.Proofs.Preparation.Walk

/-! What a grammar is refused for. A rule may be unbalanced, a name may ask for a determiner or a
gender that the grammar does not have, or a name may be no key; of three kinds of faults the first
counts, and of each kind the one that comes first. -/
namespace PhraseGrammar

namespace Template

/-- An odd number of delimiters leaves a placeholder open. -/
def unbalanced (source : String) : Bool := decide (¬ Even (source.toList.count delimiter))

end Template

namespace Grammar

/-- All rules of the keys as they are declared. -/
def keyRules (dedup : Bool) (keys : List (String × GroupRules)) : List String :=
  keys.flatMap fun key => arrange dedup key.2.all

/-- The name is no key, and asks for a determiner or a gender that the grammar does not have. -/
def stray (grammar : Grammar) (name : String) : Bool :=
  !grammar.contains name && (SymbolName.parse name).conventional &&
    !(grammar.resolve name).isOk

/-- The name is no key and asks for neither a determiner nor a gender. -/
def foreign (grammar : Grammar) (name : String) : Bool :=
  !grammar.contains name && !(SymbolName.parse name).conventional

/-- A declared or a derived group has the name, if the rules mention these symbols. -/
def Known (grammar : Grammar) (symbols : List String) (name : String) : Prop :=
  name ∈ grammar.names ∨ name ∈ symbols ∧ (SymbolName.parse name).conventional = true

/-- The name ends in what could be a modifier of a known name, but is none. -/
def Misapplies (grammar : Grammar) (symbols : List String) (name modifier : String) : Prop :=
  ∃ base, name = base ++ "." ++ modifier ∧ '.' ∉ modifier.toList ∧
    modifier ∉ Modifier.all.map Modifier.name ∧ grammar.Known symbols base

/-- What a build of the grammar fails with: the first unbalanced rule; if there is none, the first
name that is no key and asks for what the grammar does not have; if there is none, the first name
that is no key. -/
inductive Refuses (grammar : Grammar) (dedup : Bool) : Error → Prop
  | unbalanced {rule : String}
    (hrule : (keyRules dedup grammar.groups).find? Template.unbalanced = some rule) :
    grammar.Refuses dedup (.unbalancedDelimiters rule)
  | stray {symbols : List String} {name : String} {e : Error}
    (hsymbols : mentions (keyRules dedup grammar.groups) = .ok symbols)
    (hname : symbols.find? grammar.stray = some name) (he : grammar.resolve name = .error e) :
    grammar.Refuses dedup e
  | modifier {symbols : List String} {name modifier : String}
    (hsymbols : mentions (keyRules dedup grammar.groups) = .ok symbols)
    (hstray : symbols.find? grammar.stray = none)
    (hname : symbols.find? grammar.foreign = some name)
    (hmodifier : grammar.Misapplies symbols name modifier) :
    grammar.Refuses dedup (.unsupportedModifier name modifier)
  | foreign {symbols : List String} {name : String}
    (hsymbols : mentions (keyRules dedup grammar.groups) = .ok symbols)
    (hstray : symbols.find? grammar.stray = none)
    (hname : symbols.find? grammar.foreign = some name)
    (hmodifier : ∀ modifier, ¬ grammar.Misapplies symbols name modifier) :
    grammar.Refuses dedup (.unresolvedGroup name)

variable {grammar : Grammar} {dedup : Bool}

theorem find?_unbalanced_eq_some {rules : List String} {rule : String}
    (h : rules.find? Template.unbalanced = some rule) :
    mentions rules = .error (.unbalancedDelimiters rule) := by
  obtain ⟨hodd,before,after,rfl,hbefore⟩ := List.find?_eq_some_iff_append.mp h
  refine mentions_of_unbalanced after (fun other ho => ?_)
    (by simpa [Template.unbalanced] using hodd)
  simpa [Template.unbalanced] using hbefore other ho

theorem find?_unbalanced_eq_none {rules : List String} :
    rules.find? Template.unbalanced = none ↔ ∃ symbols, mentions rules = .ok symbols := by
  simp only [exists_mentions_iff,List.find?_eq_none,Template.unbalanced,
    Template.exists_parse_iff_even,decide_eq_true_eq,not_not]

theorem mentions_append {before after symbols : List String}
    (h : mentions (before ++ after) = .ok symbols) : ∃ first second,
      mentions before = .ok first ∧ mentions after = .ok second ∧ symbols = first ++ second := by
  induction before generalizing symbols with
  | nil => exact ⟨[],symbols,rfl,h,rfl⟩
  | cons source before ih =>
    obtain ⟨template,rest,ht,hrest,rfl⟩ := mentions_cons_eq_ok.mp h
    obtain ⟨first,second,hfirst,hsecond,rfl⟩ := ih hrest
    exact ⟨_,second,mentions_cons_eq_ok.mpr ⟨template,first,ht,hfirst,rfl⟩,hsecond,by simp⟩

theorem not_contains {name : String} :
    grammar.contains name = false ↔ grammar.get? name = none := by
  rw [get?_eq_none,contains,List.contains_eq_mem,decide_eq_false_iff_not]

theorem stray_eq_true {name : String} : grammar.stray name = true ↔
    grammar.get? name = none ∧ (SymbolName.parse name).conventional = true ∧
      ∃ e, grammar.resolve name = .error e := by
  rw [← not_contains]
  cases hr : grammar.resolve name <;> simp [stray,hr,Except.isOk,Except.toBool]

theorem foreign_eq_true {name : String} : grammar.foreign name = true ↔
    grammar.get? name = none ∧ (SymbolName.parse name).conventional = false := by
  rw [← not_contains]
  simp [foreign]

theorem stray_of_mem {name : String} (h : name ∈ grammar.names) : grammar.stray name = false := by
  simp [stray,contains,h]

theorem foreign_of_mem {name : String} (h : name ∈ grammar.names) :
    grammar.foreign name = false := by
  simp [foreign,contains,h]

theorem resolve_of_get? {name : String} {rules : GroupRules} (h : grammar.get? name = some rules) :
    grammar.resolve name = .ok rules.all := by
  rw [resolve,h]

theorem resolve_error {name : String} {e : Error} (h : grammar.resolve name = .error e) :
    (∃ group, e = .unknownGroup group) ∨
      ∃ group expected, e = .invalidGroupShape group expected := by
  rw [resolve] at h
  cases hname : grammar.get? name with
  | some rules => simp [hname] at h
  | none =>
    simp only [hname] at h
    generalize SymbolName.parse name = symbol at h
    obtain ⟨determiner,base,gender⟩ := symbol
    cases gender with
    | none =>
      cases determiner with
      | none => exact .inl ⟨_,(Except.error.inj h).symm⟩
      | some d => exact .inr ⟨_,_,(Except.error.inj h).symm⟩
    | some gender =>
      rcases hbase : grammar.get? base with _ | ⟨rules⟩ | ⟨grouped⟩ <;> simp only [hbase] at h
      · exact .inl ⟨_,(Except.error.inj h).symm⟩
      · exact .inr ⟨_,_,(Except.error.inj h).symm⟩
      · cases hc : grouped.candidates gender with
        | none =>
          simp only [hc] at h
          exact .inr ⟨_,_,(Except.error.inj h).symm⟩
        | some candidates => cases determiner <;> simp [hc] at h

theorem Refuses.kinds {e : Error} (h : grammar.Refuses dedup e) :
    (∃ rule, e = .unbalancedDelimiters rule) ∨ (∃ group, e = .unknownGroup group) ∨
    (∃ group expected, e = .invalidGroupShape group expected) ∨
    (∃ name modifier, e = .unsupportedModifier name modifier) ∨
    ∃ name, e = .unresolvedGroup name := by
  cases h with
  | unbalanced => exact .inl ⟨_,rfl⟩
  | stray _ _ he =>
    rcases resolve_error he with hgroup | hgroup
    · exact .inr (.inl hgroup)
    · exact .inr (.inr (.inl hgroup))
  | modifier => exact .inr (.inr (.inr (.inl ⟨_,_,rfl⟩)))
  | foreign => exact .inr (.inr (.inr (.inr ⟨_,rfl⟩)))

end Grammar

end PhraseGrammar
