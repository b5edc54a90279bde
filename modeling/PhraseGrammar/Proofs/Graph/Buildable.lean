import PhraseGrammar.Proofs.Graph.Derived

/-! Which grammars can be built. Neither the order of a group's rules nor how often one stands there
matters, and the pass over pending groups fails for none of them if each has rules. -/
namespace PhraseGrammar

/-- Keys are distinct, their rules balanced, and whatever these mention has rules. -/
structure Grammar.Buildable (grammar : Grammar) : Prop where
  nodup : grammar.names.Nodup
  sound : ∀ key ∈ grammar.groups, ∀ rule ∈ key.2.all, ∃ template,
    Template.parse rule = .ok template ∧
      ∀ symbol ∈ template.symbols, ∃ rules, grammar.resolve symbol = .ok rules

namespace Grammar

variable {grammar : Grammar}

theorem conventional_of_resolve {name : String} {rules : List String}
    (hname : grammar.get? name = none) (h : grammar.resolve name = .ok rules) :
    (SymbolName.parse name).conventional = true := by
  simp only [resolve,hname] at h
  generalize SymbolName.parse name = symbol at h ⊢
  obtain ⟨determiner,base,gender⟩ := symbol
  cases gender with
  | none => cases determiner <;> simp at h
  | some gender => simp [SymbolName.conventional]

theorem exists_parse_of_resolve
    (hkeys : ∀ key ∈ grammar.groups, ∀ rule ∈ key.2.all, ∃ template,
      Template.parse rule = .ok template)
    {name : String} {rules : List String} (h : grammar.resolve name = .ok rules) :
    ∀ rule ∈ rules, ∃ template, Template.parse rule = .ok template := by
  have hget {base : String} {group : GroupRules} (hbase : grammar.get? base = some group) :
      ∀ rule ∈ group.all, ∃ template, Template.parse rule = .ok template := by
    obtain ⟨before,after,hgroups,-⟩ := List.lookup_eq_some_iff.mp hbase
    exact hkeys (base,group) (by simp [hgroups])
  cases hname : grammar.get? name with
  | some group =>
    rw [resolve,hname] at h
    exact Except.ok.inj h ▸ hget hname
  | none =>
    obtain ⟨gender,grouped,candidates,hbase,hcandidates,hrules⟩ :=
      exists_candidates_of_resolve hname h
    have hbare : ∀ rule ∈ candidates, ∃ template, Template.parse rule = .ok template :=
      fun rule hrule => hget hbase rule (candidates_subset_all hcandidates hrule)
    rcases hrules with rfl | ⟨d,rfl⟩
    · exact hbare
    · intro rule hrule
      obtain ⟨item,hitem,rfl⟩ := List.mem_map.mp hrule
      obtain ⟨bare,hitem'⟩ := hbare item hitem
      obtain ⟨template,ht,-⟩ := Determiner.exists_parse_apply hitem' d gender
      exact ⟨template,ht⟩

end Grammar

namespace Graph

variable {grammar : Grammar} {dedup : Bool} {g G : Graph}

theorem exists_mentions_arrange {rules : List String} :
    (∃ symbols, Grammar.mentions (arrange dedup rules) = .ok symbols) ↔
      ∀ rule ∈ rules, ∃ template, Template.parse rule = .ok template := by
  simp only [Grammar.exists_mentions_iff,mem_arrange]

theorem derive_pending (hg : g.Reached) (hc : Covers grammar dedup g.names) {id : GroupId}
    (hlt : id < g.size) (hres : (g.group id).resolved = false)
    (hkey : grammar.get? (g.group id).name = none) {rules symbols : List String}
    (hr : grammar.resolve (g.group id).name = .ok rules)
    (hm : Grammar.mentions (arrange dedup rules) = .ok symbols) :
    ∃ g', g.derive grammar dedup (g.group id).name = .ok g' ∧ g'.Reached ∧ g'.names = g.names ∧
      (g'.group id).resolved = true ∧ ∀ i, Settles grammar dedup g (g.group i) (g'.group i) := by
  have hnew : (g.group id).name ∉ g.contents.map Prod.fst := by
    rw [← hg.wellFormed.resolved_iff hlt,hres]
    exact Bool.false_ne_true
  obtain ⟨g',hderive⟩ := derive_isOk hnew hr hm
  have hname : (g.group id).name ∈ g.names := group_name_mem_names hlt
  obtain ⟨hn,hs⟩ := derive_settles hc hname hkey hderive
  obtain ⟨rules',-,hreached,hperm⟩ := derive_ok hderive
  have hsize : g'.size = g.size := size_eq_of_names hn
  refine ⟨g',hderive,hreached hg,hn,?_,hs⟩
  rw [(hreached hg).wellFormed.resolved_iff (hsize ▸ hlt),(hs id).name_eq,
    (hperm.map Prod.fst).mem_iff]
  exact List.mem_cons_self

/-- Each group that waits for its rules is no key and gets rules from the grammar. -/
structure Derivable (grammar : Grammar) (dedup : Bool) (g : Graph) : Prop where
  reached : g.Reached
  covers : Covers grammar dedup g.names
  pending : ∀ i < g.size, (g.group i).resolved = false →
    grammar.get? (g.group i).name = none ∧ ∃ rules symbols,
      grammar.resolve (g.group i).name = .ok rules ∧
        Grammar.mentions (arrange dedup rules) = .ok symbols

theorem Derivable.derive (h : Derivable grammar dedup g) {id : GroupId} (hlt : id < g.size)
    (hres : (g.group id).resolved = false) :
    ∃ g', g.derive grammar dedup (g.group id).name = .ok g' ∧ Derivable grammar dedup g' ∧
      g'.names = g.names ∧ (g'.group id).resolved = true ∧
      ∀ i, Settles grammar dedup g (g.group i) (g'.group i) := by
  obtain ⟨hkey,rules,symbols,hr,hm⟩ := h.pending id hlt hres
  obtain ⟨g',hderive,hg',hn,hid,hs⟩ := derive_pending h.reached h.covers hlt hres hkey hr hm
  have hsize : g'.size = g.size := size_eq_of_names hn
  refine ⟨g',hderive,⟨hg',hn ▸ h.covers,fun i hi hres' => ?_⟩,hn,hid,hs⟩
  rw [(hs i).name_eq]
  exact h.pending i (hsize ▸ hi) ((hs i).waits hres')

theorem Derivable.deriveFrom (h : Derivable grammar dedup g) {n : Nat} {id : GroupId}
    (hbefore : ∀ i < g.size, i < id → (g.group i).resolved = true) (hend : g.size ≤ id + n) :
    ∃ G, deriveFrom grammar dedup n id g = .ok G ∧
      ∀ i < G.size, (G.group i).resolved = true := by
  induction n generalizing id g with
  | zero => exact ⟨g,rfl,fun i hi => hbefore i hi (by omega)⟩
  | succ n ih =>
    rw [Graph.deriveFrom]
    split
    · rename_i hskip
      refine ih h (fun i hi hlt => ?_) (by omega)
      by_cases hi' : i < id
      · exact hbefore i hi hi'
      · obtain rfl : i = id := by omega
        by_contra hres
        have hres : (g.group i).resolved = false := by simpa using hres
        obtain ⟨hkey,rules,-,hr,-⟩ := h.pending i hi hres
        simp [hres,Grammar.conventional_of_resolve hkey hr] at hskip
    · rename_i hpending
      obtain ⟨hres,hconv⟩ : (g.group id).resolved = false ∧
          (SymbolName.parse (g.group id).name).conventional = true := by simpa using hpending
      have hlt : id < g.size := lt_size_of_conventional hconv
      obtain ⟨g',hd,h',hn,hid,hs⟩ := h.derive hlt hres
      have hsize : g'.size = g.size := size_eq_of_names hn
      simp only [hd]
      refine ih h' (fun i hi hi' => ?_) (by omega)
      by_cases he : i = id
      · exact he ▸ hid
      · have hdone := hbefore i (hsize ▸ hi) (by omega)
        rw [(hs i).of_resolved hdone,hdone]

theorem mem_names_of_build (h : build grammar dedup = .ok G) {name : String} :
    name ∈ G.names ↔ ∃ key ∈ grammar.groups, name = key.1 ∨ ∃ rule ∈ key.2.all, ∃ template,
      Template.parse rule = .ok template ∧ name ∈ template.symbols := by
  obtain ⟨declared,sequence,-,hsequence,hdedup,hn,-⟩ := settles_of_build h
  rw [hn,hdedup,List.mem_eraseDups,mem_keyMentions hsequence]

theorem buildable_of_build (h : build grammar dedup = .ok G) : grammar.Buildable := by
  refine ⟨nodup_names_of_build h,fun key hkey rule hrule => ?_⟩
  obtain ⟨declared,sequence,-,hsequence,-,-,-⟩ := settles_of_build h
  obtain ⟨symbols,hs,-⟩ := covers_of_keyMentions hsequence key hkey
  obtain ⟨template,ht⟩ := exists_mentions_arrange.mp ⟨symbols,hs⟩ rule hrule
  refine ⟨template,ht,fun symbol hsymbol => ?_⟩
  have hname : symbol ∈ G.names :=
    (mem_names_of_build h).mpr ⟨key,hkey,.inr ⟨rule,hrule,template,ht,hsymbol⟩⟩
  obtain ⟨id,hid⟩ := List.mem_iff_getElem?.mp hname
  obtain ⟨hlt,rfl⟩ := getElem?_names.mp hid
  obtain ⟨rules,hr,-⟩ := sources_of_build h hlt
  exact ⟨rules,hr⟩

/-- Declaring the keys of a buildable grammar leaves only groups that the pass can derive. -/
theorem derivable_of_declareKeys (hb : grammar.Buildable)
    (h : empty.declareKeys dedup grammar.groups = .ok g) : Derivable grammar dedup g := by
  have hparse : ∀ key ∈ grammar.groups, ∀ rule ∈ key.2.all, ∃ template,
      Template.parse rule = .ok template := fun key hkey rule hrule =>
    (hb.sound key hkey rule hrule).imp fun _ ht => ht.1
  obtain ⟨sequence,hsequence,hdedup,hcovers⟩ := exists_sequence_of_declareKeys h
  refine ⟨Reached.empty.declareKeys h,hcovers,fun i hi hres => ?_⟩
  have hkey := pending_of_declareKeys h hi hres
  have hname : (g.group i).name ∈ sequence :=
    List.mem_eraseDups.mp (hdedup ▸ group_name_mem_names hi)
  obtain ⟨key,hmem,he | ⟨rule,hrule,template,ht,hsymbol⟩⟩ := (mem_keyMentions hsequence).mp hname
  · exact absurd (he ▸ List.mem_map_of_mem hmem) (Grammar.get?_eq_none.mp hkey)
  · obtain ⟨template',ht',hsound⟩ := hb.sound key hmem rule hrule
    obtain rfl := Except.ok.inj (ht.symm.trans ht')
    obtain ⟨rules,hr⟩ := hsound _ hsymbol
    obtain ⟨symbols,hs⟩ : ∃ symbols, Grammar.mentions (arrange dedup rules) = .ok symbols :=
      exists_mentions_arrange.mpr (Grammar.exists_parse_of_resolve hparse hr)
    exact ⟨hkey,rules,symbols,hr,hs⟩

theorem build_isOk_iff : (∃ G, build grammar dedup = .ok G) ↔ grammar.Buildable := by
  constructor
  · rintro ⟨G,h⟩
    exact buildable_of_build h
  · intro hb
    obtain ⟨declared,hkeys⟩ : ∃ declared, empty.declareKeys dedup grammar.groups = .ok declared :=
      declareKeys_isOk (fun key hkey => exists_mentions_arrange.mpr fun rule hrule =>
        (hb.sound key hkey rule hrule).imp fun _ ht => ht.1) hb.nodup (by simp)
    obtain ⟨G,hderived,hresolved⟩ : ∃ G,
        Graph.deriveFrom grammar dedup declared.size 0 declared = .ok G ∧
          ∀ i < G.size, (G.group i).resolved = true :=
      (derivable_of_declareKeys hb hkeys).deriveFrom (by simp) (by omega)
    exact ⟨G,build_eq_ok.mpr ⟨declared,hkeys,hderived,validate_eq_ok.mpr hresolved⟩⟩

end Graph

end PhraseGrammar
