import PhraseGrammar.Proofs.Grammar
import PhraseGrammar.Proofs.Graph.WellFormed

/-! What building the graph of a grammar does: every group gets the rules that the grammar has for
its name. Graphs are compared by their contents, which leave positions out. -/
namespace PhraseGrammar

theorem eq_ok_get_toOption {ε α : Type} {x : Except ε α} (h : x.toOption.isSome) :
    x = .ok (x.toOption.get h) := by
  cases x with
  | error e => cases h
  | ok a => rfl

namespace Graph

theorem mentions_sources {g : Graph} {rules : List Rule} (h : ∀ rule ∈ rules, rule.FitsIn g) :
    Grammar.mentions (rules.map Rule.source) = .ok (ruleSymbols rules) := by
  induction rules with
  | nil => rfl
  | cons rule rules ih =>
    obtain ⟨hrule,hrules⟩ := List.forall_mem_cons.mp h
    exact Grammar.mentions_cons_eq_ok.mpr ⟨_,_,hrule.parsed,ih hrules,rfl⟩

theorem parseRules_isOk {g : Graph} {sources symbols : List String}
    (h : Grammar.mentions sources = .ok symbols) :
    ∃ rules, (g.parseRules sources).1 = .ok rules := by
  induction sources generalizing g symbols with
  | nil => exact ⟨[],rfl⟩
  | cons source sources ih =>
    obtain ⟨template,rest,ht,hrest,-⟩ := Grammar.mentions_cons_eq_ok.mp h
    obtain ⟨rules,hr⟩ := ih (g:=(g.referenceAll template.symbols).2) hrest
    exact ⟨⟨template,(g.referenceAll template.symbols).1⟩ :: rules,by
      simp [parseRules,ht,hr,Except.map]⟩

/-- The name and the rules of each group that has been declared. -/
def contents (g : Graph) : List (String × List String) :=
  (g.groups.filter Group.resolved).map fun group => (group.name,group.sources)

@[simp] theorem contents_empty : empty.contents = [] := rfl

theorem contents_mention (g : Graph) (names : List String) :
    (g.mention names).contents = g.contents := by
  simp only [contents,mention,List.filter_append,List.filter_map]
  have hnone : (Group.resolved ∘ Group.pending) = fun _ => false := rfl
  simp [hnone]

theorem contents_derivedFrom (g : Graph) (id : GroupId) (base : Option GroupId) :
    (g.update id (·.derivedFrom base)).contents = g.contents := by
  simp only [contents,update]
  induction g.groups generalizing id with
  | nil => simp
  | cons group groups ih =>
    cases id with
    | zero =>
      cases hres : group.resolved <;>
        simp [hres,Group.derivedFrom,Group.sources]
    | succ id => cases hres : group.resolved <;> simp [hres,ih id]

theorem contents_declared {g : Graph} {id : GroupId} {name : String} {rules : List Rule}
    (hid : g.names[id]? = some name) (hres : (g.group id).resolved = false) :
    (g.update id (·.declared rules)).contents.Perm
      ((name,rules.map Rule.source) :: g.contents) := by
  obtain ⟨hlt,hname⟩ := getElem?_names.mp hid
  have hget := getElem?_groups hlt
  simp only [contents,update]
  generalize g.group id = group at hget hname hres
  generalize g.groups = groups at hget
  clear hid hlt
  induction groups generalizing id with
  | nil => simp at hget
  | cons head groups ih =>
    cases id with
    | zero =>
      obtain rfl : head = group := by simpa using hget
      simp [hres,Group.declared,Group.sources,hname]
    | succ id =>
      have hperm := ih (by simpa using hget)
      cases hhead : head.resolved
      · simpa [List.filter_cons,hhead] using hperm
      · simp only [List.modify_succ_cons,List.filter_cons,hhead,if_true,List.map_cons]
        exact (hperm.cons _).trans (.swap _ _ _)

theorem mem_contents {g : Graph} {content : String × List String} :
    content ∈ g.contents ↔ ∃ id, g.names[id]? = some content.1 ∧ (g.group id).resolved = true ∧
      (g.group id).sources = content.2 := by
  simp only [contents,List.mem_map,List.mem_filter,mem_groups,getElem?_names]
  constructor
  · rintro ⟨group,⟨⟨id,hlt,rfl⟩,hres⟩,rfl⟩
    exact ⟨id,⟨hlt,rfl⟩,hres,rfl⟩
  · rintro ⟨id,⟨hlt,hname⟩,hres,hsources⟩
    exact ⟨_,⟨⟨id,hlt,rfl⟩,hres⟩,Prod.ext hname hsources⟩

theorem WellFormed.nodup_contents {g : Graph} (hg : g.WellFormed) :
    (g.contents.map Prod.fst).Nodup := by
  rw [contents,List.map_map]
  exact hg.nodup.sublist (List.filter_sublist.map Group.name)

theorem WellFormed.resolved_iff {g : Graph} (hg : g.WellFormed) {id : GroupId}
    (hlt : id < g.size) :
    (g.group id).resolved = true ↔ (g.group id).name ∈ g.contents.map Prod.fst := by
  constructor
  · intro hres
    have hmem : ((g.group id).name,(g.group id).sources) ∈ g.contents :=
      mem_contents.mpr ⟨id,getElem?_names.mpr ⟨hlt,rfl⟩,hres,rfl⟩
    exact List.mem_map_of_mem hmem
  · intro hmem
    obtain ⟨content,hcontent,hname⟩ := List.mem_map.mp hmem
    obtain ⟨other,hother,hres,-⟩ := mem_contents.mp hcontent
    rw [hname,← hg.idOf?_eq_some] at hother
    have he : other = id := Option.some.inj (hother.symm.trans (hg.idOf?_name hlt))
    exact he ▸ hres

theorem declare_ok {g g' : Graph} {name : String} {sources : List String} {id : GroupId}
    (h : g.declare name sources = (.ok id,g')) : ∃ symbols,
      Grammar.mentions sources = .ok symbols ∧ g'.names = (g.mention (name :: symbols)).names ∧
        g'.contents.Perm ((name,sources) :: g.contents) := by
  have hd := declares g name sources
  rw [h] at hd
  cases hd with
  | declared hid hres hsources hfit =>
    subst hsources
    refine ⟨_,mentions_sources hfit,names_update fun _ => rfl,?_⟩
    refine (contents_declared hid hres).trans ?_
    rw [contents_mention]

theorem declare_isOk {g : Graph} {name : String} {sources symbols : List String}
    (hname : name ∉ g.contents.map Prod.fst) (hm : Grammar.mentions sources = .ok symbols) :
    ∃ id, (g.declare name sources).1 = .ok id := by
  have hd := declares g name sources
  generalize g.declare name sources = result at hd ⊢
  cases hd with
  | @taken id hid hres =>
    have hmem : (name,(g.group id).sources) ∈ g.contents := mem_contents.mpr ⟨id,hid,hres,rfl⟩
    exact absurd (List.mem_map_of_mem hmem) hname
  | unbalanced he =>
    obtain ⟨rules,hr⟩ := parseRules_isOk (g:=g.mention [name]) hm
    rw [hr] at he
    cases he
  | @declared id => exact ⟨id,rfl⟩

/-- The contents that keys ask for. -/
def keyContents (dedup : Bool) (keys : List (String × GroupRules)) :
    List (String × List String) := keys.map fun key => (key.1,arrange dedup key.2.all)

@[simp] theorem map_fst_keyContents (dedup : Bool) (keys : List (String × GroupRules)) :
    (keyContents dedup keys).map Prod.fst = keys.map Prod.fst := by
  simp [keyContents,Function.comp_def]

variable {dedup : Bool} {keys : List (String × GroupRules)} {g G : Graph}

theorem declareKeys_cons_eq_ok {name : String} {rules : GroupRules} :
    g.declareKeys dedup ((name,rules) :: keys) = .ok G ↔ ∃ id g',
      g.declare name (arrange dedup rules.all) = (.ok id,g') ∧
        g'.declareKeys dedup keys = .ok G := by
  rw [declareKeys]
  rcases g.declare name (arrange dedup rules.all) with ⟨_ | id,g'⟩ <;> simp

theorem Reached.declareKeys (hg : g.Reached) (h : g.declareKeys dedup keys = .ok G) :
    G.Reached := by
  induction keys generalizing g with
  | nil => exact (Except.ok.inj h) ▸ hg
  | cons key keys ih =>
    obtain ⟨id,g',hd,hrest⟩ := declareKeys_cons_eq_ok.mp h
    have hg' := hg.declare key.1 (arrange dedup key.2.all)
    rw [hd] at hg'
    exact ih hg' hrest

theorem contents_declareKeys (h : g.declareKeys dedup keys = .ok G) :
    G.contents.Perm (keyContents dedup keys ++ g.contents) := by
  induction keys generalizing g with
  | nil => exact (Except.ok.inj h) ▸ .refl _
  | cons key keys ih =>
    obtain ⟨id,g',hd,hrest⟩ := declareKeys_cons_eq_ok.mp h
    obtain ⟨-,-,-,hperm⟩ := declare_ok hd
    exact ((ih hrest).trans (hperm.append_left _)).trans List.perm_middle

theorem mem_names_of_declareKeys (h : g.declareKeys dedup keys = .ok G) {name : String}
    (hname : name ∈ G.names) : name ∈ g.names ∨ ∃ key ∈ keys, name = key.1 ∨
      ∃ symbols, Grammar.mentions (arrange dedup key.2.all) = .ok symbols ∧ name ∈ symbols := by
  induction keys generalizing g with
  | nil => exact .inl (Except.ok.inj h ▸ hname)
  | cons key keys ih =>
    obtain ⟨id,g',hd,hrest⟩ := declareKeys_cons_eq_ok.mp h
    obtain ⟨symbols,hm,hnames,-⟩ := declare_ok hd
    rcases ih hrest with hg' | ⟨key',hkey',hk⟩
    · rw [hnames,mem_names_mention,List.mem_cons] at hg'
      rcases hg' with hg | rfl | hs
      · exact .inl hg
      · exact .inr ⟨key,List.mem_cons_self,.inl rfl⟩
      · exact .inr ⟨key,List.mem_cons_self,.inr ⟨symbols,hm,hs⟩⟩
    · exact .inr ⟨key',List.mem_cons_of_mem _ hkey',hk⟩

theorem Plain.declareKeys (hg : g.Plain) (h : g.declareKeys dedup keys = .ok G) : G.Plain := by
  induction keys generalizing g with
  | nil => exact (Except.ok.inj h) ▸ hg
  | cons key keys ih =>
    obtain ⟨id,g',hd,hrest⟩ := declareKeys_cons_eq_ok.mp h
    have hg' := hg.declare key.1 (arrange dedup key.2.all)
    rw [hd] at hg'
    exact ih hg' hrest

theorem declareKeys_isOk
    (hm : ∀ key ∈ keys, ∃ symbols, Grammar.mentions (arrange dedup key.2.all) = .ok symbols)
    (hnodup : (keys.map Prod.fst).Nodup)
    (hnew : ∀ key ∈ keys, key.1 ∉ g.contents.map Prod.fst) :
    ∃ G, g.declareKeys dedup keys = .ok G := by
  induction keys generalizing g with
  | nil => exact ⟨g,rfl⟩
  | cons key keys ih =>
    obtain ⟨⟨symbols,hs⟩,hrest⟩ := List.forall_mem_cons.mp hm
    obtain ⟨hkey,hkeys⟩ := List.nodup_cons.mp hnodup
    obtain ⟨id,hid⟩ := declare_isOk (hnew key List.mem_cons_self) hs
    obtain ⟨-,-,-,hperm⟩ := declare_ok (Prod.ext hid rfl)
    obtain ⟨G,hG⟩ := ih hrest hkeys (g:=(g.declare key.1 (arrange dedup key.2.all)).2)
      (fun key' hkey' hmem => by
        rcases List.mem_cons.mp ((hperm.map Prod.fst).mem_iff.mp hmem) with he | hmem
        · exact hkey (he ▸ List.mem_map_of_mem hkey')
        · exact hnew key' (List.mem_cons_of_mem _ hkey') hmem)
    exact ⟨G,declareKeys_cons_eq_ok.mpr ⟨id,_,Prod.ext hid rfl,hG⟩⟩

variable {grammar : Grammar}

theorem derive_ok {name : String} (h : g.derive grammar dedup name = .ok G) :
    ∃ rules, grammar.resolve name = .ok rules ∧
      (g.Reached → G.Reached) ∧ G.contents.Perm ((name,arrange dedup rules) :: g.contents) := by
  rw [derive] at h
  cases hr : grammar.resolve name with
  | error e => simp [hr] at h
  | ok rules =>
    simp only [hr] at h
    rcases hd : g.declare name (arrange dedup rules) with ⟨e | id,g'⟩
    · simp [hd] at h
    · simp only [hd,Except.ok.injEq] at h
      subst h
      obtain ⟨-,-,-,hperm⟩ := declare_ok hd
      refine ⟨rules,rfl,fun hg => ?_,by rwa [contents_derivedFrom]⟩
      have hg' := hg.declare name (arrange dedup rules)
      rw [hd] at hg'
      exact hg'.derivedFrom id _

/-- A name without rules can be derived, if the grammar has balanced ones for it. -/
theorem derive_isOk {name : String} {rules symbols : List String}
    (hname : name ∉ g.contents.map Prod.fst) (hr : grammar.resolve name = .ok rules)
    (hm : Grammar.mentions (arrange dedup rules) = .ok symbols) :
    ∃ G, g.derive grammar dedup name = .ok G := by
  obtain ⟨id,hid⟩ := declare_isOk hname hm
  rcases hd : g.declare name (arrange dedup rules) with ⟨e | id',g'⟩
  · rw [hd] at hid
    cases hid
  · simp only [derive,hr,hd]
    exact ⟨_,rfl⟩

theorem deriveFrom_ok {n : Nat} {id : GroupId} (h : deriveFrom grammar dedup n id g = .ok G) :
    (g.Reached → G.Reached) ∧ ∀ content ∈ G.contents, content ∈ g.contents ∨
      ∃ rules, grammar.resolve content.1 = .ok rules ∧ content.2 = arrange dedup rules := by
  induction n generalizing id g with
  | zero =>
    obtain rfl := Except.ok.inj h
    exact ⟨fun hg => hg,fun _ hc => .inl hc⟩
  | succ n ih =>
    rw [deriveFrom] at h
    split at h
    · exact ih h
    · cases hd : g.derive grammar dedup (g.group id).name with
      | error e => simp [hd] at h
      | ok g' =>
        simp only [hd] at h
        obtain ⟨rules,hr,hreached,hperm⟩ := derive_ok hd
        obtain ⟨hreached',hcontents⟩ := ih h
        refine ⟨fun hg => hreached' (hreached hg),fun content hc => ?_⟩
        rcases hcontents content hc with hg' | hrules
        · rcases List.mem_cons.mp (hperm.mem_iff.mp hg') with rfl | hg
          · exact .inr ⟨rules,hr,rfl⟩
          · exact .inl hg
        · exact .inr hrules

theorem deriveFrom_of_resolved (h : ∀ id < g.size, (g.group id).resolved = true) (n id : Nat)
    (hn : id + n ≤ g.size) : deriveFrom grammar dedup n id g = .ok g := by
  induction n generalizing id with
  | zero => rfl
  | succ n ih =>
    rw [deriveFrom,h id (by omega)]
    exact ih (id + 1) (by omega)

theorem validate_eq_ok : g.validate = .ok () ↔ ∀ id < g.size, (g.group id).resolved = true := by
  rw [validate]
  cases hf : g.groups.find? (!·.resolved) with
  | none =>
    simp only [List.find?_eq_none,mem_groups] at hf
    simpa using fun id hlt => hf _ ⟨id,hlt,rfl⟩
  | some group =>
    obtain ⟨id,hlt,hid⟩ := mem_groups.mp (List.mem_of_find?_eq_some hf)
    have hres := List.find?_some hf
    simp only [reduceCtorEq,false_iff,not_forall]
    exact ⟨id,hlt,by simpa [hid] using hres⟩

theorem build_eq_ok : build grammar dedup = .ok G ↔ ∃ declared,
    empty.declareKeys dedup grammar.groups = .ok declared ∧
      deriveFrom grammar dedup declared.size 0 declared = .ok G ∧ G.validate = .ok () := by
  rw [build]
  cases empty.declareKeys dedup grammar.groups with
  | error e => simp [bind,Except.bind]
  | ok declared =>
    simp only [bind,Except.bind,Except.ok.injEq,exists_eq_left']
    cases deriveFrom grammar dedup declared.size 0 declared with
    | error e => simp
    | ok derived =>
      cases hv : derived.validate with
      | error e =>
        simp only [hv,reduceCtorEq,false_iff,not_and,Except.ok.injEq]
        rintro rfl
        simp [hv]
      | ok =>
        simp only [hv,pure,Except.pure,Except.ok.injEq]
        constructor
        · rintro rfl
          exact ⟨rfl,hv⟩
        · exact And.left

theorem reached_of_build (h : build grammar dedup = .ok G) : G.Reached := by
  obtain ⟨declared,hkeys,hderived,-⟩ := build_eq_ok.mp h
  exact (deriveFrom_ok hderived).1 (Reached.empty.declareKeys hkeys)

theorem nodup_names_of_build (h : build grammar dedup = .ok G) : grammar.names.Nodup := by
  obtain ⟨declared,hkeys,-,-⟩ := build_eq_ok.mp h
  have hperm := (contents_declareKeys hkeys).map Prod.fst
  rw [contents_empty,List.append_nil,map_fst_keyContents] at hperm
  exact hperm.nodup_iff.mp (Reached.empty.declareKeys hkeys).wellFormed.nodup_contents

/-- Every group of a built graph has the rules that the grammar has for its name. -/
theorem sources_of_build (h : build grammar dedup = .ok G) {id : GroupId} (hlt : id < G.size) :
    ∃ rules, grammar.resolve (G.group id).name = .ok rules ∧
      (G.group id).sources = arrange dedup rules := by
  have hnodup := nodup_names_of_build h
  obtain ⟨declared,hkeys,hderived,hvalid⟩ := build_eq_ok.mp h
  have hmem : ((G.group id).name,(G.group id).sources) ∈ G.contents :=
    mem_contents.mpr ⟨id,getElem?_names.mpr ⟨hlt,rfl⟩,validate_eq_ok.mp hvalid id hlt,rfl⟩
  rcases (deriveFrom_ok hderived).2 _ hmem with hdeclared | hrules
  · rw [(contents_declareKeys hkeys).mem_iff,contents_empty,List.append_nil,keyContents,
      List.mem_map] at hdeclared
    obtain ⟨⟨name,rules⟩,hkey,he⟩ := hdeclared
    obtain ⟨hname,hsources⟩ := Prod.mk.inj he
    refine ⟨rules.all,?_,hsources.symm⟩
    rw [← hname,Grammar.resolve,Grammar.get?_of_mem hnodup hkey]
  · exact hrules

theorem build_of_closed (hnodup : grammar.names.Nodup)
    (hclosed : ∀ key ∈ grammar.groups, ∃ symbols,
      Grammar.mentions (arrange dedup key.2.all) = .ok symbols ∧
        ∀ symbol ∈ symbols, symbol ∈ grammar.names) :
    ∃ G, build grammar dedup = .ok G ∧ (∀ id, (G.group id).derived = false) ∧
      ∀ name, name ∈ G.names ↔ name ∈ grammar.names := by
  obtain ⟨G,hkeys⟩ := declareKeys_isOk (g:=empty)
    (fun key hkey => (hclosed key hkey).imp fun _ hs => hs.1) hnodup (by simp)
  have hG := (Reached.empty.declareKeys hkeys).wellFormed
  have hperm := (contents_declareKeys hkeys).map Prod.fst
  rw [contents_empty,List.append_nil,map_fst_keyContents] at hperm
  have hkey {name : String} (hname : name ∈ G.names) : name ∈ grammar.names := by
    rcases mem_names_of_declareKeys hkeys hname with he | ⟨key,hmem,rfl | ⟨symbols,hm,hs⟩⟩
    · simp at he
    · exact List.mem_map_of_mem hmem
    · obtain ⟨symbols',hm',hclosed'⟩ := hclosed key hmem
      obtain rfl := Except.ok.inj (hm.symm.trans hm')
      exact hclosed' name hs
  have hresolved {name : String} (hname : name ∈ grammar.names) :
      ∃ id, G.names[id]? = some name ∧ (G.group id).resolved = true := by
    obtain ⟨content,hmem,rfl⟩ := List.mem_map.mp (hperm.mem_iff.mpr hname)
    obtain ⟨id,hid,hres,-⟩ := mem_contents.mp hmem
    exact ⟨id,hid,hres⟩
  have hall : ∀ id < G.size, (G.group id).resolved = true := by
    intro id hlt
    have hid := getElem?_names.mpr ⟨hlt,rfl⟩
    obtain ⟨id',hid',hres⟩ := hresolved (hkey (List.mem_of_getElem? hid))
    rw [← hG.idOf?_eq_some] at hid hid'
    exact Option.some.inj (hid.symm.trans hid') ▸ hres
  refine ⟨G,build_eq_ok.mpr ⟨G,hkeys,?_,validate_eq_ok.mpr hall⟩,?_,fun name => ⟨hkey,?_⟩⟩
  · exact deriveFrom_of_resolved hall _ _ (by omega)
  · exact fun id => (plain_empty.declareKeys hkeys id).1
  · intro hname
    obtain ⟨id,hid,-⟩ := hresolved hname
    exact List.mem_of_getElem? hid

end Graph

end PhraseGrammar
