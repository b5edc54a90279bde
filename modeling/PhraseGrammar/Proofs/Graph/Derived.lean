import PhraseGrammar.Proofs.Graph.Build
import PhraseGrammar.Proofs.Template

/-! What a successful build contains. Keys put every name in its place; deriving then gives rules to
the groups that wait for them and adds no name, since the rules it takes from a base mention only
what the base does. -/
namespace PhraseGrammar

@[simp] theorem mem_arrange {dedup : Bool} {rules : List String} {rule : String} :
    rule ∈ arrange dedup rules ↔ rule ∈ rules := by
  cases dedup <;> simp [arrange]

namespace Graph

variable {grammar : Grammar} {dedup : Bool} {g G : Graph}

/-- Each key followed by what its rules mention, in order. -/
def keyMentions (dedup : Bool) : List (String × GroupRules) → Except Error (List String)
  | [] => .ok []
  | (name,rules) :: keys => do
    let symbols ← Grammar.mentions (arrange dedup rules.all)
    return name :: symbols ++ (← keyMentions dedup keys)

theorem keyMentions_cons_eq_ok {key : String × GroupRules} {keys : List (String × GroupRules)}
    {sequence : List String} : keyMentions dedup (key :: keys) = .ok sequence ↔ ∃ symbols rest,
      Grammar.mentions (arrange dedup key.2.all) = .ok symbols ∧
        keyMentions dedup keys = .ok rest ∧ sequence = key.1 :: symbols ++ rest := by
  rw [keyMentions]
  cases Grammar.mentions (arrange dedup key.2.all) with
  | error e => simp [bind,Except.bind]
  | ok symbols =>
    cases keyMentions dedup keys with
    | error e => simp [bind,Except.bind]
    | ok rest => simp [bind,Except.bind,pure,Except.pure,eq_comm]

theorem mem_keyMentions {keys : List (String × GroupRules)} {sequence : List String}
    (h : keyMentions dedup keys = .ok sequence) {name : String} :
    name ∈ sequence ↔ ∃ key ∈ keys, name = key.1 ∨ ∃ rule ∈ key.2.all, ∃ template,
      Template.parse rule = .ok template ∧ name ∈ template.symbols := by
  induction keys generalizing sequence with
  | nil =>
    obtain rfl := Except.ok.inj h
    simp
  | cons key keys ih =>
    obtain ⟨symbols,rest,hs,hrest,rfl⟩ := keyMentions_cons_eq_ok.mp h
    have hsymbols : name ∈ symbols ↔ ∃ rule ∈ key.2.all, ∃ template,
        Template.parse rule = .ok template ∧ name ∈ template.symbols := by
      rw [Grammar.mem_mentions hs]
      simp only [mem_arrange]
    simp only [List.mem_append,List.mem_cons,hsymbols,ih hrest,or_and_right,exists_or,
      exists_eq_left]

theorem names_mention_congr {g h : Graph} (hn : g.names = h.names) (names : List String) :
    (g.mention names).names = (h.mention names).names := by
  rw [names_mention,names_mention,hn]

theorem names_declareKeys {keys : List (String × GroupRules)}
    (h : g.declareKeys dedup keys = .ok G) :
    ∃ sequence, keyMentions dedup keys = .ok sequence ∧ G.names = (g.mention sequence).names := by
  induction keys generalizing g with
  | nil =>
    obtain rfl := Except.ok.inj h
    exact ⟨[],rfl,by simp⟩
  | cons key keys ih =>
    obtain ⟨id,g',hd,hrest⟩ := declareKeys_cons_eq_ok.mp h
    obtain ⟨symbols,hs,hnames,-⟩ := declare_ok hd
    obtain ⟨sequence,hsequence,hG⟩ := ih hrest
    refine ⟨_,keyMentions_cons_eq_ok.mpr ⟨symbols,sequence,hs,hsequence,rfl⟩,?_⟩
    rw [hG,names_mention_congr hnames,mention_mention]

/-- The names hold whatever the keys' rules mention. -/
def Covers (grammar : Grammar) (dedup : Bool) (names : List String) : Prop :=
  ∀ key ∈ grammar.groups, ∃ symbols,
    Grammar.mentions (arrange dedup key.2.all) = .ok symbols ∧ symbols ⊆ names

theorem covers_of_keyMentions {keys : List (String × GroupRules)} {sequence : List String}
    (h : keyMentions dedup keys = .ok sequence) : ∀ key ∈ keys, ∃ symbols,
      Grammar.mentions (arrange dedup key.2.all) = .ok symbols ∧ symbols ⊆ sequence := by
  induction keys generalizing sequence with
  | nil => simp
  | cons key keys ih =>
    obtain ⟨symbols,rest,hs,hrest,rfl⟩ := keyMentions_cons_eq_ok.mp h
    refine List.forall_mem_cons.mpr ⟨⟨symbols,hs,by simp⟩,fun other hother => ?_⟩
    obtain ⟨symbols',hs',hsub⟩ := ih hrest other hother
    exact ⟨symbols',hs',List.subset_append_of_subset_right _ hsub⟩

theorem Covers.symbols_subset {names : List String} (hc : Covers grammar dedup names)
    {name : String} {rules symbols : List String} (hname : grammar.get? name = none)
    (hr : grammar.resolve name = .ok rules)
    (hs : Grammar.mentions (arrange dedup rules) = .ok symbols) : symbols ⊆ names := by
  obtain ⟨gender,grouped,candidates,hbase,hcandidates,hrules⟩ :=
    Grammar.exists_candidates_of_resolve hname hr
  obtain ⟨before,after,hgroups,-⟩ := List.lookup_eq_some_iff.mp hbase
  obtain ⟨known,hknown,hsub⟩ := hc ((SymbolName.parse name).base,.gendered grouped)
    (by simp [hgroups])
  intro symbol hsymbol
  obtain ⟨source,hsource,template,ht,hmem⟩ := (Grammar.mem_mentions hs).mp hsymbol
  rw [mem_arrange] at hsource
  obtain ⟨item,hitem,bare,hbare,hsymbols⟩ : ∃ item ∈ candidates, ∃ bare,
      Template.parse item = .ok bare ∧ bare.symbols = template.symbols := by
    rcases hrules with rfl | ⟨d,rfl⟩
    · exact ⟨source,hsource,template,ht,rfl⟩
    · obtain ⟨item,hitem,rfl⟩ := List.mem_map.mp hsource
      exact ⟨item,hitem,Determiner.symbols_parse_apply ht⟩
  have hall := Grammar.candidates_subset_all hcandidates hitem
  exact hsub ((Grammar.mem_mentions hknown).mpr
    ⟨item,mem_arrange.mpr hall,bare,hbare,hsymbols ▸ hmem⟩)

theorem mention_eq_self {names : List String} (h : names ⊆ g.names) : g.mention names = g := by
  have hn : names.removeAll g.names = [] := by
    simpa [List.removeAll] using fun name hname => h hname
  simp [mention,hn]

/-- The group after the pass: kept, or given the rules that its name asks for. -/
inductive Settles (grammar : Grammar) (dedup : Bool) (g : Graph) : Group → Group → Prop
  | kept (group : Group) : Settles grammar dedup g group group
  | derived {group : Group} {rules : List Rule} {sources : List String}
    (hres : group.resolved = false) (hr : grammar.resolve group.name = .ok sources)
    (hsources : rules.map Rule.source = arrange dedup sources) :
    Settles grammar dedup g group
      ((group.declared rules).derivedFrom (g.idOf? (SymbolName.parse group.name).base))

theorem Settles.name_eq {group group' : Group} (h : Settles grammar dedup g group group') :
    group'.name = group.name := by
  cases h <;> rfl

theorem Settles.of_resolved {group group' : Group} (h : Settles grammar dedup g group group')
    (hres : group.resolved = true) : group' = group := by
  cases h with
  | kept => rfl
  | derived hres' => simp [hres] at hres'

theorem Settles.waits {group group' : Group} (h : Settles grammar dedup g group group')
    (hres : group'.resolved = false) : group.resolved = false := by
  cases h with
  | kept => exact hres
  | derived hres' => exact hres'

theorem Settles.congr {g' : Graph} (hn : g'.names = g.names) {group group' : Group}
    (h : Settles grammar dedup g' group group') : Settles grammar dedup g group group' := by
  cases h with
  | kept => exact .kept group
  | derived hres hr hsources =>
    have hid : g'.idOf? (SymbolName.parse group.name).base =
        g.idOf? (SymbolName.parse group.name).base := by rw [idOf?,idOf?,hn]
    rw [hid]
    exact .derived hres hr hsources

theorem Settles.trans {group group' group'' : Group} (h : Settles grammar dedup g group group')
    (h' : Settles grammar dedup g group' group'') : Settles grammar dedup g group group'' := by
  cases h with
  | kept => exact h'
  | derived hres hr hsources =>
    rw [h'.of_resolved rfl]
    exact .derived hres hr hsources

theorem derive_settles (hc : Covers grammar dedup g.names) {name : String}
    (hname : name ∈ g.names) (hkey : grammar.get? name = none)
    (h : g.derive grammar dedup name = .ok G) :
    G.names = g.names ∧ ∀ i, Settles grammar dedup g (g.group i) (G.group i) := by
  rw [derive] at h
  cases hr : grammar.resolve name with
  | error e => simp [hr] at h
  | ok sources =>
    simp only [hr] at h
    have hd := declares g name (arrange dedup sources)
    generalize g.declare name (arrange dedup sources) = result at h hd
    cases hd with
    | taken => cases h
    | unbalanced => cases h
    | @declared id rules hid hres hsources hfit =>
      have hmentions := mentions_sources hfit
      rw [hsources] at hmentions
      have hself : g.mention (name :: ruleSymbols rules) = g :=
        mention_eq_self (List.cons_subset.mpr ⟨hname,hc.symbols_subset hkey hr hmentions⟩)
      rw [hself] at h hid hres
      obtain rfl := Except.ok.inj h
      have hn : (g.update id (·.declared rules)).names = g.names := names_update fun _ => rfl
      have hsize : (g.update id (·.declared rules)).size = g.size := size_eq_of_names hn
      refine ⟨(names_update (f:=(·.derivedFrom _)) fun _ => rfl).trans hn,fun i => ?_⟩
      rw [group_update_eq,group_update_eq,hsize]
      by_cases hi : id = i ∧ i < g.size
      · obtain ⟨rfl,hlt⟩ := hi
        have hgroup := (getElem?_names.mp hid).2
        simp only [true_and,hlt,if_true]
        rw [← hgroup] at hr ⊢
        exact .derived hres hr hsources
      · simp only [hi,if_false]
        exact .kept _

theorem lt_size_of_conventional {id : GroupId}
    (h : (SymbolName.parse (g.group id).name).conventional = true) : id < g.size := by
  by_contra hge
  rw [group_of_size_le (Nat.le_of_not_lt hge)] at h
  revert h
  decide

/-- The pass keeps every name, and each group is settled by it once. -/
theorem deriveFrom_settles {n : Nat} {id : GroupId} (hc : Covers grammar dedup g.names)
    (hkey : ∀ i < g.size, (g.group i).resolved = false → grammar.get? (g.group i).name = none)
    (h : deriveFrom grammar dedup n id g = .ok G) :
    G.names = g.names ∧ ∀ i, Settles grammar dedup g (g.group i) (G.group i) := by
  induction n generalizing id g with
  | zero =>
    obtain rfl := Except.ok.inj h
    exact ⟨rfl,fun i => .kept _⟩
  | succ n ih =>
    rw [deriveFrom] at h
    split at h
    · exact ih hc hkey h
    · rename_i hpending
      obtain ⟨hres,hconv⟩ : (g.group id).resolved = false ∧
          (SymbolName.parse (g.group id).name).conventional = true := by simpa using hpending
      have hlt : id < g.size := lt_size_of_conventional hconv
      cases hd : g.derive grammar dedup (g.group id).name with
      | error e => simp [hd] at h
      | ok g' =>
        simp only [hd] at h
        have hname : (g.group id).name ∈ g.names := group_name_mem_names hlt
        obtain ⟨hn,hs⟩ := derive_settles hc hname (hkey id hlt hres) hd
        have hsize : g'.size = g.size := size_eq_of_names hn
        have hkey' : ∀ i < g'.size, (g'.group i).resolved = false →
            grammar.get? (g'.group i).name = none := by
          intro i hi hres'
          rw [(hs i).name_eq]
          exact hkey i (hsize ▸ hi) ((hs i).waits hres')
        obtain ⟨hn',hs'⟩ := ih (hn ▸ hc) hkey' h
        exact ⟨hn'.trans hn,fun i => (hs i).trans ((hs' i).congr hn)⟩

theorem deriveFrom_of_size_le {n : Nat} {id : GroupId} (h : g.size ≤ id) :
    deriveFrom grammar dedup n id g = .ok g := by
  induction n generalizing id with
  | zero => rfl
  | succ n ih =>
    have hskip : (SymbolName.parse "").conventional = false := by decide
    rw [deriveFrom,group_of_size_le h]
    simp only [Group.pending,hskip,Bool.not_false,Bool.or_true,if_true]
    exact ih (Nat.le_succ_of_le h)

theorem deriveFrom_of_le {n m : Nat} {id : GroupId} (h : deriveFrom grammar dedup n id g = .ok G)
    (hend : G.size ≤ id + n) (hle : n ≤ m) : deriveFrom grammar dedup m id g = .ok G := by
  induction n generalizing id g m with
  | zero =>
    obtain rfl := Except.ok.inj h
    exact deriveFrom_of_size_le hend
  | succ n ih =>
    obtain ⟨m,rfl⟩ := Nat.exists_eq_add_one.mpr (Nat.lt_of_lt_of_le (Nat.succ_pos n) hle)
    have hend' : G.size ≤ id + 1 + n := by omega
    rw [deriveFrom] at h ⊢
    split at h
    · rename_i hskip
      rw [if_pos hskip]
      exact ih h hend' (Nat.le_of_succ_le_succ hle)
    · rename_i hskip
      rw [if_neg hskip]
      cases hd : g.derive grammar dedup (g.group id).name with
      | error e => simp [hd] at h
      | ok g' =>
        simp only [hd] at h
        exact ih h hend' (Nat.le_of_succ_le_succ hle)

theorem resolved_of_declareKeys {keys : List (String × GroupRules)}
    (h : empty.declareKeys dedup keys = .ok G) {id : GroupId} (hlt : id < G.size) :
    (G.group id).resolved = true ↔ (G.group id).name ∈ keys.map Prod.fst := by
  have hperm := (contents_declareKeys h).map Prod.fst
  rw [contents_empty,List.append_nil,map_fst_keyContents] at hperm
  rw [(Reached.empty.declareKeys h).wellFormed.resolved_iff hlt,hperm.mem_iff]

theorem exists_base_of_resolve (h : empty.declareKeys dedup grammar.groups = .ok G) {name : String}
    {rules : List String} (hname : name ∉ grammar.names) (hr : grammar.resolve name = .ok rules) :
    ∃ base grouped, G.idOf? (SymbolName.parse name).base = some base ∧
      grammar.get? (SymbolName.parse name).base = some (.gendered grouped) ∧
      (G.group base).resolved = true := by
  obtain ⟨gender,grouped,candidates,hbase,-,-⟩ :=
    Grammar.exists_candidates_of_resolve (Grammar.get?_eq_none.mpr hname) hr
  have hperm := (contents_declareKeys h).map Prod.fst
  rw [contents_empty,List.append_nil,map_fst_keyContents] at hperm
  obtain ⟨content,hcontent,he⟩ :=
    List.mem_map.mp (hperm.mem_iff.mpr (Grammar.mem_names_of_get? hbase))
  obtain ⟨base,hid,hres,-⟩ := mem_contents.mp hcontent
  rw [he,← (Reached.empty.declareKeys h).wellFormed.idOf?_eq_some] at hid
  exact ⟨base,grouped,hid,hbase,hres⟩

/-- The names of the declared keys are those that the keys give, and hold what the rules mention. -/
theorem exists_sequence_of_declareKeys (h : empty.declareKeys dedup grammar.groups = .ok G) :
    ∃ sequence, keyMentions dedup grammar.groups = .ok sequence ∧
      G.names = sequence.eraseDups ∧ Covers grammar dedup G.names := by
  obtain ⟨sequence,hsequence,hnames⟩ := names_declareKeys h
  have hdedup : G.names = sequence.eraseDups := by
    rw [hnames,names_mention]
    simp [List.removeAll]
  refine ⟨sequence,hsequence,hdedup,fun key hkey => ?_⟩
  obtain ⟨symbols,hs,hsub⟩ := covers_of_keyMentions hsequence key hkey
  exact ⟨symbols,hs,fun symbol hsymbol => hdedup ▸ List.mem_eraseDups.mpr (hsub hsymbol)⟩

theorem pending_of_declareKeys (h : empty.declareKeys dedup grammar.groups = .ok G)
    {id : GroupId} (hlt : id < G.size) (hres : (G.group id).resolved = false) :
    grammar.get? (G.group id).name = none := by
  refine Grammar.get?_eq_none.mpr fun hmem => ?_
  rw [(resolved_of_declareKeys h hlt).mpr hmem] at hres
  cases hres

theorem settles_of_build (h : build grammar dedup = .ok G) : ∃ declared sequence,
    empty.declareKeys dedup grammar.groups = .ok declared ∧
      keyMentions dedup grammar.groups = .ok sequence ∧ declared.names = sequence.eraseDups ∧
      G.names = declared.names ∧
      ∀ i, Settles grammar dedup declared (declared.group i) (G.group i) := by
  obtain ⟨declared,hkeys,hderived,-⟩ := build_eq_ok.mp h
  obtain ⟨sequence,hsequence,hdedup,hcovers⟩ := exists_sequence_of_declareKeys hkeys
  obtain ⟨hn,hs⟩ := deriveFrom_settles hcovers (fun _ => pending_of_declareKeys hkeys) hderived
  exact ⟨declared,sequence,hkeys,hsequence,hdedup,hn,hs⟩

theorem key_or_derived_of_build (h : build grammar dedup = .ok G) {id : GroupId}
    (hlt : id < G.size) :
    ((G.group id).name ∈ grammar.names ∧ (G.group id).derived = false ∧
      (G.group id).base = none) ∨
    ((G.group id).name ∉ grammar.names ∧ (G.group id).derived = true ∧
      ∃ base rules, (G.group id).base = some base ∧
        G.idOf? (SymbolName.parse (G.group id).name).base = some base ∧
        grammar.get? (SymbolName.parse (G.group id).name).base = some (.gendered rules) ∧
        (G.group base).resolved = true ∧ (G.group base).derived = false) := by
  obtain ⟨declared,-,hkeys,-,-,hn,hs⟩ := settles_of_build h
  obtain ⟨-,-,-,hvalid⟩ := build_eq_ok.mp h
  have hresolved := validate_eq_ok.mp hvalid id hlt
  have hplain := plain_empty.declareKeys hkeys
  have hkey : (declared.group id).resolved = true ↔ (declared.group id).name ∈ grammar.names :=
    resolved_of_declareKeys hkeys (size_eq_of_names hn ▸ hlt)
  have hsettles := hs id
  have hp := hplain id
  generalize G.group id = group' at hsettles hresolved ⊢
  generalize declared.group id = group at hsettles hkey hp
  cases hsettles with
  | kept => exact .inl ⟨hkey.mp hresolved,hp⟩
  | derived hres hr hsources =>
    have hname : group.name ∉ grammar.names := fun hmem => by simp [hkey.mpr hmem] at hres
    obtain ⟨base,grouped,hbase,hgrouped,hbaseRes⟩ := exists_base_of_resolve hkeys hname hr
    have hkept := (hs base).of_resolved hbaseRes
    have hidOf : G.idOf? (SymbolName.parse group.name).base = some base := by
      rw [idOf?,hn]
      exact hbase
    exact .inr ⟨hname,rfl,base,grouped,hbase,hidOf,hgrouped,hkept ▸ hbaseRes,
      hkept ▸ (hplain base).1⟩

theorem derived_eq_false_iff (h : build grammar dedup = .ok G) {id : GroupId} (hlt : id < G.size) :
    (G.group id).derived = false ↔ (G.group id).name ∈ grammar.names := by
  rcases key_or_derived_of_build h hlt with ⟨hname,hderived,-⟩ | ⟨hname,hderived,-⟩
  · exact iff_of_true hderived hname
  · exact iff_of_false (by simp [hderived]) hname

/-- A built graph has the names that keys and their rules mention, in order of first mention, and
every group has the rules that the grammar has for its name. The groups that are no keys are the
derived ones, and each notes the gendered group that its rules come from. -/
theorem groups_of_build (h : build grammar dedup = .ok G) :
    (∃ declared sequence, empty.declareKeys dedup grammar.groups = .ok declared ∧
      keyMentions dedup grammar.groups = .ok sequence ∧ declared.names = sequence.eraseDups ∧
      G.names = declared.names ∧
      ∀ n, G.size ≤ n → deriveFrom grammar dedup n 0 declared = .ok G) ∧
    ∀ id < G.size, (G.group id).resolved = true ∧
      (∃ rules, grammar.resolve (G.group id).name = .ok rules ∧
        (G.group id).sources = arrange dedup rules) ∧
      ((G.group id).derived = true ↔ (G.group id).name ∉ grammar.names) ∧
      ((G.group id).derived = true → ∃ base rules, (G.group id).base = some base ∧
        G.idOf? (SymbolName.parse (G.group id).name).base = some base ∧
        grammar.get? (SymbolName.parse (G.group id).name).base = some (.gendered rules) ∧
        (G.group base).resolved = true ∧ (G.group base).derived = false) ∧
      ((G.group id).derived = false → (G.group id).base = none) := by
  obtain ⟨declared,sequence,hkeys,hsequence,hdedup,hn,-⟩ := settles_of_build h
  obtain ⟨declared',hkeys',hderived,hvalid⟩ := build_eq_ok.mp h
  obtain rfl := Except.ok.inj (hkeys.symm.trans hkeys')
  have hsize : G.size = declared.size := size_eq_of_names hn
  refine ⟨⟨declared,sequence,hkeys,hsequence,hdedup,hn,fun n hle => ?_⟩,fun id hlt => ?_⟩
  · exact deriveFrom_of_le hderived (by omega) (by omega)
  · refine ⟨validate_eq_ok.mp hvalid id hlt,sources_of_build h hlt,?_⟩
    rcases key_or_derived_of_build h hlt with ⟨hname,hd,hbase⟩ | ⟨hname,hd,hfrom⟩
    · simp [hd,hname,hbase]
    · exact ⟨iff_of_true hd hname,fun _ => hfrom,fun hfalse => by simp [hd] at hfalse⟩

/-- One of its keys is named like a derived group, and one group is mentioned by a base only. -/
def bestiary : Grammar :=
  ⟨[("origin",.flat ["#pronomdef_animal_masc.capitalize# dort","#adj_fem#"]),
    ("animal",.gendered ⟨some ["ours #late#","chat"],none,some ["aigle"]⟩),
    ("adj_fem",.flat ["belle"]),("late",.flat [])],[]⟩

theorem groups_of_build_bestiary : ∃ G base, build bestiary false = .ok G ∧
    G.names = ["origin","pronomdef_animal_masc","adj_fem","animal","late"] ∧
    (G.group 2).derived = false ∧ (G.group 2).base = none ∧
    (G.group 1).derived = true ∧ (G.group 1).base = some base ∧ G.idOf? "animal" = some base ∧
    (G.group 1).sources = ["l'ours #late#","le chat","l'aigle"] := by
  have hbuilt : (build bestiary false).map (fun G => (G.size,(G.group 1).name,(G.group 2).name)) =
      .ok (5,"pronomdef_animal_masc","adj_fem") := by decide +kernel
  have hsequence : keyMentions false bestiary.groups = .ok ["origin","pronomdef_animal_masc",
      "adj_fem","animal","late","adj_fem","late"] := by decide +kernel
  have hresolve : bestiary.resolve "pronomdef_animal_masc" =
      .ok ["l'ours #late#","le chat","l'aigle"] := by decide +kernel
  have hbase : (SymbolName.parse "pronomdef_animal_masc").base = "animal" := by decide
  cases hG : build bestiary false with
  | error e => simp [hG,Except.map] at hbuilt
  | ok G =>
    simp only [hG,Except.map,Except.ok.injEq,Prod.mk.injEq] at hbuilt
    obtain ⟨hsize,hname1,hname2⟩ := hbuilt
    obtain ⟨⟨declared,sequence,-,hs,hdedup,hnames,-⟩,hgroups⟩ := groups_of_build hG
    obtain ⟨-,⟨rules,hr,hsources⟩,hderived1,hfrom,-⟩ := hgroups 1 (by omega)
    obtain ⟨-,-,hderived2,-,hplain2⟩ := hgroups 2 (by omega)
    rw [hname1] at hr hderived1 hfrom
    rw [hname2] at hderived2
    obtain rfl := Except.ok.inj (hsequence.symm.trans hs)
    obtain rfl := Except.ok.inj (hresolve.symm.trans hr)
    have hd1 := hderived1.mpr (by decide)
    have hd2 : (G.group 2).derived = false := by
      rw [← Bool.not_eq_true,hderived2]
      decide
    obtain ⟨base,-,hb,hid,-⟩ := hfrom hd1
    rw [hbase] at hid
    refine ⟨G,base,rfl,?_,hd2,hplain2 hd2,hd1,hb,hid,hsources⟩
    rw [hnames,hdedup]
    decide

end Graph

end PhraseGrammar
