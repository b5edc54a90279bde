import PhraseGrammar.Proofs.Graph.Partway

/-! Why a grammar has no graph. Keys, pending groups and missing ones are looked at in three phases
over one graph; all three follow the order in which rules first mention a name, because keys that
come in between are never at fault. -/
namespace PhraseGrammar
namespace Graph

open Grammar

variable {grammar : Grammar} {dedup : Bool} {g G : Graph}

theorem splitLastDot_eq_some {name base ending : List Char} :
    splitLastDot name = some (base,ending) ↔ name = base ++ '.' :: ending ∧ '.' ∉ ending := by
  have hsplit := List.takeWhile_append_dropWhile (p:=(· != '.')) (l:=name.reverse)
  constructor
  · intro h
    rw [splitLastDot] at h
    cases hdrop : name.reverse.dropWhile (· != '.') with
    | nil => simp [hdrop] at h
    | cons c before =>
      obtain ⟨rfl,rfl⟩ : before.reverse = base ∧
          (name.reverse.takeWhile (· != '.')).reverse = ending := by simpa [hdrop] using h
      have hdot : c = '.' := by
        have hhead := List.head?_dropWhile_not (· != '.') name.reverse
        simpa [hdrop] using hhead
      rw [hdrop,hdot] at hsplit
      refine ⟨by simpa using (congrArg List.reverse hsplit).symm,fun hmem => ?_⟩
      have hkept := List.all_eq_true.mp (List.all_takeWhile (l:=name.reverse)) '.'
        (List.mem_reverse.mp hmem)
      cases hkept
  · rintro ⟨rfl,hending⟩
    have hne : ∀ c ∈ ending.reverse, (c != '.') = true := fun c hc =>
      bne_iff_ne.mpr fun he => hending (he ▸ List.mem_reverse.mp hc)
    rw [splitLastDot,List.reverse_append,List.reverse_cons,List.append_assoc,
      List.dropWhile_append_of_pos hne,List.takeWhile_append_of_pos hne]
    simp

/-- The name ends in what could be a modifier of a group that has its rules, but is none. -/
def Misplaced (g : Graph) (name base modifier : String) : Prop :=
  name = base ++ "." ++ modifier ∧ '.' ∉ modifier.toList ∧
    modifier ∉ Modifier.all.map Modifier.name ∧
      ∃ group, g.get? base = some group ∧ group.resolved = true

theorem Misplaced.missing {name base modifier : String} (h : g.Misplaced name base modifier) :
    g.missing name = .unsupportedModifier name modifier := by
  obtain ⟨hname,hdot,hknown,group,hgroup,hres⟩ := h
  have hsplit : splitLastDot name.toList = some (base.toList,modifier.toList) :=
    splitLastDot_eq_some.mpr ⟨by simp [hname],hdot⟩
  simp only [Graph.missing,hsplit,String.ofList_toList,List.contains_eq_mem,decide_eq_true_eq,
    if_neg hknown,hgroup,hres,if_true]

theorem missing_of_not_misplaced {name : String}
    (h : ∀ base modifier, ¬ g.Misplaced name base modifier) :
    g.missing name = .unresolvedGroup name := by
  rw [missing]
  cases hsplit : splitLastDot name.toList with
  | none => rfl
  | some parts =>
    obtain ⟨base,ending⟩ := parts
    obtain ⟨hname,hdot⟩ := splitLastDot_eq_some.mp hsplit
    have hname : name = String.ofList base ++ "." ++ String.ofList ending := by
      rw [← String.ofList_toList (s:=name),hname]
      simp [String.ofList_append,String.append_assoc]
    simp only [List.contains_eq_mem,decide_eq_true_eq]
    by_cases hknown : String.ofList ending ∈ Modifier.all.map Modifier.name
    · rw [if_pos hknown]
    · rw [if_neg hknown]
      cases hgroup : g.get? (String.ofList base) with
      | none => rfl
      | some group =>
        cases hres : group.resolved with
        | false => simp [hres]
        | true =>
          exact absurd ⟨hname,by simpa using hdot,hknown,group,hgroup,hres⟩
            (h (String.ofList base) (String.ofList ending))

theorem Partway.not_resolved (h : Partway grammar dedup G)
    (hleft : ∀ i < G.size, (G.group i).resolved = false →
      (SymbolName.parse (G.group i).name).conventional = false) {i : GroupId} (hi : i < G.size) :
    (!(G.group i).resolved) = grammar.foreign (G.group i).name := by
  cases hres : (G.group i).resolved with
  | false => exact (foreign_eq_true.mpr ⟨h.pending i hi hres,hleft i hi hres⟩).symm
  | true =>
    obtain ⟨rules,hr⟩ := h.answered i hi hres
    refine Eq.symm (Bool.eq_false_iff.mpr fun hforeign => ?_)
    obtain ⟨hget,hconv⟩ := foreign_eq_true.mp hforeign
    rw [conventional_of_resolve hget hr] at hconv
    cases hconv

theorem Partway.validate (h : Partway grammar dedup G)
    (hleft : ∀ i < G.size, (G.group i).resolved = false →
      (SymbolName.parse (G.group i).name).conventional = false) :
    G.validate = match G.names.find? grammar.foreign with
      | none => .ok ()
      | some name => .error (G.missing name) := by
  have hfind : G.groups.find? (!·.resolved) =
      G.groups.find? fun group => grammar.foreign group.name := by
    refine List.find?_congr fun group hgroup => ?_
    obtain ⟨i,hi,rfl⟩ := mem_groups.mp hgroup
    exact h.not_resolved hleft hi
  rw [Graph.validate,hfind,names,List.find?_map]
  simp only [Function.comp_def]
  cases G.groups.find? fun group => grammar.foreign group.name <;> rfl

theorem Partway.misplaced_iff (h : Partway grammar dedup G)
    (hleft : ∀ i < G.size, (G.group i).resolved = false →
      (SymbolName.parse (G.group i).name).conventional = false) {symbols : List String}
    (hnames : ∀ name, name ∈ G.names ↔ name ∈ grammar.names ∨ name ∈ symbols)
    {name modifier : String} :
    (∃ base, G.Misplaced name base modifier) ↔ grammar.Misapplies symbols name modifier := by
  have hknown (base : String) : (∃ group, G.get? base = some group ∧ group.resolved = true) ↔
      grammar.Known symbols base := by
    rw [get?]
    cases hid : G.idOf? base with
    | none =>
      have hmem := mt (hnames base).mpr (idOf?_eq_none.mp hid)
      simp only [Option.map_none,reduceCtorEq,false_and,exists_false,Known,false_iff]
      exact fun hor => hmem (hor.imp_right And.left)
    | some id =>
      obtain ⟨hi,hname⟩ := getElem?_names.mp (getElem?_names_of_idOf? hid)
      have hres := h.not_resolved hleft hi
      have hmem := (hnames base).mp (mem_names_of_idOf? hid)
      rw [hname,foreign,contains,List.contains_eq_mem] at hres
      simp only [Option.map_some,Option.some.injEq,exists_eq_left',Known]
      by_cases hkey : base ∈ grammar.names
      · simpa [hkey] using hres
      · simpa [hkey,hmem.resolve_left hkey] using hres
  simp only [Misplaced,Misapplies,hknown]

theorem build_eq : build grammar dedup = (empty.declareKeys dedup grammar.groups).bind
    fun declared => (deriveFrom grammar dedup declared.size 0 declared).bind
      fun derived => derived.validate.map fun _ => derived := by
  rw [build]
  cases empty.declareKeys dedup grammar.groups with
  | error e => rfl
  | ok declared =>
    cases hd : deriveFrom grammar dedup declared.size 0 declared with
    | error e => simp [bind,Except.bind,hd]
    | ok derived =>
      cases hv : derived.validate <;> simp [bind,Except.bind,Except.map,hd,hv,pure,Except.pure]

/-- Without stray names it is the pass that ends and the last look that may find a foreign one. -/
theorem build_of_answered (hnodup : grammar.names.Nodup) {symbols : List String}
    (hsymbols : mentions (keyRules dedup grammar.groups) = .ok symbols)
    (hstray : symbols.find? grammar.stray = none) : ∃ G : Graph,
    (build grammar dedup = match symbols.find? grammar.foreign with
      | none => .ok G
      | some name => .error (G.missing name)) ∧
    ∀ name modifier, (∃ base, G.Misplaced name base modifier) ↔
      grammar.Misapplies symbols name modifier := by
  obtain ⟨declared,hkeys,hpart,hfind,hnames⟩ := declareKeys_of_mentions hnodup hsymbols
  have hanswered : ∀ name ∈ declared.names, grammar.stray name = false := by
    rw [← hfind _ fun name hname => stray_of_mem hname,List.find?_eq_none] at hstray
    simpa using hstray
  obtain ⟨G,hG,hpartG,hsame,hleft⟩ : ∃ G,
      deriveFrom grammar dedup declared.size 0 declared = .ok G ∧ Partway grammar dedup G ∧
        G.names = declared.names ∧ ∀ i < G.size, (G.group i).resolved = false →
          (SymbolName.parse (G.group i).name).conventional = false :=
    hpart.deriveFrom_done hanswered (fun i _ hlt => absurd hlt (Nat.not_lt_zero i)) (by omega)
  refine ⟨G,?_,fun name modifier => hpartG.misplaced_iff hleft fun name => hsame ▸ hnames name⟩
  rw [build_eq,hkeys]
  simp only [Except.bind,hG,hpartG.validate hleft,hsame,
    hfind _ fun name hname => foreign_of_mem hname]
  cases symbols.find? grammar.foreign <;> rfl

theorem build_of_stray (hnodup : grammar.names.Nodup) {symbols : List String}
    (hsymbols : mentions (keyRules dedup grammar.groups) = .ok symbols) {name : String}
    (hname : symbols.find? grammar.stray = some name) {e : Error}
    (he : grammar.resolve name = .error e) : build grammar dedup = .error e := by
  obtain ⟨declared,hkeys,hpart,hfind,-⟩ := declareKeys_of_mentions hnodup hsymbols
  rw [← hfind _ fun name hname => stray_of_mem hname] at hname
  have hderived : deriveFrom grammar dedup declared.size 0 declared = .error e :=
    hpart.deriveFrom_stray (by simpa using hname) he (by omega)
  rw [build_eq,hkeys]
  simp only [Except.bind,hderived]

theorem build_of_unbalanced (hnodup : grammar.names.Nodup) {rule : String}
    (hrule : (keyRules dedup grammar.groups).find? Template.unbalanced = some rule) :
    build grammar dedup = .error (.unbalancedDelimiters rule) := by
  rw [build_eq,declareKeys_of_unbalanced hnodup (by simp) hrule]
  rfl

theorem build_of_refuses (hnodup : grammar.names.Nodup) {e : Error}
    (h : grammar.Refuses dedup e) : build grammar dedup = .error e := by
  cases h with
  | unbalanced hrule => exact build_of_unbalanced hnodup hrule
  | stray hsymbols hname he => exact build_of_stray hnodup hsymbols hname he
  | modifier hsymbols hstray hname hmodifier =>
    obtain ⟨G,hbuild,hmisplaced⟩ := build_of_answered hnodup hsymbols hstray
    obtain ⟨base,hbase⟩ := (hmisplaced _ _).mpr hmodifier
    simp only [hbuild,hname,hbase.missing]
  | foreign hsymbols hstray hname hmodifier =>
    obtain ⟨G,hbuild,hmisplaced⟩ := build_of_answered hnodup hsymbols hstray
    have hnot : ∀ base modifier, ¬ G.Misplaced _ base modifier := fun base modifier hbase =>
      hmodifier modifier ((hmisplaced _ _).mp ⟨base,hbase⟩)
    simp only [hbuild,hname,missing_of_not_misplaced hnot]

theorem build_or_refuses (hnodup : grammar.names.Nodup) (dedup : Bool) :
    (∃ G, build grammar dedup = .ok G) ∨ ∃ e, grammar.Refuses dedup e := by
  cases hrule : (keyRules dedup grammar.groups).find? Template.unbalanced with
  | some rule => exact .inr ⟨_,.unbalanced hrule⟩
  | none =>
    obtain ⟨symbols,hsymbols⟩ := find?_unbalanced_eq_none.mp hrule
    cases hstray : symbols.find? grammar.stray with
    | some name =>
      obtain ⟨-,-,e,he⟩ := stray_eq_true.mp (List.find?_some hstray)
      exact .inr ⟨e,.stray hsymbols hstray he⟩
    | none =>
      cases hforeign : symbols.find? grammar.foreign with
      | some name =>
        by_cases hmodifier : ∃ modifier, grammar.Misapplies symbols name modifier
        · obtain ⟨modifier,hmodifier⟩ := hmodifier
          exact .inr ⟨_,.modifier hsymbols hstray hforeign hmodifier⟩
        · exact .inr ⟨_,.foreign hsymbols hstray hforeign (not_exists.mp hmodifier)⟩
      | none =>
        obtain ⟨G,hbuild,-⟩ := build_of_answered hnodup hsymbols hstray
        rw [hforeign] at hbuild
        exact .inl ⟨G,hbuild⟩

/-- A build fails with what the grammar is refused for: of three kinds of faults the first, and of
each kind the one that comes first. No group is declared twice, and it does not matter whether one
is empty or deep. -/
theorem build_error_iff_refuses (hnodup : grammar.names.Nodup) (dedup : Bool) :
    (∀ e, build grammar dedup = .error e ↔ grammar.Refuses dedup e) ∧
    (∀ name, build grammar dedup ≠ .error (.duplicateGroup name)) ∧
    (∀ key path, build grammar dedup ≠ .error (.duplicateKey key path)) ∧
    (∀ name, build grammar dedup ≠ .error (.emptyGroup name)) ∧
    ∀ symbol limit, build grammar dedup ≠ .error (.depthLimit symbol limit) := by
  have hiff (e : Error) : build grammar dedup = .error e ↔ grammar.Refuses dedup e := by
    refine ⟨fun h => ?_,build_of_refuses hnodup⟩
    rcases build_or_refuses hnodup dedup with ⟨G,hG⟩ | ⟨e',he'⟩
    · rw [hG] at h
      cases h
    · rw [build_of_refuses hnodup he'] at h
      exact Except.error.inj h ▸ he'
  exact ⟨hiff,fun name h => by simpa using ((hiff _).mp h).kinds,
    fun key path h => by simpa using ((hiff _).mp h).kinds,
    fun name h => by simpa using ((hiff _).mp h).kinds,
    fun symbol limit h => by simpa using ((hiff _).mp h).kinds⟩

/-- A name is read as a known group with a modifier only where something else mentions that group,
because only then it is derived. -/
def cattery : Grammar :=
  ⟨[("origin",.flat ["#cat.capitalize# #cat_masc.loud# #gone#","#cat_masc#"]),
    ("cat",.gendered ⟨some ["matou"],none,none⟩)],[]⟩

/-- Each rule mentions a name that the grammar cannot answer. -/
def strayCattery : Grammar :=
  ⟨[("origin",.flat ["#gone# #pronomdef_cat_fem#","#dog_masc#"]),
    ("cat",.gendered ⟨some ["matou"],none,none⟩)],[]⟩

theorem build_error_iff_refuses_cattery :
    cattery.names.Nodup ∧ strayCattery.names.Nodup ∧
    build cattery false = .error (.unsupportedModifier "cat_masc.loud" "loud") ∧
    build strayCattery false = .error (.invalidGroupShape "cat" (.entry .fem)) ∧
    build strayCattery true = .error (.unknownGroup "dog") := by
  have hnodup : cattery.names.Nodup := by decide
  have hstray : strayCattery.names.Nodup := by decide
  have hmisapplies : cattery.Misapplies ["cat","cat_masc.loud","gone","cat_masc"]
      "cat_masc.loud" "loud" :=
    ⟨"cat_masc",by decide,by decide,by decide,.inr ⟨by decide,by decide⟩⟩
  have hsorted : arrange true ["#gone# #pronomdef_cat_fem#","#dog_masc#"] =
      ["#dog_masc#","#gone# #pronomdef_cat_fem#"] := by
    have hdistinct : ["#gone# #pronomdef_cat_fem#","#dog_masc#"].eraseDups =
        ["#gone# #pronomdef_cat_fem#","#dog_masc#"] := by decide
    rw [arrange,if_pos rfl,hdistinct,List.mergeSort]
    simp
  have hsingle : arrange true ["matou"] = ["matou"] := by cbv
  have hrules : keyRules true strayCattery.groups =
      ["#dog_masc#","#gone# #pronomdef_cat_fem#","matou"] := by
    simp [keyRules,strayCattery,GroupRules.all,hsorted,hsingle]
  have hsymbols : mentions (keyRules true strayCattery.groups) =
      .ok ["dog_masc","gone","pronomdef_cat_fem"] := by
    rw [hrules]
    decide +kernel
  have hmentioned : mentions (keyRules false cattery.groups) =
      .ok ["cat","cat_masc.loud","gone","cat_masc"] := by decide +kernel
  have hmentioned' : mentions (keyRules false strayCattery.groups) =
      .ok ["gone","pronomdef_cat_fem","dog_masc"] := by decide +kernel
  have hfound : ["gone","pronomdef_cat_fem","dog_masc"].find? strayCattery.stray =
      some "pronomdef_cat_fem" := by decide +kernel
  have hfound' : ["dog_masc","gone","pronomdef_cat_fem"].find? strayCattery.stray =
      some "dog_masc" := by decide +kernel
  refine ⟨hnodup,hstray,((build_error_iff_refuses hnodup false).1 _).mpr ?_,
    ((build_error_iff_refuses hstray false).1 _).mpr ?_,
    ((build_error_iff_refuses hstray true).1 _).mpr ?_⟩
  · exact .modifier hmentioned (by decide +kernel) (by decide +kernel) hmisapplies
  · exact .stray hmentioned' hfound (by decide +kernel)
  · exact .stray hsymbols hfound' (by decide +kernel)

end Graph
end PhraseGrammar
