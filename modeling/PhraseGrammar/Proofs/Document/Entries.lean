import Mathlib.Data.List.Induction
import PhraseGrammar.Proofs.Document.Forms
import PhraseGrammar.Proofs.Document.Reload

/-! What a JSON document must hold to be a grammar. Its entries are judged in order, so an error is
that of the first entry that offends; a name that is there already is an offence only of a value
that has a form. -/
namespace PhraseGrammar
namespace Grammar

variable {g : Grammar}

/-- The grammar is what the entries comprise: the groups in their order, each in a form and none of
them twice, and the includes in between, joined. -/
structure Comprises (entries : List (String × Value)) (g : Grammar) : Prop where
  groups : List.Forall₂ (fun e group => e.1 = group.1 ∧ e.2.Forms group.2)
    (entries.filter (·.1 ≠ includeKey)) g.groups
  nodup : g.names.Nodup
  includes : ∃ lists : List (List String),
    (entries.filter (·.1 = includeKey)).map Prod.snd = lists.map .ofTexts ∧
    g.includes = lists.flatten

/-- How an entry offends, with the entries before it. -/
inductive Offends (before : List (String × Value)) : String × Value → Misfit → Prop
  | notList {v : Value} (hv : ∀ items, v ≠ .list items) :
    Offends before (includeKey,v) (.wrongType v.found .sequence)
  | notText {paths : List String} {v : Value} {items : List Value} (hv : ∀ path, v ≠ .text path) :
    Offends before (includeKey,.list (paths.map .text ++ v :: items)) (.wrongType v.found .text)
  | noForm {key : String} {v : Value} (hkey : key ≠ includeKey) (hv : ∀ rules, ¬ v.Forms rules) :
    Offends before (key,v) .noRuleForm
  | repeated {key : String} {v : Value} {rules : GroupRules} (hkey : key ≠ includeKey)
    (hv : v.Forms rules) (hbefore : key ∈ before.map Prod.fst) :
    Offends before (key,v) (.repeatedGroup key)

theorem Comprises.empty : Comprises [] .empty := ⟨.nil,List.nodup_nil,[],rfl,rfl⟩

theorem Comprises.mem_names_iff {entries : List (String × Value)} (h : g.Comprises entries)
    {key : String} (hkey : key ≠ includeKey) : key ∈ g.names ↔ key ∈ entries.map Prod.fst := by
  have hnames : g.names = (entries.filter (·.1 ≠ includeKey)).map Prod.fst :=
    (map_eq_map_of_forall₂ h.groups fun e _ group _ he => he.1).symm
  rw [hnames]
  simp only [List.mem_map,List.mem_filter,decide_eq_true_eq]
  constructor
  · rintro ⟨e,⟨he,-⟩,rfl⟩
    exact ⟨e,he,rfl⟩
  · rintro ⟨e,he,rfl⟩
    exact ⟨e,⟨he,hkey⟩,rfl⟩

theorem Comprises.include {entries : List (String × Value)} (h : g.Comprises entries)
    (paths : List String) :
    Comprises (entries ++ [(includeKey,.ofTexts paths)])
      { g with includes := g.includes ++ paths } := by
  obtain ⟨lists,hlists,hincludes⟩ := h.includes
  refine ⟨?_,h.nodup,lists ++ [paths],?_,?_⟩
  · simpa using h.groups
  · simpa using hlists
  · simp [hincludes]

theorem Comprises.push {entries : List (String × Value)} (h : g.Comprises entries) {key : String}
    {v : Value} {rules : GroupRules} (hkey : key ≠ includeKey) (hv : v.Forms rules)
    (hnew : key ∉ g.names) : Comprises (entries ++ [(key,v)]) (g.push key rules) := by
  refine ⟨?_,nodup_push h.nodup hnew rules,?_⟩
  · rw [List.filter_append]
    simpa [hkey,Grammar.push] using List.rel_append h.groups (.cons ⟨rfl,hv⟩ .nil)
  · simpa [hkey] using h.includes

theorem unfit_of_isJson {v : Value} (hv : v.isJson = true) (wanted : Wanted) :
    unfit .json v wanted = .misfit .json (.wrongType v.found wanted) := by
  cases v with
  | broken => cases hv
  | cut v => cases hv
  | _ => rfl

theorem includesOfItems_append (paths : List String) (items : List Value) :
    includesOfItems .json (paths.map .text ++ items) =
      (includesOfItems .json items).map (paths ++ ·) := by
  induction paths with
  | nil => cases hitems : includesOfItems .json items <;> simp [hitems,Except.map]
  | cons path paths ih =>
    rw [List.map_cons,List.cons_append,includesOfItems,ih]
    cases includesOfItems .json items <;> rfl

theorem includesOfItems_of_ne_text {v : Value} (hv : v.isJson = true) (hne : ∀ path, v ≠ .text path)
    (items : List Value) :
    includesOfItems .json (v :: items) = .error (.misfit .json (.wrongType v.found .text)) := by
  rw [includesOfItems,unfit_of_isJson hv]
  exact hne

theorem uncut_of_isJson {v : Value} (hv : v.isJson = true) : v.uncut = v ∧ v.isCut = false := by
  cases v with
  | cut v => cases hv
  | _ => exact ⟨rfl,rfl⟩

theorem rulesOf_eq {v : Value} (hv : v.isJson = true) : rulesOf .json v.uncut =
    match GroupRules.ofValue? v with
    | none => .error (.misfit .json .noRuleForm)
    | some rules => .ok rules := by
  rw [(uncut_of_isJson hv).1,rulesOf,Value.complete_of_isJson hv]
  rfl

theorem addEntry_include (g : Grammar) (paths : List String) :
    addEntry .json g (.text includeKey,.ofTexts paths) =
      .ok { g with includes := g.includes ++ paths } := by
  simp [addEntry,includesOf_ofTexts,Except.map]

theorem addEntry_group {key : String} {v : Value} {rules : GroupRules} (hkey : key ≠ includeKey)
    (hv : v.isJson = true) (hforms : v.Forms rules) :
    addEntry .json g (.text key,v) =
      if g.contains key then .error (.misfit .json (.repeatedGroup key))
      else .ok (g.push key rules) := by
  have hrules := (GroupRules.ofValue?_eq_some hv).mpr hforms
  simp [addEntry,hkey,rulesOf_eq hv,hrules,(uncut_of_isJson hv).2]

theorem Comprises.addEntry_offends {before : List (String × Value)} (h : g.Comprises before)
    {e : String × Value} (he : e.2.isJson = true) {cause : Misfit}
    (hoffends : Offends before e cause) :
    addEntry .json g (.text e.1,e.2) = .error (.misfit .json cause) := by
  cases hoffends with
  | notList hv =>
    have hincludes := unfit_of_isJson he .sequence
    rw [addEntry,if_pos rfl,includesOf,hincludes]
    · rfl
    · exact hv
  | notText hv =>
    have hitem := Value.isJsonItems_iff.mp he _ (List.mem_append_right _ List.mem_cons_self)
    rw [addEntry,if_pos rfl,includesOf,includesOfItems_append,includesOfItems_of_ne_text hitem hv]
    rfl
  | noForm hkey hv =>
    have hnone := Option.eq_none_iff_forall_ne_some.mpr fun rules hr =>
      hv rules ((GroupRules.ofValue?_eq_some he).mp hr)
    simp [addEntry,hkey,rulesOf_eq he,hnone]
  | repeated hkey hv hbefore =>
    rw [addEntry_group hkey he hv,if_pos]
    exact List.contains_iff_mem.mpr ((h.mem_names_iff hkey).mpr hbefore)

theorem exists_texts (items : List Value) : (∃ paths : List String, items = paths.map .text) ∨
    ∃ (paths : List String) (v : Value) (rest : List Value),
      items = paths.map .text ++ v :: rest ∧ ∀ path, v ≠ .text path := by
  induction items with
  | nil => exact .inl ⟨[],rfl⟩
  | cons item items ih =>
    by_cases htext : ∃ path, item = .text path
    · obtain ⟨path,rfl⟩ := htext
      rcases ih with ⟨paths,rfl⟩ | ⟨paths,v,rest,rfl,hv⟩
      · exact .inl ⟨path :: paths,rfl⟩
      · exact .inr ⟨path :: paths,v,rest,rfl,hv⟩
    · exact .inr ⟨[],item,items,rfl,not_exists.mp htext⟩

theorem Comprises.snoc {before : List (String × Value)} (h : g.Comprises before)
    (e : String × Value) :
    (∃ g', Comprises (before ++ [e]) g') ∨ ∃ cause, Offends before e cause := by
  obtain ⟨key,v⟩ := e
  by_cases hkey : key = includeKey
  · subst hkey
    by_cases hlist : ∃ items, v = .list items
    · obtain ⟨items,rfl⟩ := hlist
      rcases exists_texts items with ⟨paths,rfl⟩ | ⟨paths,v,rest,rfl,hv⟩
      · exact .inl ⟨_,h.include paths⟩
      · exact .inr ⟨_,.notText hv⟩
    · exact .inr ⟨_,.notList (not_exists.mp hlist)⟩
  · by_cases hforms : ∃ rules, v.Forms rules
    · obtain ⟨rules,hv⟩ := hforms
      by_cases hmem : key ∈ g.names
      · exact .inr ⟨_,.repeated hkey hv ((h.mem_names_iff hkey).mp hmem)⟩
      · exact .inl ⟨_,h.push hkey hv hmem⟩
    · exact .inr ⟨_,.noForm hkey (not_exists.mp hforms)⟩

theorem comprises_or_offends (entries : List (String × Value)) : (∃ g, Comprises entries g) ∨
    ∃ before e after cause, entries = before ++ e :: after ∧ (∃ g, Comprises before g) ∧
      Offends before e cause := by
  induction entries using List.reverseRecOn with
  | nil => exact .inl ⟨_,.empty⟩
  | append_singleton entries e ih =>
    rcases ih with ⟨g,hg⟩ | ⟨before,e',after,cause,rfl,hg,hoffends⟩
    · rcases hg.snoc e with hheld | ⟨cause,hoffends⟩
      · exact .inl hheld
      · exact .inr ⟨entries,e,[],cause,rfl,⟨g,hg⟩,hoffends⟩
    · exact .inr ⟨before,e',after ++ [e],cause,by simp,hg,hoffends⟩

/-- What the entries comprise is added to what is there, as long as no name is taken. -/
theorem Comprises.foldlM {entries : List (String × Value)} {added : Grammar}
    (h : added.Comprises entries) (hjson : ∀ e ∈ entries, e.2.isJson = true)
    (hnew : ∀ name ∈ added.names, name ∉ g.names) :
    (entries.map fun e => (Value.text e.1,e.2)).foldlM (addEntry .json) g =
      .ok ⟨g.groups ++ added.groups,g.includes ++ added.includes⟩ := by
  induction entries generalizing g added with
  | nil =>
    obtain ⟨groups,includes⟩ := added
    obtain ⟨lists,hlists,rfl⟩ := h.includes
    obtain rfl : groups = [] := by simpa using h.groups
    obtain rfl : lists = [] := by simpa using hlists
    simp [pure,Except.pure]
  | cons e entries ih =>
    obtain ⟨key,v⟩ := e
    obtain ⟨hv,hrest⟩ := List.forall_mem_cons.mp hjson
    rw [List.map_cons,List.foldlM_cons]
    by_cases hkey : key = includeKey
    · subst hkey
      obtain ⟨lists,hlists,hincludes⟩ := h.includes
      cases lists with
      | nil => simp at hlists
      | cons paths lists =>
        simp only [decide_true,List.filter_cons_of_pos,List.map_cons,List.cons.injEq] at hlists
        obtain ⟨rfl,hlists⟩ := hlists
        have hafter : Comprises entries ⟨added.groups,lists.flatten⟩ :=
          ⟨by simpa using h.groups,h.nodup,lists,hlists,rfl⟩
        rw [addEntry_include]
        refine (ih (g:={ g with includes := g.includes ++ paths }) hafter hrest hnew).trans ?_
        simp [hincludes]
    · have hgroups := h.groups
      rw [List.filter_cons_of_pos (by simpa using hkey),List.forall₂_cons_left_iff] at hgroups
      obtain ⟨⟨name,rules⟩,groups,⟨rfl,hforms⟩,hgroups,hadded⟩ := hgroups
      have hnames : added.names = key :: groups.map Prod.fst := by rw [names,hadded]; rfl
      rw [hnames,List.forall_mem_cons] at hnew
      have hnodup := h.nodup
      rw [hnames,List.nodup_cons] at hnodup
      have hafter : Comprises entries ⟨groups,added.includes⟩ :=
        ⟨hgroups,hnodup.2,by simpa [hkey] using h.includes⟩
      have hcontains : g.contains key = false := by simpa [contains] using hnew.1
      rw [addEntry_group hkey hv hforms,hcontains]
      refine (ih (g:=g.push key rules) hafter hrest fun name hname => ?_).trans ?_
      · rw [names_push,List.mem_append,List.mem_singleton]
        rintro (hold | rfl)
        · exact hnew.2 name hname hold
        · exact hnodup.1 hname
      · simp [Grammar.push,hadded]

theorem Comprises.ofEntries_eq {entries : List (String × Value)} (h : g.Comprises entries)
    (hjson : ∀ e ∈ entries, e.2.isJson = true) :
    ofEntries .json (entries.map fun e => (.text e.1,e.2)) = .ok g := by
  exact h.foldlM (g:=.empty) hjson fun name _ => List.not_mem_nil

theorem Comprises.ofEntries_offends {before after : List (String × Value)} {e : String × Value}
    (h : g.Comprises before) (hjson : ∀ e' ∈ before ++ e :: after, e'.2.isJson = true)
    {cause : Misfit} (hoffends : Offends before e cause) :
    ofEntries .json ((before ++ e :: after).map fun e => (.text e.1,e.2)) =
      .error (.misfit .json cause) := by
  obtain ⟨hbefore,hrest⟩ := List.forall_mem_append.mp hjson
  obtain ⟨he,-⟩ := List.forall_mem_cons.mp hrest
  have hread := h.ofEntries_eq hbefore
  rw [ofEntries] at hread ⊢
  rw [List.map_append,List.foldlM_append,hread,List.map_cons]
  show List.foldlM _ g _ = _
  rw [List.foldlM_cons,h.addEntry_offends he hoffends]
  rfl

theorem parseJson_eq {text : String} {entries : List (String × Value)}
    (hread : Json.read text = ⟨.ofEntries entries,true⟩) :
    parseJson text = ofEntries .json (entries.map fun e => (.text e.1,e.2)) := by
  rw [parseJson,hread,ofDocument,Value.ofEntries]
  dsimp only
  cases ofEntries .json (entries.map fun e => (Value.text e.1,e.2)) <;> rfl

/-- An object is read as a grammar exactly if no entry offends, and then as the grammar that its
entries comprise. Otherwise the first entry that offends decides the error. -/
theorem parseJson_exact {text : String} {entries : List (String × Value)}
    (hread : Json.read text = ⟨.ofEntries entries,true⟩)
    (hcomplete : (Value.ofEntries entries).complete = true) :
    (∀ g, parseJson text = .ok g ↔ g.Comprises entries) ∧
    ∀ e, parseJson text = .error e ↔ ∃ before entry after cause,
      entries = before ++ entry :: after ∧ (∃ g, Comprises before g) ∧
      Offends before entry cause ∧ e = .misfit .json cause := by
  have hjson : ∀ e ∈ entries, e.2.isJson = true := by
    have hroot : (Value.ofEntries entries).isJson = true := by
      have hjson := @Json.isJson_of_read text
      rw [hread] at hjson
      exact hjson hcomplete
    have hentries := Value.isJsonEntries_iff.mp hroot
    exact fun e he => (hentries _ (List.mem_map_of_mem he)).2
  rw [parseJson_eq hread]
  constructor
  · refine fun g => ⟨fun h => ?_,fun hg => hg.ofEntries_eq hjson⟩
    rcases comprises_or_offends entries with ⟨g',hg'⟩ | ⟨before,entry,after,cause,rfl,⟨g',hg'⟩,hoff⟩
    · obtain rfl := Except.ok.inj ((hg'.ofEntries_eq hjson).symm.trans h)
      exact hg'
    · rw [hg'.ofEntries_offends hjson hoff] at h
      cases h
  · refine fun e => ⟨fun h => ?_,?_⟩
    · rcases comprises_or_offends entries with ⟨g,hg⟩ | ⟨before,entry,after,cause,rfl,⟨g,hg⟩,hoff⟩
      · rw [hg.ofEntries_eq hjson] at h
        cases h
      · rw [hg.ofEntries_offends hjson hoff] at h
        exact ⟨before,entry,after,cause,rfl,⟨g,hg⟩,hoff,(Except.error.inj h).symm⟩
    · rintro ⟨before,entry,after,cause,rfl,⟨g,hg⟩,hoff,rfl⟩
      exact hg.ofEntries_offends hjson hoff

/-- Includes in two places, and lists by position and by key. -/
def pantry : List (String × Value) :=
  [("#include",.ofTexts ["b"]),("a",.list [.null,.ofTexts ["x"]]),
    ("#include",.ofTexts ["c","d"]),("e",.ofEntries [("*",.null),("fem",.ofTexts [])])]

/-- How these entries are written. -/
def pantryFields : List (String × String) :=
  [("#include",Json.texts 1 ["b"]),
    ("a",Json.block "[" "]" 1 ["null",Json.texts 2 ["x"]]),
    ("#include",Json.texts 1 ["c","d"]),
    ("e",Json.object 1 [("*","null"),("fem",Json.texts 2 [])])]

theorem denotes_pantry :
    List.Forall₂ (fun f e => f.1 = e.1 ∧ Json.Denotes f.2 126 e.2) pantryFields pantry := by
  have hnull : Json.Denotes "null" 125 .null := Json.denotes_null 125
  have hlist (rules : List String) (k : Nat) :
      Json.Denotes (Json.texts k rules) 126 (.ofTexts rules) := denotes_texts rules k 125
  have hinner (rules : List String) (k : Nat) :
      Json.Denotes (Json.texts k rules) 125 (.ofTexts rules) := denotes_texts rules k 124
  have hpositions : Json.Denotes (Json.block "[" "]" 1 ["null",Json.texts 2 ["x"]]) 126
      (.list [.null,.ofTexts ["x"]]) :=
    Json.denotes_array (.cons hnull (.cons (hinner ["x"] 2) .nil)) 1
  have hfields : List.Forall₂ (fun f e => f.1 = e.1 ∧ Json.Denotes f.2 125 e.2)
      [("*","null"),("fem",Json.texts 2 [])] [("*",Value.null),("fem",Value.ofTexts [])] :=
    .cons ⟨rfl,hnull⟩ (.cons ⟨rfl,hinner [] 2⟩ .nil)
  have hkeys : Json.Denotes (Json.object 1 [("*","null"),("fem",Json.texts 2 [])]) 126
      (.ofEntries [("*",.null),("fem",.ofTexts [])]) := Json.denotes_object hfields 1
  exact .cons ⟨rfl,hlist _ _⟩ (.cons ⟨rfl,hpositions⟩ (.cons ⟨rfl,hlist _ _⟩
    (.cons ⟨rfl,hkeys⟩ .nil)))

theorem parseJson_exact_pantry :
    Json.read (Json.object 0 pantryFields) = ⟨.ofEntries pantry,true⟩ ∧
    (Value.ofEntries pantry).complete = true ∧
    Comprises pantry ⟨[("a",.gendered ⟨none,some ["x"],none⟩),
      ("e",.gendered ⟨none,some [],none⟩)],["b","c","d"]⟩ ∧
    parseJson (Json.object 0 (pantryFields ++ [("a",Json.quote "x"),("a",Json.texts 1 [])])) =
      .error (.misfit .json .noRuleForm) := by
  have hread : Json.read (Json.object 0 pantryFields) = ⟨.ofEntries pantry,true⟩ :=
    (Json.denotes_object denotes_pantry 0).read_eq
  have hfields : List.Forall₂ (fun f e => f.1 = e.1 ∧ Json.Denotes f.2 126 e.2)
      (pantryFields ++ [("a",Json.quote "x"),("a",Json.texts 1 [])])
      (pantry ++ ("a",.text "x") :: [("a",.ofTexts [])]) :=
    List.rel_append denotes_pantry (.cons ⟨rfl,Json.denotes_quote "x" 126⟩
      (.cons ⟨rfl,denotes_texts [] 1 125⟩ .nil))
  have hmore : Json.read (Json.object 0 (pantryFields ++
      [("a",Json.quote "x"),("a",Json.texts 1 [])])) =
      ⟨.ofEntries (pantry ++ ("a",.text "x") :: [("a",.ofTexts [])]),true⟩ :=
    (Json.denotes_object hfields 0).read_eq
  have hcomplete : (Value.ofEntries pantry).complete = true := by decide
  have hwhole : Comprises pantry ⟨[("a",.gendered ⟨none,some ["x"],none⟩),
      ("e",.gendered ⟨none,some [],none⟩)],["b","c","d"]⟩ := by
    refine ((parseJson_exact hread hcomplete).1 _).mp ?_
    rw [parseJson_eq hread]
    decide +kernel
  have hforms (rules : GroupRules) : ¬ (Value.text "x").Forms rules := nofun
  exact ⟨hread,hcomplete,hwhole,((parseJson_exact hmore (by decide)).2 _).mpr
    ⟨pantry,("a",.text "x"),_,_,rfl,⟨_,hwhole⟩,.noForm (by decide) hforms,rfl⟩⟩

end Grammar

end PhraseGrammar
