import PhraseGrammar.Loading
import PhraseGrammar.Proofs.Document.Grammar
import PhraseGrammar.Proofs.Grammar

/-! Grammars that come from documents have distinct names, and none of them stands for includes.
Groups that are added by hand may take this name, and only then does the printed grammar not come
back. -/
namespace PhraseGrammar
namespace Grammar

variable {g other : Grammar}

/-- The names that a document can give. -/
structure Loadable (g : Grammar) : Prop where
  nodup : g.names.Nodup
  key : includeKey ∉ g.names

theorem not_mem_of_contains {name : String} (h : ¬ g.contains name = true) : name ∉ g.names :=
  fun hmem => h (List.contains_iff_mem.mpr hmem)

theorem nodup_push {name : String} (hg : g.names.Nodup) (hname : name ∉ g.names)
    (rules : GroupRules) : (g.push name rules).names.Nodup := by
  rw [names_push]
  exact List.nodup_append.mpr ⟨hg,by simp,fun old hold new hnew he =>
    hname (List.mem_singleton.mp hnew ▸ he ▸ hold)⟩

theorem Loadable.empty : Loadable .empty := ⟨List.nodup_nil,List.not_mem_nil⟩

theorem Loadable.push {name : String} (hg : g.Loadable) (hname : name ∉ g.names)
    (hkey : name ≠ includeKey) (rules : GroupRules) : (g.push name rules).Loadable := by
  refine ⟨nodup_push hg.nodup hname rules,?_⟩
  rw [names_push,List.mem_append,List.mem_singleton]
  rintro (hmem | he)
  · exact hg.key hmem
  · exact hkey he.symm

theorem Loadable.addEntry {format : Format} {entry : Value × Value} {g' : Grammar}
    (hg : g.Loadable) (h : g.addEntry format entry = .ok g') : g'.Loadable := by
  obtain ⟨name,v⟩ := entry
  cases name with
  | text name =>
    rw [Grammar.addEntry] at h
    split at h
    · cases hpaths : includesOf format v with
      | error e => simp [hpaths,Except.map] at h
      | ok paths =>
        simp only [hpaths,Except.map,Except.ok.injEq] at h
        exact h ▸ ⟨hg.nodup,hg.key⟩
    · rename_i hkey
      cases hrules : rulesOf format v.uncut with
      | error e => simp [hrules] at h
      | ok rules =>
        simp only [hrules] at h
        split at h
        · cases h
        · split at h
          · cases h
          · rename_i hcontains
            exact Except.ok.inj h ▸ hg.push (not_mem_of_contains hcontains) hkey rules
  | _ => cases h

theorem Loadable.foldlM {format : Format} {entries : List (Value × Value)} {g' : Grammar}
    (hg : g.Loadable) (h : entries.foldlM (Grammar.addEntry format) g = .ok g') :
    g'.Loadable := by
  induction entries generalizing g with
  | nil => exact Except.ok.inj h ▸ hg
  | cons entry entries ih =>
    rw [List.foldlM_cons] at h
    cases hadd : g.addEntry format entry with
    | error e => simp [hadd,bind,Except.bind] at h
    | ok g₁ =>
      simp only [hadd,bind,Except.bind] at h
      exact ih (hg.addEntry hadd) h

theorem loadable_of_document {format : Format} {d : Document}
    (h : ofDocument format d = .ok g) : g.Loadable := by
  rw [ofDocument] at h
  split at h
  · rename_i entries _
    cases hentries : ofEntries format entries with
    | error e => simp [hentries] at h
    | ok g' =>
      simp only [hentries] at h
      split at h
      · exact Except.ok.inj h ▸ Loadable.empty.foldlM hentries
      · cases h
  · cases h

theorem loadable_of_parse {format : Format} {text : String} (h : parse format text = .ok g) :
    g.Loadable := by
  cases format with
  | json => exact loadable_of_document h
  | ron => exact loadable_of_document h

theorem mergeGroups_keeps {P : Grammar → Prop} {groups : List (String × GroupRules)}
    {path : String} (hg : P g)
    (hpush : ∀ g, P g → ∀ key ∈ groups, key.1 ∉ g.names → P (g.push key.1 key.2)) :
    P (mergeGroups path g groups).2 := by
  induction groups generalizing g with
  | nil => exact hg
  | cons key groups ih =>
    obtain ⟨name,rules⟩ := key
    rw [mergeGroups]
    split
    · exact hg
    · rename_i hcontains
      have hpushed := hpush g hg (name,rules) List.mem_cons_self (not_mem_of_contains hcontains)
      exact ih hpushed fun g hg key hkey => hpush g hg key (List.mem_cons_of_mem _ hkey)

theorem Loadable.merge (hg : g.Loadable) (hother : other.Loadable) (path : String) :
    (g.merge other path).2.Loadable := by
  refine mergeGroups_keeps hg fun g hg key hkey hnew => hg.push hnew ?_ key.2
  intro he
  exact hother.key (he ▸ List.mem_map_of_mem hkey)

theorem loadable_of_loadFile {read : Reader} {path : String} (h : loadFile read path = .ok g) :
    g.Loadable := by
  rw [loadFile] at h
  split at h
  · cases h
  · exact loadable_of_parse h

theorem Loadable.mergeFiles {read : Reader} {paths : List String} {g' : Grammar}
    (hg : g.Loadable) (h : Grammar.mergeFiles read g paths = .ok g') : g'.Loadable := by
  induction paths generalizing g with
  | nil => exact Except.ok.inj h ▸ hg
  | cons path paths ih =>
    rw [Grammar.mergeFiles] at h
    cases hother : loadFile read path with
    | error e => simp [hother] at h
    | ok other =>
      have hmerged := hg.merge (loadable_of_loadFile hother) path
      simp only [hother] at h
      split at h
      · cases h
      · rename_i g₁ he
        rw [he] at hmerged
        exact ih hmerged h

theorem loadable_of_load {read : Reader} {path : String} (h : load read path = .ok g) :
    g.Loadable := by
  rw [load] at h
  split at h
  · cases h
  · rename_i g₁ hfile
    have hg := loadable_of_loadFile hfile
    have hcleared : ({ g₁ with includes := [] } : Grammar).Loadable := ⟨hg.nodup,hg.key⟩
    exact hcleared.mergeFiles h

/-- The name that stands for includes asks for no gender, so it has rules only if it is a key. -/
theorem Loadable.ne_of_resolve (hg : g.Loadable) {name : String} {rules : List String}
    (h : g.resolve name = .ok rules) : name ≠ includeKey := by
  rintro rfl
  have hgender : (SymbolName.parse includeKey).gender = none := by decide
  rw [resolve,get?_eq_none.mpr hg.key] at h
  dsimp only at h
  rw [hgender] at h
  split at h <;> simp_all

theorem Loadable.prepareNames (hg : g.Loadable) {room : Nat} {stack : List String}
    {prepared p : Grammar} (hprepared : prepared.Loadable)
    (h : g.prepareNames room stack prepared = .ok p) : p.Loadable := by
  fun_induction Grammar.prepareNames g room stack prepared with
  | case1 room prepared => exact Except.ok.inj h ▸ hprepared
  | case2 room prepared name stack hcontains ih => exact ih hprepared h
  | case3 => cases h
  | case4 => cases h
  | case5 room prepared => exact Except.ok.inj h ▸ hprepared
  | case6 prepared name stack hcontains rules hr symbols hs room ih =>
    exact ih (hprepared.push (not_mem_of_contains hcontains) (hg.ne_of_resolve hr) _) h

/-- Grammars that are read, from one text or several files, and prepared ones among them. -/
inductive Produced : Grammar → Prop
  | parsed {format : Format} {text : String} {g : Grammar} (h : parse format text = .ok g) :
    Produced g
  | loaded {read : Reader} {path : String} {g : Grammar} (h : load read path = .ok g) : Produced g
  | prepared {g p : Grammar} {root : String} (hg : Produced g) (h : g.prepareFrom root = .ok p) :
    Produced p

/-- Grammars that inserting and merging lead to, also where they fail. -/
inductive Obtained : Grammar → Prop
  | empty : Obtained .empty
  | produced {g : Grammar} (h : Produced g) : Obtained g
  | inserted {g : Grammar} (hg : Obtained g) (name : String) (rules : GroupRules) :
    Obtained (g.insert name rules).2
  | merged {g other : Grammar} (hg : Obtained g) (hother : Obtained other) (path : String) :
    Obtained (g.merge other path).2

theorem Produced.loadable (h : g.Produced) : g.Loadable := by
  induction h with
  | parsed h => exact loadable_of_parse h
  | loaded h => exact loadable_of_load h
  | prepared _ h ih => exact ih.prepareNames .empty h

theorem Obtained.nodup (h : g.Obtained) : g.names.Nodup := by
  induction h with
  | empty => exact List.nodup_nil
  | produced h => exact h.loadable.nodup
  | inserted _ name rules ih =>
    rw [insert]
    split
    · exact ih
    · rename_i hcontains
      exact nodup_push ih (not_mem_of_contains hcontains) rules
  | merged _ _ _ ih _ => exact mergeGroups_keeps ih fun _ hg key _ hnew => nodup_push hg hnew key.2

/-- A printed grammar is read back as it was, in order, form and includes, exactly if no group has
the name that stands for includes. No grammar that was read or prepared has such a group. -/
theorem toJson_reloads :
    (∀ g : Grammar, g.Obtained → (parseJson g.toJson = .ok g ↔ includeKey ∉ g.names)) ∧
    ∀ g : Grammar, g.Produced → includeKey ∉ g.names := by
  refine ⟨fun g hg => ⟨fun h => ?_,parseJson_toJson hg.nodup⟩,fun g hg => hg.loadable.key⟩
  exact (loadable_of_document h).key

/-- Every kind of escape, and lists that are empty beside lists that are absent. -/
def keepsake : Grammar :=
  ⟨[("origin",.flat ["\"#b#\" \\ é\n\x01","/"]),("b",.gendered ⟨some [],none,some ["","🦆"]⟩),
    ("",.gendered .absent),("c",.flat [])],["b.json"]⟩

theorem toJson_reloads_keepsake :
    keepsake.Produced ∧ includeKey ∉ keepsake.names ∧
    parseJson keepsake.toJson = .ok keepsake ∧
    parseJson (keepsake.insert includeKey (.flat [])).2.toJson ≠
      .ok (keepsake.insert includeKey (.flat [])).2 := by
  have hparsed : parse .json keepsake.toJson = .ok keepsake :=
    parseJson_toJson (by decide) (by decide)
  have hproduced := Produced.parsed hparsed
  have hkey := toJson_reloads.2 keepsake hproduced
  refine ⟨hproduced,hkey,(toJson_reloads.1 keepsake (.produced hproduced)).mpr hkey,fun h => ?_⟩
  have hadded := (Obtained.produced hproduced).inserted includeKey (.flat [])
  exact (toJson_reloads.1 _ hadded).mp h (by decide)

end Grammar

end PhraseGrammar
