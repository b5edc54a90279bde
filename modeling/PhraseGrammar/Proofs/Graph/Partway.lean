import Mathlib.Data.List.Find
import PhraseGrammar.Proofs.Grammar.Refusal
import PhraseGrammar.Proofs.Graph.Buildable

/-! Graphs in the course of a build. Declaring the keys fails for the first unbalanced rule, and the
pass over pending groups for the first name that asks for what is not there; in between, groups that
wait for rules are no keys and the others have the rules that the grammar gives them. -/
namespace PhraseGrammar
namespace Graph

open Grammar

variable {grammar : Grammar} {dedup : Bool} {g G : Graph}

theorem map_ruleSymbols_parseRules (g : Graph) (sources : List String) :
    (g.parseRules sources).1.map ruleSymbols = mentions sources := by
  induction sources generalizing g with
  | nil => rfl
  | cons source sources ih =>
    rw [mentions_cons,parseRules]
    cases Template.parse source with
    | error e => rfl
    | ok template =>
      simp only [Except.bind,← ih (g.referenceAll template.symbols).2]
      cases ((g.referenceAll template.symbols).2.parseRules sources).1 <;> rfl

theorem declare_of_unbalanced {name : String} {sources : List String} {rule : String}
    (hname : name ∉ g.contents.map Prod.fst)
    (h : sources.find? Template.unbalanced = some rule) :
    (g.declare name sources).1 = .error (.unbalancedDelimiters rule) := by
  have hmentions := find?_unbalanced_eq_some h
  have hd := declares g name sources
  generalize g.declare name sources = result at hd ⊢
  cases hd with
  | @taken id hid hres =>
    have hmem : (name,(g.group id).sources) ∈ g.contents := mem_contents.mpr ⟨id,hid,hres,rfl⟩
    exact absurd (List.mem_map_of_mem hmem) hname
  | unbalanced he =>
    rw [← map_ruleSymbols_parseRules (g.mention [name]),he] at hmentions
    exact congrArg Except.error (Except.error.inj hmentions)
  | declared hid hres hsources hfit =>
    rw [← hsources,mentions_sources hfit] at hmentions
    cases hmentions

theorem declareKeys_of_unbalanced {keys : List (String × GroupRules)} {rule : String}
    (hnodup : (keys.map Prod.fst).Nodup) (hnew : ∀ key ∈ keys, key.1 ∉ g.contents.map Prod.fst)
    (h : (keyRules dedup keys).find? Template.unbalanced = some rule) :
    g.declareKeys dedup keys = .error (.unbalancedDelimiters rule) := by
  induction keys generalizing g with
  | nil => simp [keyRules] at h
  | cons key keys ih =>
    obtain ⟨hkey,hkeys⟩ := List.nodup_cons.mp hnodup
    have hname := hnew key List.mem_cons_self
    have hsplit : keyRules dedup (key :: keys) =
        arrange dedup key.2.all ++ keyRules dedup keys := rfl
    rw [hsplit,List.find?_append] at h
    rw [declareKeys]
    cases hrules : (arrange dedup key.2.all).find? Template.unbalanced with
    | some first =>
      obtain rfl : first = rule := by simpa [hrules] using h
      have hd := declare_of_unbalanced hname hrules
      rcases hdeclare : g.declare key.1 (arrange dedup key.2.all) with ⟨e | id,g'⟩
      · rw [hdeclare] at hd
        exact congrArg Except.error (Except.error.inj hd)
      · rw [hdeclare] at hd
        cases hd
    | none =>
      obtain ⟨symbols,hsymbols⟩ := find?_unbalanced_eq_none.mp hrules
      obtain ⟨id,hid⟩ := declare_isOk hname hsymbols
      rcases hdeclare : g.declare key.1 (arrange dedup key.2.all) with ⟨e | id',g'⟩
      · rw [hdeclare] at hid
        cases hid
      · obtain ⟨-,-,-,hperm⟩ := declare_ok hdeclare
        refine ih hkeys (fun other hother hmem => ?_) (by simpa [hrules] using h)
        rcases List.mem_cons.mp ((hperm.map Prod.fst).mem_iff.mp hmem) with he | hmem
        · exact hkey (he ▸ List.mem_map_of_mem hother)
        · exact hnew other (List.mem_cons_of_mem _ hother) hmem

/-- Among the names that the keys give, the first one that is at fault is the first symbol that
is, if keys never are. -/
theorem find?_keyMentions {keys : List (String × GroupRules)} {p : String → Bool}
    (hp : ∀ key ∈ keys, p key.1 = false) {symbols sequence : List String}
    (hsymbols : mentions (keyRules dedup keys) = .ok symbols)
    (hsequence : keyMentions dedup keys = .ok sequence) :
    sequence.find? p = symbols.find? p := by
  induction keys generalizing symbols sequence with
  | nil =>
    obtain rfl := Except.ok.inj hsymbols
    obtain rfl := Except.ok.inj hsequence
    rfl
  | cons key keys ih =>
    obtain ⟨hkey,hkeys⟩ := List.forall_mem_cons.mp hp
    obtain ⟨first,rest,hfirst,hrest,rfl⟩ := mentions_append hsymbols
    obtain ⟨first',rest',hfirst',hrest',rfl⟩ := keyMentions_cons_eq_ok.mp hsequence
    obtain rfl := Except.ok.inj (hfirst.symm.trans hfirst')
    rw [List.cons_append,List.find?_cons,hkey,List.find?_append,List.find?_append,
      ih hkeys hrest hrest']

/-- Of the groups, those that wait for rules are no keys, and the grammar has the rules of the
others. -/
structure Partway (grammar : Grammar) (dedup : Bool) (g : Graph) : Prop where
  reached : g.Reached
  covers : Covers grammar dedup g.names
  pending : ∀ i < g.size, (g.group i).resolved = false → grammar.get? (g.group i).name = none
  answered : ∀ i < g.size, (g.group i).resolved = true →
    ∃ rules, grammar.resolve (g.group i).name = .ok rules

theorem Partway.derive (h : Partway grammar dedup g) {id : GroupId} (hlt : id < g.size)
    (hres : (g.group id).resolved = false) {rules : List String}
    (hr : grammar.resolve (g.group id).name = .ok rules) :
    ∃ g', g.derive grammar dedup (g.group id).name = .ok g' ∧ Partway grammar dedup g' ∧
      g'.names = g.names ∧ (g'.group id).resolved = true ∧
      ∀ i, Settles grammar dedup g (g.group i) (g'.group i) := by
  have hkey := h.pending id hlt hres
  have hparse : ∀ key ∈ grammar.groups, ∀ rule ∈ key.2.all, ∃ template,
      Template.parse rule = .ok template := fun key hkey =>
    exists_mentions_arrange.mp ((h.covers key hkey).imp fun _ hs => hs.1)
  obtain ⟨symbols,hm⟩ : ∃ symbols, mentions (arrange dedup rules) = .ok symbols :=
    exists_mentions_arrange.mpr (exists_parse_of_resolve hparse hr)
  obtain ⟨g',hderive,hg',hn,hid,hs⟩ := derive_pending h.reached h.covers hlt hres hkey hr hm
  have hsize : g'.size = g.size := size_eq_of_names hn
  refine ⟨g',hderive,⟨hg',hn ▸ h.covers,fun i hi hres' => ?_,fun i hi hres' => ?_⟩,hn,hid,hs⟩
  · rw [(hs i).name_eq]
    exact h.pending i (hsize ▸ hi) ((hs i).waits hres')
  · have hsettles := hs i
    have hanswered := h.answered i (hsize ▸ hi)
    generalize g.group i = group at hsettles hanswered
    generalize g'.group i = group' at hsettles hres'
    cases hsettles with
    | kept => exact hanswered hres'
    | derived _ hr' _ => exact ⟨_,hr'⟩

theorem drop_names {id : GroupId} (hlt : id < g.size) :
    g.names.drop id = (g.group id).name :: g.names.drop (id + 1) := by
  have hlength : id < g.names.length := by simpa using hlt
  have hname : g.names[id] = (g.group id).name :=
    Option.some.inj ((List.getElem?_eq_getElem hlength).symm.trans (getElem?_names.mpr ⟨hlt,rfl⟩))
  rw [List.drop_eq_getElem_cons hlength,hname]

theorem Partway.deriveFrom_stray (h : Partway grammar dedup g) {n : Nat} {id : GroupId}
    {name : String} {e : Error} (hname : (g.names.drop id).find? grammar.stray = some name)
    (he : grammar.resolve name = .error e) (hend : g.size ≤ id + n) :
    deriveFrom grammar dedup n id g = .error e := by
  have hlt : id < g.size := by
    by_contra hge
    rw [List.drop_eq_nil_of_le (by simpa using hge)] at hname
    cases hname
  induction n generalizing id g with
  | zero => exact absurd hlt (Nat.not_lt.mpr hend)
  | succ n ih =>
    rw [drop_names hlt,List.find?_cons] at hname
    have hnext {g' : Graph} (hn : g'.names = g.names)
        (hrest : (g.names.drop (id + 1)).find? grammar.stray = some name) : id + 1 < g'.size := by
      by_contra hge
      rw [← hn,List.drop_eq_nil_of_le (by simpa using hge)] at hrest
      cases hrest
    rw [deriveFrom]
    cases hstray : grammar.stray (g.group id).name with
    | true =>
      obtain rfl : (g.group id).name = name := by simpa [hstray] using hname
      obtain ⟨-,hconv,-⟩ := stray_eq_true.mp hstray
      have hres : (g.group id).resolved = false := by
        by_contra hc
        obtain ⟨rules,hr⟩ := h.answered id hlt (by simpa using hc)
        rw [hr] at he
        cases he
      simp [hres,hconv,Graph.derive,he]
    | false =>
      rw [hstray] at hname
      split
      · exact ih h hname (by omega) (hnext rfl hname)
      · rename_i hpending
        obtain ⟨hres,hconv⟩ : (g.group id).resolved = false ∧
            (SymbolName.parse (g.group id).name).conventional = true := by simpa using hpending
        cases hr : grammar.resolve (g.group id).name with
        | error e' =>
          rw [stray_eq_true.mpr ⟨h.pending id hlt hres,hconv,e',hr⟩] at hstray
          cases hstray
        | ok rules =>
          obtain ⟨g',hd,h',hn,-,-⟩ := h.derive hlt hres hr
          have hsize : g'.size = g.size := size_eq_of_names hn
          simp only [hd]
          exact ih h' (hn ▸ hname) (by omega) (hnext hn hname)

theorem Partway.deriveFrom_done (h : Partway grammar dedup g)
    (hstray : ∀ name ∈ g.names, grammar.stray name = false) {n : Nat} {id : GroupId}
    (hbefore : ∀ i < g.size, i < id → (g.group i).resolved = false →
      (SymbolName.parse (g.group i).name).conventional = false) (hend : g.size ≤ id + n) :
    ∃ G, deriveFrom grammar dedup n id g = .ok G ∧ Partway grammar dedup G ∧ G.names = g.names ∧
      ∀ i < G.size, (G.group i).resolved = false →
        (SymbolName.parse (G.group i).name).conventional = false := by
  induction n generalizing id g with
  | zero => exact ⟨g,rfl,h,rfl,fun i hi => hbefore i hi (by omega)⟩
  | succ n ih =>
    rw [deriveFrom]
    split
    · rename_i hskip
      refine ih h hstray (fun i hi hlt hres => ?_) (by omega)
      by_cases hi' : i < id
      · exact hbefore i hi hi' hres
      · obtain rfl : i = id := by omega
        simpa [hres] using hskip
    · rename_i hpending
      obtain ⟨hres,hconv⟩ : (g.group id).resolved = false ∧
          (SymbolName.parse (g.group id).name).conventional = true := by simpa using hpending
      have hlt : id < g.size := lt_size_of_conventional hconv
      have hmem : (g.group id).name ∈ g.names := group_name_mem_names hlt
      cases hr : grammar.resolve (g.group id).name with
      | error e =>
        have hno := hstray _ hmem
        rw [stray_eq_true.mpr ⟨h.pending id hlt hres,hconv,e,hr⟩] at hno
        cases hno
      | ok rules =>
        obtain ⟨g',hd,h',hn,hid,hs⟩ := h.derive hlt hres hr
        have hsize : g'.size = g.size := size_eq_of_names hn
        simp only [hd]
        have hbefore' : ∀ i < g'.size, i < id + 1 → (g'.group i).resolved = false →
            (SymbolName.parse (g'.group i).name).conventional = false := by
          intro i hi hlt' hres'
          by_cases he : i = id
          · rw [he,hid] at hres'
            cases hres'
          · rw [(hs i).name_eq]
            exact hbefore i (hsize ▸ hi) (by omega) ((hs i).waits hres')
        obtain ⟨G,hG,hpart,hnames,hleft⟩ := ih h' (hn ▸ hstray) hbefore' (by omega)
        exact ⟨G,hG,hpart,hnames.trans hn,hleft⟩

theorem mem_keyRules {keys : List (String × GroupRules)} {rule : String} :
    rule ∈ keyRules dedup keys ↔ ∃ key ∈ keys, rule ∈ key.2.all := by
  simp [keyRules]

/-- Distinct keys with balanced rules are declared. The names are then the keys and what the rules
mention, and those that are no keys stand in the order of the mentions. -/
theorem declareKeys_of_mentions (hnodup : grammar.names.Nodup) {symbols : List String}
    (hsymbols : mentions (keyRules dedup grammar.groups) = .ok symbols) :
    ∃ declared, empty.declareKeys dedup grammar.groups = .ok declared ∧
      Partway grammar dedup declared ∧
      (∀ p : String → Bool, (∀ name ∈ grammar.names, p name = false) →
        declared.names.find? p = symbols.find? p) ∧
      ∀ name, name ∈ declared.names ↔ name ∈ grammar.names ∨ name ∈ symbols := by
  have hparse := exists_mentions_iff.mp ⟨symbols,hsymbols⟩
  obtain ⟨declared,hkeys⟩ : ∃ declared, empty.declareKeys dedup grammar.groups = .ok declared :=
    declareKeys_isOk (fun key hkey => exists_mentions_arrange.mpr fun rule hrule =>
      hparse rule (mem_keyRules.mpr ⟨key,hkey,hrule⟩)) hnodup (by simp)
  obtain ⟨sequence,hsequence,hdedup,hcovers⟩ := exists_sequence_of_declareKeys hkeys
  refine ⟨declared,hkeys,⟨Reached.empty.declareKeys hkeys,hcovers,
    fun _ => pending_of_declareKeys hkeys,fun i hi hres => ?_⟩,fun p hp => ?_,fun name => ?_⟩
  · have hmem : (declared.group i).name ∈ grammar.names :=
      (resolved_of_declareKeys hkeys hi).mp hres
    cases hget : grammar.get? (declared.group i).name with
    | none => exact absurd hmem (get?_eq_none.mp hget)
    | some rules => exact ⟨_,resolve_of_get? hget⟩
  · rw [hdedup,find?_eraseDups]
    exact find?_keyMentions (fun key hkey => hp _ (List.mem_map_of_mem hkey)) hsymbols hsequence
  · rw [hdedup,List.mem_eraseDups,mem_keyMentions hsequence,mem_mentions hsymbols]
    simp only [mem_keyRules,and_or_left,exists_or,Grammar.names,List.mem_map,eq_comm]
    refine or_congr_right ⟨?_,?_⟩
    · rintro ⟨key,hkey,rule,hrule,ht⟩
      exact ⟨rule,⟨key,hkey,hrule⟩,ht⟩
    · rintro ⟨rule,⟨key,hkey,hrule⟩,ht⟩
      exact ⟨key,hkey,rule,hrule,ht⟩

end Graph

end PhraseGrammar
