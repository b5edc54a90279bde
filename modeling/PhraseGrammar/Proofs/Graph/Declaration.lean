import PhraseGrammar.Proofs.Graph.Edits
import PhraseGrammar.Proofs.Graph.Refusal

/-! What a declaration may change. Names are met while rules are parsed, before it is known whether
all of them are balanced, so a declaration that fails has added pending groups. It has changed no
group that was there, and the name can still be declared. -/
namespace PhraseGrammar

theorem Template.parse_of_unbalanced {rule : String} (h : Template.unbalanced rule = true) :
    Template.parse rule = .error (.unbalancedDelimiters rule) := by
  have hmentions : Grammar.mentions [rule] = .error (.unbalancedDelimiters rule) :=
    Grammar.find?_unbalanced_eq_some (by simp [h])
  rw [Grammar.mentions_cons] at hmentions
  cases ht : Template.parse rule with
  | error e =>
    rw [ht] at hmentions
    exact congrArg Except.error (Except.error.inj hmentions)
  | ok template =>
    rw [ht] at hmentions
    cases hmentions

namespace Graph

variable {g : Graph} {name rule : String} {sources before symbols : List String}

def Resolved (g : Graph) (name : String) : Prop :=
  ∃ id, g.idOf? name = some id ∧ (g.group id).resolved = true

theorem not_resolved_of_waits {id : GroupId} (hid : g.idOf? name = some id)
    (h : (g.group id).resolved = false) : ¬ g.Resolved name := by
  rintro ⟨other,hother,hres⟩
  obtain rfl := Option.some.inj (hid.symm.trans hother)
  rw [h] at hres
  cases hres

theorem group_mention_of_lt (names : List String) {id : GroupId} (h : id < g.size) :
    (g.mention names).group id = g.group id := by
  unfold size at h
  simp only [group,mention,List.getD_eq_getElem?_getD,List.getElem?_append_left h]

theorem group_mention_of_size_le (names : List String) {id : GroupId} (h : g.size ≤ id) :
    ∃ new, (g.mention names).group id = .pending new := by
  rcases group_mention g names id with ⟨hlt,-⟩ | hnew
  · exact absurd hlt (Nat.not_lt.mpr h)
  · exact hnew

theorem lt_size_of_resolved {id : GroupId} (h : (g.group id).resolved = true) : id < g.size := by
  by_contra hge
  rw [group_of_size_le (Nat.le_of_not_lt hge)] at h
  cases h

theorem group_update_of_ne (f : Group → Group) {id other : GroupId} (h : other ≠ id) :
    (g.update id f).group other = g.group other := by
  rw [group_update_eq,if_neg fun hid => h hid.1.symm]

theorem group_update_self (f : Group → Group) {id : GroupId} (h : id < g.size) :
    (g.update id f).group id = f (g.group id) := by
  rw [group_update_eq,if_pos ⟨rfl,h⟩]

/-- Positions are found by first occurrence, so names that are added behind move none of them. -/
theorem idOf?_of_extended {g' : Graph} (h : g.names <+: g'.names) {id : GroupId}
    (hid : g.idOf? name = some id) : g'.idOf? name = some id := by
  obtain ⟨added,hadded⟩ := h
  obtain ⟨hlt,he,hfirst⟩ := List.idxOf?_eq_some_iff.mp hid
  rw [idOf?,← hadded]
  refine List.idxOf?_eq_some_iff.mpr ⟨by simpa using Nat.lt_add_right _ hlt,?_,fun i hi => ?_⟩
  · rw [List.getElem_append_left hlt,he]
  · rw [List.getElem_append_left (hi.trans hlt)]
    exact hfirst i hi

theorem parseRules_of_unbalanced (hsymbols : Grammar.mentions before = .ok symbols)
    (hrule : Template.unbalanced rule = true) (g : Graph) (after : List String) :
    g.parseRules (before ++ rule :: after) =
      (.error (.unbalancedDelimiters rule),g.mention symbols) := by
  induction before generalizing g symbols with
  | nil =>
    obtain rfl := Except.ok.inj hsymbols
    rw [List.nil_append,parseRules,Template.parse_of_unbalanced hrule,mention_nil]
  | cons source before ih =>
    obtain ⟨template,rest,ht,hrest,rfl⟩ := Grammar.mentions_cons_eq_ok.mp hsymbols
    simp only [List.cons_append,parseRules,ht,referenceAll_snd]
    rw [ih hrest,mention_mention]
    rfl

theorem parseRules_of_mentions (hsymbols : Grammar.mentions sources = .ok symbols) (g : Graph) :
    ∃ rules, g.parseRules sources = (.ok rules,g.mention symbols) ∧
      rules.map Rule.source = sources := by
  obtain ⟨rules,hrules⟩ := parseRules_isOk (g:=g) hsymbols
  obtain ⟨hgraph,hsources,hfit⟩ := parseRules_of_ok hrules
  have hmentions := mentions_sources hfit
  rw [hsources,hsymbols] at hmentions
  refine ⟨rules,Prod.ext hrules ?_,hsources⟩
  rw [hgraph,← Except.ok.inj hmentions]

theorem declare_of_resolved (h : g.Resolved name) (sources : List String) :
    g.declare name sources = (.error (.duplicateGroup name),g) := by
  obtain ⟨id,hid,hres⟩ := h
  have href : g.reference name = (id,g) := by rw [reference,hid]
  simp only [declare,href,hres,if_true]

theorem resolved_reference (h : ¬ g.Resolved name) :
    ((g.mention [name]).group (g.reference name).1).resolved = false := by
  by_contra hres
  obtain ⟨hlt,hres⟩ := resolved_mention (by simpa using hres)
  cases hid : g.idOf? name with
  | none => simp [reference,hid] at hlt
  | some id =>
    rw [reference,hid] at hres
    exact h ⟨id,hid,hres⟩

theorem declare_of_not_resolved (h : ¬ g.Resolved name) (sources : List String) :
    g.declare name sources =
      match (g.mention [name]).parseRules sources with
      | (.error e,g') => (.error e,g')
      | (.ok rules,g') =>
        (.ok (g.reference name).1,g'.update (g.reference name).1 (·.declared rules)) := by
  rcases hparse : (g.mention [name]).parseRules sources with ⟨e | rules,g'⟩ <;>
    simp only [declare,reference_snd,resolved_reference h,hparse,Bool.false_eq_true,if_false]

theorem declare_of_unbalanced_rule (h : ¬ g.Resolved name)
    (hsymbols : Grammar.mentions before = .ok symbols) (hrule : Template.unbalanced rule = true)
    (after : List String) : g.declare name (before ++ rule :: after) =
      (.error (.unbalancedDelimiters rule),g.mention (name :: symbols)) := by
  simp only [declare_of_not_resolved h,parseRules_of_unbalanced hsymbols hrule,mention_mention,
    List.singleton_append]

theorem declare_of_mentions (h : ¬ g.Resolved name)
    (hsymbols : Grammar.mentions sources = .ok symbols) : ∃ rules,
    g.declare name sources = (.ok (g.reference name).1,
      (g.mention (name :: symbols)).update (g.reference name).1 (·.declared rules)) ∧
      rules.map Rule.source = sources := by
  obtain ⟨rules,hrules,hsources⟩ := parseRules_of_mentions hsymbols (g.mention [name])
  rw [mention_mention,List.singleton_append] at hrules
  exact ⟨rules,by rw [declare_of_not_resolved h,hrules],hsources⟩

/-- What every call keeps: names and their positions, and groups that have their rules. -/
structure Keeps (g g' : Graph) : Prop where
  names : g.names <+: g'.names
  resolved : ∀ id, (g.group id).resolved = true → g'.group id = g.group id

theorem Keeps.refl (g : Graph) : g.Keeps g := ⟨List.prefix_refl _,fun _ _ => rfl⟩

theorem Keeps.trans {g₁ g₂ g₃ : Graph} (h : g₁.Keeps g₂) (h' : g₂.Keeps g₃) : g₁.Keeps g₃ := by
  refine ⟨h.names.trans h'.names,fun id hres => ?_⟩
  have hkept := h.resolved id hres
  rw [h'.resolved id (hkept ▸ hres),hkept]

theorem keeps_mention (g : Graph) (names : List String) : g.Keeps (g.mention names) := by
  refine ⟨?_,fun id hres => group_mention_of_lt names (lt_size_of_resolved hres)⟩
  rw [names_mention]
  exact List.prefix_append _ _

theorem keeps_update {id : GroupId} {rules : List Rule} (hres : (g.group id).resolved = false) :
    g.Keeps (g.update id (·.declared rules)) := by
  refine ⟨?_,fun other hother => group_update_of_ne _ ?_⟩
  · rw [names_update (f:=(·.declared rules)) fun _ => rfl]
  · rintro rfl
    rw [hres] at hother
    cases hother

theorem keeps_declare (g : Graph) (name : String) (sources : List String) :
    g.Keeps (g.declare name sources).2 := by
  have hd := declares g name sources
  generalize g.declare name sources = result at hd ⊢
  cases hd with
  | taken => exact .refl g
  | unbalanced => exact keeps_mention g _
  | declared _ hres => exact (keeps_mention g _).trans (keeps_update hres)

theorem keeps_edit (g : Graph) (call : Edit) : g.Keeps (g.edit call) := by
  cases call with
  | reference name =>
    rw [edit,reference_snd]
    exact keeps_mention g _
  | declare name sources => exact keeps_declare g name sources

theorem keeps_edits (g : Graph) (calls : List Edit) : g.Keeps (g.edits calls) := by
  induction calls generalizing g with
  | nil => exact .refl g
  | cons call calls ih => exact (keeps_edit g call).trans (ih (g.edit call))

theorem idOf?_mention_self (g : Graph) (name : String) :
    (g.mention [name]).idOf? name = some (g.reference name).1 := by
  unfold reference
  cases hid : g.idOf? name with
  | some id => exact idOf?_of_extended (keeps_mention g _).names hid
  | none =>
    have hnew := idOf?_eq_none.mp hid
    rw [idOf?,List.idxOf?] at hid
    rw [idOf?,names_mention,List.idxOf?,List.findIdx?_append,hid]
    simp [List.removeAll,hnew,List.eraseDups_cons]

theorem resolved_mention_iff (names : List String) :
    (g.mention names).Resolved name ↔ g.Resolved name := by
  have hkeeps := keeps_mention g names
  constructor
  · rintro ⟨id,hid,hres⟩
    obtain ⟨hlt,hres⟩ := resolved_mention hres
    refine ⟨id,?_,hres⟩
    cases hold : g.idOf? name with
    | none =>
      have hname := getElem?_names_of_idOf? hid
      rw [names_mention,List.getElem?_append_left (by simpa using hlt)] at hname
      exact absurd (List.mem_of_getElem? hname) (idOf?_eq_none.mp hold)
    | some old => rw [← hid,idOf?_of_extended hkeeps.names hold]
  · rintro ⟨id,hid,hres⟩
    exact ⟨id,idOf?_of_extended hkeeps.names hid,hkeeps.resolved id hres ▸ hres⟩

/-- The graph after a declaration that succeeded: the group of the name has its rules, each new name
has a pending group behind the others, and nothing else is changed. -/
structure Gains (g : Graph) (name : String) (sources symbols : List String) (id : GroupId)
    (g' : Graph) : Prop where
  found : g'.idOf? name = some id
  resolved : (g'.group id).resolved = true ∧ (g'.group id).sources = sources
  names : g'.names = g.names ++ ((name :: symbols).removeAll g.names).eraseDups
  others : ∀ other < g.size, other ≠ id → g'.group other = g.group other
  added : ∀ other < g'.size, g.size ≤ other → other ≠ id → ∃ new, g'.group other = .pending new

theorem exists_gains (h : ¬ g.Resolved name) (hsymbols : Grammar.mentions sources = .ok symbols) :
    ∃ id g', g.declare name sources = (.ok id,g') ∧ g.Gains name sources symbols id g' := by
  obtain ⟨rules,hdeclare,hsources⟩ := declare_of_mentions h hsymbols
  have hmention : g.mention (name :: symbols) = (g.mention [name]).mention symbols :=
    (mention_mention g [name] symbols).symm
  have hid : (g.mention (name :: symbols)).idOf? name = some (g.reference name).1 := by
    rw [hmention]
    exact idOf?_of_extended (keeps_mention _ symbols).names (idOf?_mention_self g name)
  have hself := group_update_self (·.declared rules) (lt_size_of_idOf? hid)
  have hnames : ((g.mention (name :: symbols)).update (g.reference name).1
      (·.declared rules)).names = (g.mention (name :: symbols)).names := names_update fun _ => rfl
  refine ⟨_,_,hdeclare,?_,?_,?_,fun other hlt hne => ?_,fun other _ hle hne => ?_⟩
  · rw [idOf?,hnames]
    exact hid
  · rw [hself]
    exact ⟨rfl,hsources⟩
  · rw [hnames,names_mention]
  · rw [group_update_of_ne _ hne,group_mention_of_lt _ hlt]
  · rw [group_update_of_ne _ hne]
    exact group_mention_of_size_le _ hle

theorem resolved_iff_of_fails {e : Error} {g' : Graph}
    (h : g.declare name sources = (.error e,g')) : g'.Resolved name ↔ g.Resolved name := by
  have hd := declares g name sources
  rw [h] at hd
  cases hd with
  | taken => exact Iff.rfl
  | unbalanced => exact resolved_mention_iff _

/-- A declaration of a name that has its rules changes nothing. Another one fails for the first
unbalanced rule and then has added pending groups for what was met before it, or succeeds and
changes the group of the name only. Whatever is called, names keep their positions and groups that
have their rules stay as they are; and a name that has none can be declared at any time, also after
a declaration of it has failed. -/
theorem declare_confined (g : Graph) (name : String) (sources : List String) :
    (g.Resolved name → g.declare name sources = (.error (.duplicateGroup name),g)) ∧
    (¬ g.Resolved name → ∀ before rule after, sources = before ++ rule :: after →
      (∀ other ∈ before, Template.unbalanced other = false) → Template.unbalanced rule = true →
      ∃ symbols g', Grammar.mentions before = .ok symbols ∧
        g.declare name sources = (.error (.unbalancedDelimiters rule),g') ∧
        g'.groups = g.groups ++ ((name :: symbols).removeAll g.names).eraseDups.map .pending) ∧
    (¬ g.Resolved name → (∀ rule ∈ sources, Template.unbalanced rule = false) →
      ∃ symbols id g', Grammar.mentions sources = .ok symbols ∧
        g.declare name sources = (.ok id,g') ∧ g.Gains name sources symbols id g') ∧
    (∀ calls, g.names <+: (g.edits calls).names ∧
      (∀ other id, g.idOf? other = some id → (g.edits calls).idOf? other = some id) ∧
      ∀ id, (g.group id).resolved = true → (g.edits calls).group id = g.group id) ∧
    ∀ e g', g.declare name sources = (.error e,g') →
      (g'.Resolved name ↔ g.Resolved name) ∧
      ∀ calls, ¬ (g'.edits calls).Resolved name → ∀ balanced : List String,
        (∀ rule ∈ balanced, Template.unbalanced rule = false) →
        ∃ id, ((g'.edits calls).declare name balanced).1 = .ok id := by
  have hmentions (rules : List String) (h : ∀ rule ∈ rules, Template.unbalanced rule = false) :
      ∃ symbols, Grammar.mentions rules = .ok symbols :=
    Grammar.find?_unbalanced_eq_none.mp (by simpa using h)
  refine ⟨fun h => declare_of_resolved h sources,?_,?_,fun calls => ?_,fun e g' h => ?_⟩
  · rintro h before rule after rfl hbefore hrule
    obtain ⟨symbols,hsymbols⟩ := hmentions before hbefore
    exact ⟨symbols,_,hsymbols,declare_of_unbalanced_rule h hsymbols hrule after,rfl⟩
  · intro h hsources
    obtain ⟨symbols,hsymbols⟩ := hmentions sources hsources
    obtain ⟨id,g',hdeclare,hgains⟩ := exists_gains h hsymbols
    exact ⟨symbols,id,g',hsymbols,hdeclare,hgains⟩
  · have hkeeps := keeps_edits g calls
    exact ⟨hkeeps.names,fun other id => idOf?_of_extended hkeeps.names,hkeeps.resolved⟩
  · refine ⟨resolved_iff_of_fails h,fun calls hlater balanced hbalanced => ?_⟩
    obtain ⟨symbols,hsymbols⟩ := hmentions balanced hbalanced
    obtain ⟨id,g',hdeclare,-⟩ := exists_gains hlater hsymbols
    exact ⟨id,by rw [hdeclare]⟩

/-- A group that is declared, and one that waits for its rules. -/
def halfway : Graph := (empty.declare "a" ["#b#"]).2

theorem declare_confined_halfway :
    halfway.declare "a" ["#"] = (.error (.duplicateGroup "a"),halfway) ∧
    ∃ g', halfway.declare "b" ["#b##c.capitalize#","#d##a#","#","#e#"] =
        (.error (.unbalancedDelimiters "#"),g') ∧
      g'.groups = halfway.groups ++ [.pending "c",.pending "d"] ∧
      ∃ id, ((g'.edits [.reference "e",.declare "d" []]).declare "b" ["#e#"]).1 = .ok id := by
  have htaken : halfway.Resolved "a" := ⟨0,by decide +kernel,by decide +kernel⟩
  have hid : halfway.idOf? "b" = some 1 := by decide +kernel
  have hwaits : ¬ halfway.Resolved "b" := not_resolved_of_waits hid (by decide +kernel)
  have hnew : (["b","b","c","d","a"].removeAll halfway.names).eraseDups = ["c","d"] := by
    decide +kernel
  obtain ⟨-,hfails,-,-,hretry⟩ :=
    declare_confined halfway "b" ["#b##c.capitalize#","#d##a#","#","#e#"]
  obtain ⟨symbols,g',hsymbols,hdeclare,hgroups⟩ :=
    hfails hwaits ["#b##c.capitalize#","#d##a#"] "#" ["#e#"] rfl (by decide) (by decide)
  obtain rfl : symbols = ["b","c","d","a"] :=
    Except.ok.inj (hsymbols.symm.trans (by decide +kernel))
  rw [hnew] at hgroups
  obtain rfl : g' = ⟨halfway.groups ++ [.pending "c",.pending "d"]⟩ := congrArg Graph.mk hgroups
  have hid' : ((Graph.mk (halfway.groups ++ [.pending "c",.pending "d"])).edits
      [.reference "e",.declare "d" []]).idOf? "b" = some 1 := by decide +kernel
  have hlater := (hretry _ _ hdeclare).2 [.reference "e",.declare "d" []]
    (not_resolved_of_waits hid' (by decide +kernel))
  exact ⟨(declare_confined halfway "a" ["#"]).1 htaken,_,hdeclare,rfl,hlater ["#e#"] (by decide)⟩

end Graph
end PhraseGrammar
