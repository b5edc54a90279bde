import PhraseGrammar.Graph.Build
import PhraseGrammar.Proofs.Lists

/-! Which graphs references and declarations make, and what all of them have in common: names are
distinct, and a rule's references are the groups that its placeholders name. -/
namespace PhraseGrammar

theorem Template.source_of_parse {source : String} {t : Template}
    (h : Template.parse source = .ok t) : t.source = source := by
  unfold Template.parse at h
  split at h
  · exact (Except.ok.inj h) ▸ rfl
  · cases h

namespace Graph

@[simp] theorem names_empty : empty.names = [] := rfl

@[simp] theorem length_names (g : Graph) : g.names.length = g.size := by simp [names,size]

theorem size_eq_of_names {g h : Graph} (hn : g.names = h.names) : g.size = h.size := by
  rw [← length_names,hn,length_names]

theorem group_of_size_le {g : Graph} {id : GroupId} (h : g.size ≤ id) :
    g.group id = .pending "" := by
  unfold size at h
  simp [group,h]

theorem getElem?_groups {g : Graph} {id : GroupId} (h : id < g.size) :
    g.groups[id]? = some (g.group id) := by
  unfold size at h
  simp [group,h]

theorem getElem?_names {g : Graph} {id : GroupId} {name : String} :
    g.names[id]? = some name ↔ id < g.size ∧ (g.group id).name = name := by
  by_cases h : id < g.size
  · simp [names,getElem?_groups h,h]
  · have hn : g.names[id]? = none := by simpa using h
    simp [h]

theorem lt_size_of_getElem?_names {g : Graph} {id : GroupId} {name : String}
    (h : g.names[id]? = some name) : id < g.size := (getElem?_names.mp h).1

theorem getElem?_names_of_idOf? {g : Graph} {name : String} {id : GroupId}
    (h : g.idOf? name = some id) : g.names[id]? = some name := by
  obtain ⟨hlt,he,-⟩ := List.idxOf?_eq_some_iff.mp h
  rw [List.getElem?_eq_getElem hlt,he]

theorem lt_size_of_idOf? {g : Graph} {name : String} {id : GroupId}
    (h : g.idOf? name = some id) : id < g.size :=
  lt_size_of_getElem?_names (getElem?_names_of_idOf? h)

theorem group_name_mem_names {g : Graph} {id : GroupId} (h : id < g.size) :
    (g.group id).name ∈ g.names :=
  List.mem_of_getElem? (getElem?_names.mpr ⟨h,rfl⟩)

theorem idOf?_eq_none {g : Graph} {name : String} : g.idOf? name = none ↔ name ∉ g.names :=
  List.idxOf?_eq_none_iff

theorem mem_names_of_idOf? {g : Graph} {name : String} {id : GroupId}
    (h : g.idOf? name = some id) : name ∈ g.names :=
  List.mem_of_getElem? (getElem?_names_of_idOf? h)

theorem mem_groups {g : Graph} {group : Group} :
    group ∈ g.groups ↔ ∃ id, id < g.size ∧ g.group id = group := by
  constructor
  · intro h
    obtain ⟨id,hid⟩ := List.mem_iff_getElem?.mp h
    have hlt : id < g.size := (List.getElem?_eq_some_iff.mp hid).1
    exact ⟨id,hlt,Option.some.inj ((getElem?_groups hlt).symm.trans hid)⟩
  · rintro ⟨id,hlt,rfl⟩
    exact List.mem_of_getElem? (getElem?_groups hlt)

/-- The graph with a pending group for each name that it lacks, in order of first mention. -/
def mention (g : Graph) (names : List String) : Graph :=
  ⟨g.groups ++ (names.removeAll g.names).eraseDups.map Group.pending⟩

@[simp] theorem names_mention (g : Graph) (names : List String) :
    (g.mention names).names = g.names ++ (names.removeAll g.names).eraseDups := by
  simp [mention,Graph.names,Function.comp_def,Group.pending]

@[simp] theorem mention_nil (g : Graph) : g.mention [] = g := by simp [mention]

theorem mem_names_mention {g : Graph} {names : List String} {name : String} :
    name ∈ (g.mention names).names ↔ name ∈ g.names ∨ name ∈ names := by
  simp only [names_mention,List.mem_append,List.mem_eraseDups,List.removeAll,List.mem_filter]
  by_cases h : name ∈ g.names <;> simp [h]

theorem mention_mention (g : Graph) (before after : List String) :
    (g.mention before).mention after = g.mention (before ++ after) := by
  have hr : after.removeAll (g.names ++ (before.removeAll g.names).eraseDups) =
      (after.removeAll g.names).removeAll (before.removeAll g.names) := by
    simp only [List.removeAll,List.filter_filter]
    apply List.filter_congr
    intro name hname
    by_cases h : name ∈ g.names <;> by_cases h' : name ∈ before <;> simp [h,h']
  have ha : (before ++ after).removeAll g.names =
      before.removeAll g.names ++ after.removeAll g.names := by
    simp [List.removeAll]
  simp only [mention,Graph.mk.injEq]
  rw [show Graph.names ⟨g.groups ++ (before.removeAll g.names).eraseDups.map Group.pending⟩ =
      g.names ++ (before.removeAll g.names).eraseDups from names_mention g before,
    hr,ha,List.eraseDups_append,List.map_append,List.append_assoc]

theorem getElem?_names_mention {g : Graph} {id : GroupId} {name : String} (names : List String)
    (h : g.names[id]? = some name) : (g.mention names).names[id]? = some name := by
  rw [names_mention,List.getElem?_append_left (by simpa using lt_size_of_getElem?_names h),h]

theorem group_mention (g : Graph) (names : List String) (id : GroupId) :
    id < g.size ∧ (g.mention names).group id = g.group id ∨
      ∃ name, (g.mention names).group id = .pending name := by
  simp only [group,mention,List.getD_eq_getElem?_getD]
  by_cases hlt : id < g.size
  · unfold size at hlt
    exact .inl ⟨hlt,by rw [List.getElem?_append_left hlt]⟩
  · unfold size at hlt
    rw [List.getElem?_append_right (Nat.le_of_not_lt hlt),List.getElem?_map]
    cases (names.removeAll g.names).eraseDups[id - g.groups.length]? with
    | none => exact .inr ⟨"",rfl⟩
    | some name => exact .inr ⟨name,rfl⟩

theorem reference_snd (g : Graph) (name : String) : (g.reference name).2 = g.mention [name] := by
  unfold reference mention
  cases h : g.idOf? name with
  | some id =>
    have hn : [name].removeAll g.names = [] := by
      simp [List.removeAll,mem_names_of_idOf? h]
    simp [hn]
  | none =>
    have hn : [name].removeAll g.names = [name] := by
      simp [List.removeAll,idOf?_eq_none.mp h]
    simp [hn,List.eraseDups_cons]

theorem getElem?_names_reference (g : Graph) (name : String) :
    (g.mention [name]).names[(g.reference name).1]? = some name := by
  rw [← reference_snd]
  unfold reference
  cases h : g.idOf? name with
  | some id => exact getElem?_names_of_idOf? h
  | none => simp [names,size,Group.pending]

theorem referenceAll_snd (g : Graph) (names : List String) :
    (g.referenceAll names).2 = g.mention names := by
  induction names generalizing g with
  | nil => simp [referenceAll]
  | cons name names ih =>
    simp only [referenceAll]
    rw [ih,reference_snd,mention_mention]
    rfl

theorem referenceAll_fst (g : Graph) (names : List String) :
    List.Forall₂ (fun id name => (g.mention names).names[id]? = some name)
      (g.referenceAll names).1 names := by
  induction names generalizing g with
  | nil => exact .nil
  | cons name names ih =>
    simp only [referenceAll]
    rw [reference_snd]
    have hm := mention_mention g [name] names
    rw [List.singleton_append] at hm
    rw [← hm]
    exact .cons (getElem?_names_mention names (getElem?_names_reference g name)) (ih _)

theorem group_update_eq (g : Graph) (id : GroupId) (f : Group → Group) (other : GroupId) :
    (g.update id f).group other =
      if id = other ∧ other < g.size then f (g.group other) else g.group other := by
  by_cases he : id = other
  · subst he
    by_cases hlt : id < g.groups.length <;> simp [group,update,size,hlt]
  · simp [group,update,he]

theorem group_update (g : Graph) (id : GroupId) (f : Group → Group) (other : GroupId) :
    (g.update id f).group other = g.group other ∨
      (g.update id f).group other = f (g.group other) := by
  rw [group_update_eq]
  split
  · exact .inr rfl
  · exact .inl rfl

theorem names_update {g : Graph} {id : GroupId} {f : Group → Group}
    (hf : ∀ group, (f group).name = group.name) : (g.update id f).names = g.names := by
  apply List.ext_getElem?
  intro i
  rw [names,names,update,List.getElem?_map,List.getElem?_map,List.getElem?_modify]
  cases g.groups[i]? with
  | none => rfl
  | some group => by_cases h : id = i <;> simp [h,hf]

end Graph

/-- The rule is parsed, and each of its references is the group that the placeholder names. -/
structure Rule.FitsIn (rule : Rule) (g : Graph) : Prop where
  parsed : Template.parse rule.source = .ok rule.template
  references : List.Forall₂ (fun id symbol => g.names[id]? = some symbol)
    rule.references rule.template.symbols

theorem Rule.FitsIn.mono {rule : Rule} {g h : Graph} (hr : rule.FitsIn g)
    (hn : ∀ (id : GroupId) (name : String), g.names[id]? = some name → h.names[id]? = some name) :
    rule.FitsIn h :=
  ⟨hr.parsed,hr.references.imp hn⟩

namespace Graph

/-- What declared rules mention, in order. -/
def ruleSymbols (rules : List Rule) : List String := rules.flatMap fun r => r.template.symbols

theorem parseRules_of_ok {g : Graph} {sources : List String} {rules : List Rule}
    (h : (g.parseRules sources).1 = .ok rules) :
    (g.parseRules sources).2 = g.mention (ruleSymbols rules) ∧
      rules.map Rule.source = sources ∧
      ∀ rule ∈ rules, rule.FitsIn (g.mention (ruleSymbols rules)) := by
  induction sources generalizing g rules with
  | nil =>
    have hr : rules = [] := (Except.ok.inj h).symm
    subst hr
    simp [parseRules,ruleSymbols]
  | cons source sources ih =>
    simp only [parseRules] at h ⊢
    cases ht : Template.parse source with
    | error e => simp [ht] at h
    | ok template =>
      simp only [ht,referenceAll_snd] at h ⊢
      cases hp : ((g.mention template.symbols).parseRules sources).1 with
      | error e => simp [hp,Except.map] at h
      | ok rest =>
        simp only [hp,Except.map,Except.ok.injEq] at h
        subst h
        obtain ⟨hg,hs,hf⟩ := ih hp
        have hm : (g.mention template.symbols).mention (ruleSymbols rest) =
            g.mention (ruleSymbols (⟨template,(g.referenceAll template.symbols).1⟩ :: rest)) :=
          mention_mention g _ _
        have hsource := Template.source_of_parse ht
        refine ⟨hg.trans hm,by simp [Rule.source,hs,hsource],?_⟩
        rw [← hm]
        intro rule hrule
        rcases List.mem_cons.mp hrule with rfl | hrule
        · refine ⟨by simpa [Rule.source,hsource] using ht,?_⟩
          exact (referenceAll_fst g _).imp fun id name hid => getElem?_names_mention _ hid
        · exact hf rule hrule

theorem parseRules_snd (g : Graph) (sources : List String) :
    ∃ mentioned, (g.parseRules sources).2 = g.mention mentioned := by
  induction sources generalizing g with
  | nil => exact ⟨[],by simp [parseRules]⟩
  | cons source sources ih =>
    simp only [parseRules]
    cases ht : Template.parse source with
    | error e => exact ⟨[],by simp⟩
    | ok template =>
      simp only [referenceAll_snd]
      obtain ⟨mentioned,hm⟩ := ih (g.mention template.symbols)
      exact ⟨template.symbols ++ mentioned,by rw [hm,mention_mention]⟩

/-- What a declaration comes to: the name is taken, a rule is unbalanced, or the group gets its
rules. -/
inductive Declares (g : Graph) (name : String) (sources : List String) :
    Except Error GroupId × Graph → Prop
  | taken {id : GroupId} (hid : g.names[id]? = some name) (hres : (g.group id).resolved = true) :
    Declares g name sources (.error (.duplicateGroup name),g)
  | unbalanced {e : Error} {mentioned : List String}
    (he : ((g.mention [name]).parseRules sources).1 = .error e) :
    Declares g name sources (.error e,g.mention (name :: mentioned))
  | declared {id : GroupId} {rules : List Rule}
    (hid : (g.mention (name :: ruleSymbols rules)).names[id]? = some name)
    (hres : ((g.mention (name :: ruleSymbols rules)).group id).resolved = false)
    (hsources : rules.map Rule.source = sources)
    (hfit : ∀ rule ∈ rules, rule.FitsIn (g.mention (name :: ruleSymbols rules))) :
    Declares g name sources
      (.ok id,(g.mention (name :: ruleSymbols rules)).update id (·.declared rules))

theorem resolved_mention {g : Graph} {id : GroupId} {names : List String}
    (h : ((g.mention names).group id).resolved = true) :
    id < g.size ∧ (g.group id).resolved = true := by
  rcases group_mention g names id with ⟨hlt,he⟩ | ⟨name,he⟩
  · exact ⟨hlt,he ▸ h⟩
  · simp [he,Group.pending] at h

theorem resolved_mention_eq {g : Graph} {id : GroupId} {names : List String}
    (h : (g.group id).resolved = false) : ((g.mention names).group id).resolved = false := by
  by_contra hc
  have hr := resolved_mention (by simpa using hc)
  simp [h] at hr

theorem declares (g : Graph) (name : String) (sources : List String) :
    Declares g name sources (g.declare name sources) := by
  have hid := getElem?_names_reference g name
  simp only [declare,reference_snd]
  split
  · rename_i hres
    obtain ⟨hlt,hr⟩ := resolved_mention hres
    rw [names_mention,List.getElem?_append_left (by simpa using hlt)] at hid
    exact .taken hid hr
  · rename_i hres
    have hres := Bool.eq_false_iff.mpr hres
    split
    · rename_i e g'' hp
      obtain ⟨mentioned,hm⟩ := parseRules_snd (g.mention [name]) sources
      rw [hp,mention_mention] at hm
      have hm : g'' = g.mention (name :: mentioned) := hm
      subst hm
      exact .unbalanced (by rw [hp])
    · rename_i rules g'' hp
      obtain ⟨hg,hs,hf⟩ := parseRules_of_ok (congrArg Prod.fst hp)
      have hm : (g.mention [name]).mention (ruleSymbols rules) =
          g.mention (name :: ruleSymbols rules) := mention_mention g _ _
      rw [hp] at hg
      rw [hm] at hg hf
      have hg : g'' = g.mention (name :: ruleSymbols rules) := hg
      subst hg
      refine .declared ?_ ?_ hs hf
      · rw [← hm]
        exact getElem?_names_mention _ hid
      · rw [← hm]
        exact resolved_mention_eq hres

/-- Taken from no other group: only the derivation of a name notes where its rules come from. -/
def Plain (g : Graph) : Prop := ∀ id, (g.group id).derived = false ∧ (g.group id).base = none

theorem plain_empty : empty.Plain := fun id => by
  rw [group_of_size_le (Nat.zero_le id)]
  exact ⟨rfl,rfl⟩

theorem Plain.mention {g : Graph} (h : g.Plain) (names : List String) :
    (g.mention names).Plain := by
  intro id
  rcases group_mention g names id with ⟨-,he⟩ | ⟨name,he⟩ <;> rw [he]
  · exact h id
  · exact ⟨rfl,rfl⟩

theorem Plain.declare {g : Graph} (h : g.Plain) (name : String) (sources : List String) :
    (g.declare name sources).2.Plain := by
  have hd := declares g name sources
  generalize g.declare name sources = result at hd ⊢
  cases hd with
  | taken => exact h
  | unbalanced => exact h.mention _
  | @declared other rules =>
    intro id
    rcases group_update (g.mention (name :: ruleSymbols rules)) other (·.declared rules) id with
      he | he <;> rw [he]
    · exact h.mention _ id
    · exact h.mention _ id

/-- What references and declarations keep. -/
structure WellFormed (g : Graph) : Prop where
  nodup : g.names.Nodup
  fits : ∀ id, ∀ rule ∈ (g.group id).rules, rule.FitsIn g
  dependencies : ∀ id, (g.group id).dependencies =
    ((g.group id).rules.flatMap Rule.references).eraseDups
  pending : ∀ id, (g.group id).resolved = false → (g.group id).rules = []

theorem wellFormed_empty : empty.WellFormed := by
  have hg (id : GroupId) : empty.group id = .pending "" := group_of_size_le (Nat.zero_le id)
  constructor <;> simp [hg,Group.pending]

theorem WellFormed.idOf?_eq_some {g : Graph} (hg : g.WellFormed) {name : String} {id : GroupId} :
    g.idOf? name = some id ↔ g.names[id]? = some name := idxOf?_eq_some_of_nodup hg.nodup

theorem WellFormed.idOf?_name {g : Graph} (hg : g.WellFormed) {id : GroupId} (h : id < g.size) :
    g.idOf? (g.group id).name = some id :=
  hg.idOf?_eq_some.mpr (getElem?_names.mpr ⟨h,rfl⟩)

theorem WellFormed.mention {g : Graph} (hg : g.WellFormed) (names : List String) :
    (g.mention names).WellFormed where
  nodup := by
    rw [names_mention]
    refine List.nodup_append.mpr ⟨hg.nodup,nodup_eraseDups _,fun old hold new hnew he => ?_⟩
    subst he
    simp [List.removeAll,hold] at hnew
  fits id rule hrule := by
    rcases group_mention g names id with ⟨-,he⟩ | ⟨name,he⟩ <;> rw [he] at hrule
    · exact (hg.fits id rule hrule).mono fun _ _ => getElem?_names_mention names
    · simp [Group.pending] at hrule
  dependencies id := by
    rcases group_mention g names id with ⟨-,he⟩ | ⟨name,he⟩ <;> rw [he]
    · exact hg.dependencies id
    · rfl
  pending id hres := by
    rcases group_mention g names id with ⟨-,he⟩ | ⟨name,he⟩ <;> rw [he] at hres ⊢
    · exact hg.pending id hres
    · rfl

theorem WellFormed.reference {g : Graph} (hg : g.WellFormed) (name : String) :
    (g.reference name).2.WellFormed := by
  rw [reference_snd]
  exact hg.mention _

theorem WellFormed.update_declared {g : Graph} (hg : g.WellFormed) (id : GroupId)
    {rules : List Rule} (hfit : ∀ rule ∈ rules, rule.FitsIn g) :
    (g.update id (·.declared rules)).WellFormed := by
  have hn : (g.update id (·.declared rules)).names = g.names := names_update fun _ => rfl
  have hmono {rule : Rule} (h : rule.FitsIn g) : rule.FitsIn (g.update id (·.declared rules)) :=
    h.mono fun _ _ hid => hn.symm ▸ hid
  constructor
  · rw [hn]
    exact hg.nodup
  · intro other rule hrule
    rcases group_update g id (·.declared rules) other with h | h <;> rw [h] at hrule
    · exact hmono (hg.fits other rule hrule)
    · exact hmono (hfit rule hrule)
  · intro other
    rcases group_update g id (·.declared rules) other with h | h <;> rw [h]
    · exact hg.dependencies other
    · rfl
  · intro other hres
    rcases group_update g id (·.declared rules) other with h | h <;> rw [h] at hres ⊢
    · exact hg.pending other hres
    · simp [Group.declared] at hres

theorem WellFormed.update_derivedFrom {g : Graph} (hg : g.WellFormed) (id : GroupId)
    (base : Option GroupId) : (g.update id (·.derivedFrom base)).WellFormed := by
  have hn : (g.update id (·.derivedFrom base)).names = g.names := names_update fun _ => rfl
  constructor
  · rw [hn]
    exact hg.nodup
  · intro other rule hrule
    have hrule : rule ∈ (g.group other).rules := by
      rcases group_update g id (·.derivedFrom base) other with h | h <;> rwa [h] at hrule
    exact (hg.fits other rule hrule).mono fun _ _ hid => hn.symm ▸ hid
  · intro other
    rcases group_update g id (·.derivedFrom base) other with h | h <;> rw [h]
    · exact hg.dependencies other
    · exact hg.dependencies other
  · intro other hres
    rcases group_update g id (·.derivedFrom base) other with h | h <;> rw [h] at hres ⊢
    · exact hg.pending other hres
    · exact hg.pending other hres

theorem WellFormed.declare {g : Graph} (hg : g.WellFormed) (name : String)
    (sources : List String) : (g.declare name sources).2.WellFormed := by
  have hd := declares g name sources
  generalize g.declare name sources = result at hd ⊢
  cases hd with
  | taken => exact hg
  | unbalanced => exact hg.mention _
  | declared hid hres hs hfit => exact (hg.mention _).update_declared _ hfit

/-- The graphs that sequences of references and declarations make, failing ones included. Noting
where a group is derived from changes nothing else about it. -/
inductive Reached : Graph → Prop
  | empty : Reached .empty
  | reference {g : Graph} (name : String) (hg : Reached g) : Reached (g.reference name).2
  | declare {g : Graph} (name : String) (sources : List String) (hg : Reached g) :
    Reached (g.declare name sources).2
  | derivedFrom {g : Graph} (id : GroupId) (base : Option GroupId) (hg : Reached g) :
    Reached (g.update id (·.derivedFrom base))

theorem Reached.wellFormed {g : Graph} (hg : g.Reached) : g.WellFormed := by
  induction hg with
  | empty => exact wellFormed_empty
  | reference name _ ih => exact ih.reference name
  | declare name sources _ ih => exact ih.declare name sources
  | derivedFrom id base _ ih => exact ih.update_derivedFrom id base

end Graph

end PhraseGrammar
