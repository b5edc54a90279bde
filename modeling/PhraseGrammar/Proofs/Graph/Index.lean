import PhraseGrammar.Proofs.Graph.Edits

/-! Graphs as they are stored. Every group has its number in it, and names are found through an
index. A reference asks nothing but the index; a declaration has added groups for what its rules
mention before it knows whether it succeeds. Numbers and index are in step with the groups all the
while, so that the numbers identify the groups, in the rules and dependencies as well. -/
namespace PhraseGrammar

structure NumberedGroup extends Group where
  id : GroupId

namespace NumberedGroup

def pending (id : GroupId) (name : String) : NumberedGroup := ⟨.pending name,id⟩

/-- The dependencies grow by one reference after the other. -/
def declared (group : NumberedGroup) (rules : List Rule) : NumberedGroup :=
  { group with
    resolved := true
    rules
    dependencies :=
      rules.foldl (fun ids rule => rule.references.foldl note ids) group.dependencies }

theorem toGroup_declared {group : NumberedGroup} (h : group.dependencies = [])
    (rules : List Rule) : (group.declared rules).toGroup = group.toGroup.declared rules := by
  rw [declared,Group.declared,h,← List.foldl_flatMap,foldl_note]

end NumberedGroup

structure IndexedGraph where
  groups : List NumberedGroup
  index : Std.HashMap String GroupId

namespace IndexedGraph

def empty : IndexedGraph := ⟨[],∅⟩

def graph (t : IndexedGraph) : Graph := ⟨t.groups.map (·.toGroup)⟩

def push (t : IndexedGraph) (name : String) : IndexedGraph :=
  ⟨t.groups ++ [.pending t.groups.length name],t.index.insert name t.groups.length⟩

def update (t : IndexedGraph) (id : GroupId) (f : NumberedGroup → NumberedGroup) :
    IndexedGraph := ⟨t.groups.modify id f,t.index⟩

def reference (t : IndexedGraph) (name : String) : GroupId × IndexedGraph :=
  match t.index[name]? with
  | some id => (id,t)
  | none => (t.groups.length,t.push name)

def referenceAll : IndexedGraph → List String → List GroupId × IndexedGraph
  | t, [] => ([],t)
  | t, name :: names =>
    let (id,t) := t.reference name
    let (ids,t) := t.referenceAll names
    (id :: ids,t)

def parseRules : IndexedGraph → List String → Except Error (List Rule) × IndexedGraph
  | t, [] => (.ok [],t)
  | t, source :: sources =>
    match Template.parse source with
    | .error e => (.error e,t)
    | .ok template =>
      let (references,t) := t.referenceAll template.symbols
      let (rules,t) := t.parseRules sources
      (rules.map (⟨template,references⟩ :: ·),t)

def declare (t : IndexedGraph) (name : String) (sources : List String) :
    Except Error GroupId × IndexedGraph :=
  let (id,t) := t.reference name
  if t.groups[id]?.any (·.resolved) then (.error (.duplicateGroup name),t)
  else
    match t.parseRules sources with
    | (.error e,t) => (.error e,t)
    | (.ok rules,t) => (.ok id,t.update id (·.declared rules))

def edit (t : IndexedGraph) : Edit → IndexedGraph
  | .reference name => (t.reference name).2
  | .declare name sources => (t.declare name sources).2

def edits (t : IndexedGraph) (calls : List Edit) : IndexedGraph := calls.foldl edit t

variable {t : IndexedGraph}

@[simp] theorem graph_empty : empty.graph = .empty := rfl

theorem names_graph (t : IndexedGraph) : t.graph.names = t.groups.map (·.name) := by
  simp [graph,Graph.names]

theorem size_graph (t : IndexedGraph) : t.graph.size = t.groups.length := by
  simp [graph,Graph.size]

theorem group_graph {i : Nat} {group : NumberedGroup} (h : t.groups[i]? = some group) :
    t.graph.group i = group.toGroup := by
  simp [graph,Graph.group,h]

theorem resolved_graph (t : IndexedGraph) (id : GroupId) :
    (t.graph.group id).resolved = t.groups[id]?.any (·.resolved) := by
  cases h : t.groups[id]? with
  | none => simp [graph,Graph.group,h,Group.pending]
  | some group => rw [group_graph h,Option.any_some]

theorem graph_push (t : IndexedGraph) (name : String) :
    (t.push name).graph = ⟨t.graph.groups ++ [.pending name]⟩ := by
  simp [graph,push,NumberedGroup.pending]

theorem graph_update {id : GroupId} (rules : List Rule)
    (h : ∀ group, t.groups[id]? = some group → group.dependencies = []) :
    (t.update id (·.declared rules)).graph = t.graph.update id (·.declared rules) := by
  rw [graph,graph,Graph.update,Graph.mk.injEq]
  refine List.ext_getElem? fun i => ?_
  rw [List.getElem?_map,List.getElem?_modify,List.getElem?_map,update,List.getElem?_modify]
  cases hi : t.groups[i]? with
  | none => rfl
  | some group =>
    by_cases he : id = i
    · subst he
      simp [NumberedGroup.toGroup_declared (h group hi)]
    · simp [he]

/-- Numbers are positions, and the index has exactly the positions of the names. -/
structure InStep (t : IndexedGraph) : Prop where
  ids : ∀ (i : Nat) (group : NumberedGroup), t.groups[i]? = some group → group.id = i
  index : Indexes t.index t.graph.names

theorem inStep_empty : empty.InStep := ⟨by simp [empty],by simp [Indexes,empty,graph,Graph.names]⟩

theorem InStep.index_eq (ht : t.InStep) (name : String) :
    t.index[name]? = t.graph.idOf? name := ht.index.getElem?_eq name

theorem InStep.push (ht : t.InStep) {name : String} (hname : name ∉ t.graph.names) :
    (t.push name).InStep where
  ids i group hi := by
    rw [IndexedGraph.push,List.getElem?_append] at hi
    split at hi
    · exact ht.ids i group hi
    · rename_i hlt
      rw [List.getElem?_singleton] at hi
      split at hi
      · obtain rfl := Option.some.inj hi
        show t.groups.length = i
        omega
      · cases hi
  index := by
    have hnames : (t.push name).graph.names = t.graph.names ++ [name] := by
      simp [graph_push,Graph.names,Group.pending]
    have hlen : t.graph.names.length = t.groups.length := t.graph.length_names.trans t.size_graph
    rw [hnames,IndexedGraph.push,← hlen]
    exact ht.index.concat hname

theorem InStep.update (ht : t.InStep) (id : GroupId) {f : NumberedGroup → NumberedGroup}
    (hid : ∀ group, (f group).id = group.id) (hname : ∀ group, (f group).name = group.name) :
    (t.update id f).InStep where
  ids i group hi := by
    rw [IndexedGraph.update,List.getElem?_modify,Option.map_eq_map,
      Option.map_eq_some_iff] at hi
    obtain ⟨old,hold,rfl⟩ := hi
    split
    · exact (hid old).trans (ht.ids i old hold)
    · exact ht.ids i old hold
  index := by
    have hnames : (t.update id f).graph.names = t.graph.names := by
      rw [names_graph,names_graph]
      refine List.ext_getElem? fun i => ?_
      rw [List.getElem?_map,List.getElem?_map,IndexedGraph.update,List.getElem?_modify]
      cases t.groups[i]? with
      | none => rfl
      | some group => by_cases h : id = i <;> simp [h,hname]
    rw [hnames]
    exact ht.index

/-- A call does what it does to the groups alone, and keeps numbers and index in step. -/
def Agrees {α : Type} (r : α × IndexedGraph) (r' : α × Graph) : Prop :=
  (r.1,r.2.graph) = r' ∧ r.2.InStep

theorem InStep.reference (ht : t.InStep) (name : String) :
    Agrees (t.reference name) (t.graph.reference name) := by
  rw [IndexedGraph.reference,Graph.reference,ht.index_eq]
  cases h : t.graph.idOf? name with
  | some id => exact ⟨rfl,ht⟩
  | none =>
    refine ⟨?_,ht.push (Graph.idOf?_eq_none.mp h)⟩
    rw [graph_push,size_graph]

theorem InStep.referenceAll (ht : t.InStep) (names : List String) :
    Agrees (t.referenceAll names) (t.graph.referenceAll names) := by
  induction names generalizing t with
  | nil => exact ⟨rfl,ht⟩
  | cons name names ih =>
    obtain ⟨hfirst,ht'⟩ := ht.reference name
    obtain ⟨hrest,hstep⟩ := ih ht'
    refine ⟨?_,hstep⟩
    rw [Graph.referenceAll,← hfirst]
    dsimp only
    rw [← hrest]
    rfl

theorem InStep.parseRules (ht : t.InStep) (sources : List String) :
    Agrees (t.parseRules sources) (t.graph.parseRules sources) := by
  induction sources generalizing t with
  | nil => exact ⟨rfl,ht⟩
  | cons source sources ih =>
    rw [IndexedGraph.parseRules,Graph.parseRules]
    cases Template.parse source with
    | error e => exact ⟨rfl,ht⟩
    | ok template =>
      obtain ⟨hrefs,ht'⟩ := ht.referenceAll template.symbols
      obtain ⟨hrest,hstep⟩ := ih ht'
      refine ⟨?_,hstep⟩
      dsimp only
      rw [← hrefs]
      dsimp only
      rw [← hrest]

theorem InStep.declare (ht : t.InStep) (hg : t.graph.WellFormed) (name : String)
    (sources : List String) : Agrees (t.declare name sources) (t.graph.declare name sources) := by
  have htaken : ((t.graph.reference name).2.group (t.graph.reference name).1).resolved = true →
      (t.graph.reference name).2 = t.graph := Graph.reference_of_resolved
  have hwf := hg.reference name
  obtain ⟨hfirst,ht'⟩ := ht.reference name
  rw [IndexedGraph.declare,Graph.declare,← hfirst]
  rw [← hfirst] at htaken hwf
  generalize t.reference name = r at htaken hwf ht'
  obtain ⟨id,t'⟩ := r
  dsimp only at htaken hwf ht' ⊢
  rw [resolved_graph]
  split
  · rename_i hres
    refine ⟨?_,ht'⟩
    rw [htaken (t'.resolved_graph id ▸ hres)]
  · rename_i hres
    obtain ⟨mentioned,hmention⟩ := Graph.parseRules_snd t'.graph sources
    obtain ⟨hparse,hstep⟩ := ht'.parseRules sources
    rw [← hparse] at hmention ⊢
    generalize t'.parseRules sources = r at hmention hstep
    obtain ⟨answer,t''⟩ := r
    dsimp only at hmention hstep ⊢
    cases answer with
    | error e => exact ⟨rfl,hstep⟩
    | ok rules =>
      refine ⟨?_,hstep.update id (fun _ => rfl) fun _ => rfl⟩
      rw [graph_update]
      intro group hgroup
      have hunresolved : (t''.graph.group id).resolved = false := by
        rw [hmention]
        exact Graph.resolved_mention_eq (by rw [resolved_graph]; simpa using hres)
      have hwf' : t''.graph.WellFormed := hmention ▸ hwf.mention mentioned
      have hdeps := hwf'.dependencies id
      rwa [hwf'.pending id hunresolved,group_graph hgroup] at hdeps

theorem InStep.edit (ht : t.InStep) (hg : t.graph.WellFormed) (call : Edit) :
    (t.edit call).graph = t.graph.edit call ∧ (t.edit call).InStep := by
  cases call with
  | reference name =>
    obtain ⟨hanswer,hstep⟩ := ht.reference name
    exact ⟨congrArg Prod.snd hanswer,hstep⟩
  | declare name sources =>
    obtain ⟨hanswer,hstep⟩ := ht.declare hg name sources
    exact ⟨congrArg Prod.snd hanswer,hstep⟩

theorem InStep.edits (ht : t.InStep) (hg : t.graph.Reached) (calls : List Edit) :
    (t.edits calls).graph = t.graph.edits calls ∧ (t.edits calls).InStep := by
  induction calls generalizing t with
  | nil => exact ⟨rfl,ht⟩
  | cons call calls ih =>
    obtain ⟨hgraph,hstep⟩ := ht.edit hg.wellFormed call
    obtain ⟨hrest,hsteps⟩ := ih hstep (hgraph ▸ hg.edit call)
    refine ⟨hrest.trans ?_,hsteps⟩
    rw [hgraph]
    rfl

/-- Numbers, names, index and everything that a group stores agree with each other. -/
structure Represents (t : IndexedGraph) : Prop where
  ids : ∀ (i : Nat) (group : NumberedGroup), t.groups[i]? = some group → group.id = i
  nodup : (t.groups.map (·.name)).Nodup
  /-- The index leads from the name of each group to its number, and from no other name. -/
  index : ∀ (name : String) (id : GroupId), t.index[name]? = some id ↔
    ∃ group ∈ t.groups, group.name = name ∧ group.id = id
  references : ∀ group ∈ t.groups, ∀ rule ∈ group.rules,
    rule.references.length = rule.template.placeholders.length ∧
      ∀ (k : Nat) (p : Placeholder), rule.template.placeholders[k]? = some p →
        ∃ named ∈ t.groups, named.name = p.symbol ∧ rule.references[k]? = some named.id
  dependencies : ∀ group ∈ t.groups,
    group.dependencies = (group.rules.flatMap Rule.references).eraseDups
  pending : ∀ group ∈ t.groups, group.resolved = false →
    group.rules = [] ∧ group.dependencies = []
  /-- No stored number is out of range; a base is noted by derivation only. -/
  bounded : ∀ group ∈ t.groups, group.id < t.groups.length ∧
    (∀ rule ∈ group.rules, ∀ r ∈ rule.references, r < t.groups.length) ∧
    (∀ d ∈ group.dependencies, d < t.groups.length) ∧ group.base = none
  bounded_index : ∀ (name : String) (id : GroupId),
    t.index[name]? = some id → id < t.groups.length

theorem InStep.mem_groups (ht : t.InStep) {group : NumberedGroup} (h : group ∈ t.groups) :
    t.groups[group.id]? = some group := by
  obtain ⟨i,hi⟩ := List.mem_iff_getElem?.mp h
  rwa [ht.ids i group hi]

theorem InStep.index_iff (ht : t.InStep) {name : String} {id : GroupId} :
    t.index[name]? = some id ↔ ∃ group ∈ t.groups, group.name = name ∧ group.id = id := by
  rw [ht.index name id,names_graph,List.getElem?_map,Option.map_eq_some_iff]
  constructor
  · rintro ⟨group,hgroup,hname⟩
    exact ⟨group,List.mem_of_getElem? hgroup,hname,ht.ids id group hgroup⟩
  · rintro ⟨group,hgroup,hname,rfl⟩
    exact ⟨group,ht.mem_groups hgroup,hname⟩

theorem InStep.represents (ht : t.InStep) (hg : t.graph.WellFormed) (hplain : t.graph.Plain) :
    t.Represents := by
  have hgroup {group : NumberedGroup} (h : group ∈ t.groups) :
      t.graph.group group.id = group.toGroup := group_graph (ht.mem_groups h)
  refine ⟨ht.ids,names_graph t ▸ hg.nodup,fun name id => ht.index_iff,?_,?_,?_,?_,?_⟩
  · intro group hmem rule hrule
    rw [← hgroup hmem] at hrule
    have hlen := (hg.fits _ rule hrule).references.length_eq
    refine ⟨by simpa [Template.symbols] using hlen,fun k p hp => ?_⟩
    obtain ⟨r,hr,hname⟩ := hg.idOf?_symbol hrule hp
    rw [← ht.index_eq] at hname
    obtain ⟨named,hnamed,hsymbol,rfl⟩ := ht.index_iff.mp hname
    exact ⟨named,hnamed,hsymbol,hr⟩
  · intro group hmem
    rw [← hgroup hmem]
    exact hg.dependencies group.id
  · intro group hmem hres
    rw [← hgroup hmem] at hres ⊢
    have hrules := hg.pending group.id hres
    refine ⟨hrules,?_⟩
    rw [hg.dependencies,hrules]
    rfl
  · intro group hmem
    rw [← hgroup hmem,← size_graph]
    refine ⟨?_,fun rule hrule r hr => hg.lt_size_of_mem_references hrule hr,
      fun d hd => hg.lt_size_of_dependsOn hd,(hplain group.id).2⟩
    rw [size_graph]
    exact (List.getElem?_eq_some_iff.mp (ht.mem_groups hmem)).1
  · intro name id h
    rw [← size_graph]
    exact Graph.lt_size_of_getElem?_names ((ht.index name id).mp h)

/-- After any calls, failing ones included, the stored graph represents its groups by their
numbers. A further call answers and leaves what it does on the groups alone, and the number that it
answers is the one at which the index finds the name from then on. -/
theorem edits_represents (calls : List Edit) {t : IndexedGraph} (ht : t = empty.edits calls) :
    t.Represents ∧ t.graph = Graph.empty.edits calls ∧
    (∀ name, ((t.reference name).1,(t.reference name).2.graph) = t.graph.reference name ∧
      (t.reference name).2.index[name]? = some (t.reference name).1) ∧
    ∀ name sources,
      ((t.declare name sources).1,(t.declare name sources).2.graph) =
        t.graph.declare name sources ∧
      ∀ id, (t.declare name sources).1 = .ok id →
        (t.declare name sources).2.index[name]? = some id := by
  obtain ⟨hgraph,hstep⟩ := inStep_empty.edits .empty calls
  rw [← ht,graph_empty] at hgraph
  rw [← ht] at hstep
  have hwf : t.graph.WellFormed := hgraph ▸ (Graph.Reached.empty.edits calls).wellFormed
  have hplain : t.graph.Plain := hgraph ▸ Graph.plain_empty.edits calls
  refine ⟨hstep.represents hwf hplain,hgraph,fun name => ?_,fun name sources => ?_⟩
  · obtain ⟨hanswer,hstep'⟩ := hstep.reference name
    refine ⟨hanswer,?_⟩
    have hfound := Graph.idOf?_reference hwf name
    rw [← hanswer] at hfound
    exact (hstep'.index_eq name).trans hfound
  · obtain ⟨hanswer,hstep'⟩ := hstep.declare hwf name sources
    refine ⟨hanswer,fun id hid => ?_⟩
    have hfound := Graph.idOf?_declare hwf ((congrArg Prod.fst hanswer).symm.trans hid)
    rw [← hanswer] at hfound
    exact (hstep'.index_eq name).trans hfound

/-- A declaration that fails midway, is made again and then refused; the group mentions itself. -/
def retold : List Edit :=
  [.reference "later",.declare "tale" ["#hero# and #later#","#broken"],
    .declare "tale" ["#hero# met #tale#","#later##hero#"],.declare "tale" ["lost"]]

theorem edits_represents_retold : ∃ t : IndexedGraph, t = empty.edits retold ∧ t.Represents ∧
    t.groups.map (·.name) = ["later","tale","hero"] ∧
    t.groups.map (·.dependencies) = [[],[2,1,0],[]] ∧
    t.index["hero"]? = some 2 ∧
    (t.declare "tale" []).1 = .error (.duplicateGroup "tale") ∧
    (t.reference "dragon").2.index["dragon"]? = some 3 := by
  refine ⟨_,rfl,?_⟩
  obtain ⟨hrep,hgraph,hreference,hdeclare⟩ := edits_represents retold rfl
  have hnames : (empty.edits retold).groups.map (·.name) = ["later","tale","hero"] := by
    rw [← names_graph,hgraph]
    decide +kernel
  have hdeps : (empty.edits retold).graph.groups.map (·.dependencies) = [[],[2,1,0],[]] := by
    rw [hgraph]
    decide +kernel
  refine ⟨hrep,hnames,?_,?_,?_,?_⟩
  · rwa [graph,List.map_map] at hdeps
  · have hhero := congrArg (·[2]?) hnames
    obtain ⟨group,hgroup,hname⟩ := Option.map_eq_some_iff.mp (List.getElem?_map.symm.trans hhero)
    exact (hrep.index "hero" 2).mpr
      ⟨group,List.mem_of_getElem? hgroup,hname,hrep.ids 2 group hgroup⟩
  · refine (congrArg Prod.fst (hdeclare "tale" []).1).trans ?_
    rw [hgraph]
    decide +kernel
  · obtain ⟨hanswer,hfound⟩ := hreference "dragon"
    have hnumber : ((empty.edits retold).reference "dragon").1 =
        ((Graph.empty.edits retold).reference "dragon").1 := hgraph ▸ congrArg Prod.fst hanswer
    rw [hfound,hnumber]
    decide +kernel

end IndexedGraph

end PhraseGrammar
