import PhraseGrammar.Proofs.Dot.Graph
import PhraseGrammar.Proofs.Graph.Build
import PhraseGrammar.Proofs.Graph.Dependence

/-! Nodes, clusters and edges of a drawing. Three passes over the groups write them, and the last
one always points at the first rule of a group, whether it has one or not; nothing else that an
edge names is left out. -/
namespace PhraseGrammar

namespace Dot

theorem groupNode_inj {i j : GroupId} : groupNode i = groupNode j ↔ i = j := by
  simp [groupNode,String.ext_iff]

theorem clusterName_inj {i j : GroupId} : clusterName i = clusterName j ↔ i = j := by
  simp [clusterName,String.ext_iff]

theorem ruleNode_inj {i j : GroupId} {m n : Nat} :
    ruleNode i m = ruleNode j n ↔ i = j ∧ m = n := by
  simp [ruleNode,String.ext_iff]

theorem groupNode_ne_ruleNode (i j : GroupId) (n : Nat) : groupNode i ≠ ruleNode j n := by
  simp [groupNode,ruleNode,String.ext_iff]

namespace Statement

def node? : Statement → Option String
  | group id _ => some (groupNode id)
  | rule id index _ => some (ruleNode id index)
  | compound | leftToRight | blank | cluster _ _ _ | groupEdge _ _ | ruleEdge _ _ _ => none

/-- The source and the target of an edge. -/
def edge? : Statement → Option (String × String)
  | groupEdge source target => some (groupNode source,groupNode target)
  | ruleEdge source index target => some (ruleNode source index,ruleNode target 0)
  | compound | leftToRight | blank | group _ _ | rule _ _ _ | cluster _ _ _ => none

def cluster? : Statement → Option String
  | cluster id _ _ => some (clusterName id)
  | compound | leftToRight | blank | group _ _ | rule _ _ _ | groupEdge _ _ | ruleEdge _ _ _ => none

/-- The nodes that stand in a cluster. -/
def members : Statement → List String
  | cluster id _ rules => (List.range rules).map (ruleNode id)
  | compound | leftToRight | blank | group _ _ | rule _ _ _ | groupEdge _ _ | ruleEdge _ _ _ => []

/-- The group whose cluster an edge leads to. -/
def head? : Statement → Option GroupId
  | ruleEdge _ _ target => some target
  | compound | leftToRight | blank | group _ _ | rule _ _ _ | cluster _ _ _ | groupEdge _ _ => none

theorem edge?_inj {s s' : Statement} {edge : String × String} (h : s.edge? = some edge)
    (h' : s'.edge? = some edge) : s = s' := by
  have he := h.trans h'.symm
  cases s with
  | groupEdge source target =>
    cases s' with
    | groupEdge source' target' => simpa [edge?,groupNode_inj] using he
    | ruleEdge source' index target' => simp [edge?,groupNode_ne_ruleNode] at he
    | _ => cases h'
  | ruleEdge source index target =>
    cases s' with
    | groupEdge source' target' => simp [edge?,(groupNode_ne_ruleNode _ _ _).symm] at he
    | ruleEdge source' index' target' => simpa [edge?,ruleNode_inj,and_assoc] using he
    | _ => cases h'
  | _ => cases h

end Statement

variable {g : Graph}

theorem groups_eq (g : Graph) : groups g = (List.range g.size).map fun id => (id,g.group id) := by
  refine List.ext_getElem (by simp [groups,Graph.size]) fun i hi _ => ?_
  have hlt : i < g.groups.length := (List.lt_length_right_of_zip hi)
  have hget := Graph.getElem?_groups hlt
  rw [List.getElem?_eq_getElem hlt] at hget
  simp [groups,Option.some.inj hget]

theorem fst_rulesOf (group : Group) :
    (rulesOf group).map Prod.fst = List.range group.rules.length :=
  List.map_fst_zip (Nat.le_of_eq List.length_range)

theorem mem_rulesOf {group : Group} {index : Nat} {rule : Rule} :
    (index,rule) ∈ rulesOf group ↔ group.rules[index]? = some rule := by
  rw [rulesOf,List.mem_iff_getElem?]
  constructor
  · rintro ⟨i,hi⟩
    obtain ⟨hindex,hrule⟩ := List.getElem?_zip_eq_some.mp hi
    obtain ⟨hlt,hi⟩ := List.getElem?_eq_some_iff.mp hindex
    obtain rfl : i = index := List.getElem_range hlt ▸ hi
    exact hrule
  · intro hrule
    have hlt := (List.getElem?_eq_some_iff.mp hrule).1
    exact ⟨index,List.getElem?_zip_eq_some.mpr ⟨by simp [hlt],hrule⟩⟩

def edges (g : Graph) : Style → List Statement
  | .plain | .short => (List.range g.size).flatMap fun id =>
      (g.group id).dependencies.map (.groupEdge id)
  | .long => (List.range g.size).flatMap fun id =>
      (rulesOf (g.group id)).flatMap fun p => p.2.references.eraseDups.map (.ruleEdge id p.1)

def nodes (g : Graph) : Style → List String
  | .plain | .short => (List.range g.size).map groupNode
  | .long => (List.range g.size).flatMap fun id =>
      (List.range (g.group id).rules.length).map (ruleNode id)

def clusters (g : Graph) : Style → List String
  | .plain | .short => []
  | .long => (List.range g.size).map clusterName

theorem filterMap_edge? (g : Graph) (style : Style) (counts : Option Tally) :
    (statements g style counts).filterMap Statement.edge? =
      (edges g style).filterMap Statement.edge? := by
  cases style <;> simp [statements,groupStatements,ruleStatements,edges,groups_eq,
    List.filterMap_cons,List.filterMap_append,List.filterMap_map,List.filterMap_flatMap,
    List.flatMap_map,Function.comp_def,Statement.edge?]

theorem filterMap_node? (g : Graph) (style : Style) (counts : Option Tally) :
    (statements g style counts).filterMap Statement.node? = nodes g style := by
  cases style <;> simp [statements,groupStatements,ruleStatements,nodes,groups_eq,
    List.filterMap_cons,List.filterMap_append,List.filterMap_map,List.filterMap_flatMap,
    List.flatMap_map,Function.comp_def,Statement.node?,← fst_rulesOf]

theorem filterMap_cluster? (g : Graph) (style : Style) (counts : Option Tally) :
    (statements g style counts).filterMap Statement.cluster? = clusters g style := by
  cases style <;> simp [statements,groupStatements,ruleStatements,clusters,groups_eq,
    List.filterMap_cons,List.filterMap_append,List.filterMap_map,List.filterMap_flatMap,
    List.flatMap_map,Function.comp_def,Statement.cluster?]

theorem flatMap_members (g : Graph) (counts : Option Tally) :
    (statements g .long counts).flatMap Statement.members = nodes g .long := by
  simp [statements,ruleStatements,groups_eq,nodes,List.flatMap_map,List.flatMap_assoc,
    Statement.members]

theorem nodup_nodes (g : Graph) (style : Style) : (nodes g style).Nodup := by
  have hgroup : ((List.range g.size).map groupNode).Nodup :=
    List.nodup_range.map fun _ _ => groupNode_inj.mp
  cases style with
  | plain => exact hgroup
  | short => exact hgroup
  | long =>
    refine nodup_flatMap_of_disjoint List.nodup_range
      (fun id _ => List.nodup_range.map fun _ _ h => (ruleNode_inj.mp h).2) ?_
    simp only [List.mem_map]
    rintro i - j - node ⟨m,-,rfl⟩ ⟨n,-,hn⟩
    exact (ruleNode_inj.mp hn).1.symm

theorem nodup_clusters (g : Graph) (style : Style) : (clusters g style).Nodup := by
  cases style with
  | plain => exact .nil
  | short => exact .nil
  | long => exact List.nodup_range.map fun _ _ => clusterName_inj.mp

theorem nodup_edges (hg : g.WellFormed) (style : Style) : (edges g style).Nodup := by
  have hgroup : ((List.range g.size).flatMap fun id =>
      (g.group id).dependencies.map (Statement.groupEdge id)).Nodup := by
    refine nodup_flatMap_of_disjoint List.nodup_range (fun id _ => ?_) ?_
    · have hdistinct : (g.group id).dependencies.Nodup := by
        rw [hg.dependencies]
        exact nodup_eraseDups _
      exact hdistinct.map fun _ _ h => (Statement.groupEdge.inj h).2
    · simp only [List.mem_map]
      rintro i - j - edge ⟨t,-,rfl⟩ ⟨t',-,he⟩
      exact (Statement.groupEdge.inj he).1.symm
  cases style with
  | plain => exact hgroup
  | short => exact hgroup
  | long =>
    refine nodup_flatMap_of_disjoint List.nodup_range (fun id _ => ?_) ?_
    · have hrules : (rulesOf (g.group id)).Nodup :=
        .of_map Prod.fst (fst_rulesOf (g.group id) ▸ List.nodup_range)
      refine nodup_flatMap_of_disjoint hrules (fun p _ => ?_) ?_
      · exact (nodup_eraseDups _).map fun _ _ h => (Statement.ruleEdge.inj h).2.2
      · simp only [List.mem_map]
        rintro ⟨m,rule⟩ hp ⟨n,rule'⟩ hp' edge ⟨t,-,rfl⟩ ⟨t',-,he⟩
        obtain rfl : n = m := (Statement.ruleEdge.inj he).2.1
        rw [mem_rulesOf] at hp hp'
        rw [Option.some.inj (hp.symm.trans hp')]
    · simp only [List.mem_flatMap,List.mem_map]
      rintro i - j - edge ⟨p,-,t,-,rfl⟩ ⟨p',-,t',-,he⟩
      exact (Statement.ruleEdge.inj he).1.symm

theorem mem_nodes_of_lt {style : Style} (hstyle : style ≠ .long) {id : GroupId} (h : id < g.size) :
    groupNode id ∈ nodes g style := by
  cases style with
  | plain => exact List.mem_map_of_mem (List.mem_range.mpr h)
  | short => exact List.mem_map_of_mem (List.mem_range.mpr h)
  | long => exact absurd rfl hstyle

theorem ruleNode_mem_nodes {id : GroupId} {index : Nat} :
    ruleNode id index ∈ nodes g .long ↔ id < g.size ∧ index < (g.group id).rules.length := by
  simp [nodes,ruleNode_inj]

/-- An edge is drawn for a dependency, or for what a rule refers to. -/
theorem edge_cases {style : Style} {counts : Option Tally} {s : Statement}
    (hs : s ∈ statements g style counts) {edge : String × String} (h : s.edge? = some edge) :
    (∃ id t, s = .groupEdge id t ∧ style ≠ .long ∧ id < g.size ∧
      t ∈ (g.group id).dependencies) ∨
    ∃ id index rule t, s = .ruleEdge id index t ∧ style = .long ∧ id < g.size ∧
      (g.group id).rules[index]? = some rule ∧ t ∈ rule.references := by
  have hmem : edge ∈ (edges g style).filterMap Statement.edge? := by
    rw [← filterMap_edge? g style counts]
    exact List.mem_filterMap.mpr ⟨s,hs,h⟩
  obtain ⟨s',hs',h'⟩ := List.mem_filterMap.mp hmem
  obtain rfl := Statement.edge?_inj h h'
  cases style with
  | long =>
    obtain ⟨id,hid,hs'⟩ := List.mem_flatMap.mp hs'
    obtain ⟨⟨index,rule⟩,hrule,hs'⟩ := List.mem_flatMap.mp hs'
    obtain ⟨t,ht,rfl⟩ := List.mem_map.mp hs'
    exact .inr ⟨id,index,rule,t,rfl,rfl,List.mem_range.mp hid,mem_rulesOf.mp hrule,
      List.mem_eraseDups.mp ht⟩
  | plain =>
    obtain ⟨id,hid,hs'⟩ := List.mem_flatMap.mp hs'
    obtain ⟨t,ht,rfl⟩ := List.mem_map.mp hs'
    exact .inl ⟨id,t,rfl,by decide,List.mem_range.mp hid,ht⟩
  | short =>
    obtain ⟨id,hid,hs'⟩ := List.mem_flatMap.mp hs'
    obtain ⟨t,ht,rfl⟩ := List.mem_map.mp hs'
    exact .inl ⟨id,t,rfl,by decide,List.mem_range.mp hid,ht⟩

/-- A style draws its nodes, edges and clusters and each of them once; a rule node stands in one
cluster. An edge comes from a node that is drawn, and leads to a cluster that is, if to any; its
target is drawn but for the first rule of a group that has no rules. -/
theorem edges_declared (hg : g.Reached) (style : Style) (counts : Option Tally) :
    ((statements g style counts).filterMap Statement.node? = nodes g style ∧
      (nodes g style).Nodup) ∧
    ((statements g style counts).filterMap Statement.edge? =
        (edges g style).filterMap Statement.edge? ∧
      ((edges g style).filterMap Statement.edge?).Nodup) ∧
    ((statements g style counts).filterMap Statement.cluster? = clusters g style ∧
      (clusters g style).Nodup) ∧
    (style = .long → (statements g style counts).flatMap Statement.members = nodes g style) ∧
    ∀ s ∈ statements g style counts, ∀ source target, s.edge? = some (source,target) →
      source ∈ nodes g style ∧
      (∀ t, s.head? = some t → clusterName t ∈ clusters g style) ∧
      (target ∈ nodes g style ↔ ∀ t, s.head? = some t → (g.group t).rules ≠ []) := by
  have hwf := hg.wellFormed
  have hedges : ((edges g style).filterMap Statement.edge?).Nodup :=
    (nodup_edges hwf style).filterMap fun _ _ _ => Statement.edge?_inj
  refine ⟨⟨filterMap_node? g style counts,nodup_nodes g style⟩,
    ⟨filterMap_edge? g style counts,hedges⟩,
    ⟨filterMap_cluster? g style counts,nodup_clusters g style⟩,
    fun hstyle => hstyle ▸ flatMap_members g counts,fun s hs source target h => ?_⟩
  rcases edge_cases hs h with ⟨id,t,rfl,hstyle,hid,ht⟩ | ⟨id,index,rule,t,rfl,rfl,hid,hrule,ht⟩
  · obtain ⟨rfl,rfl⟩ : groupNode id = source ∧ groupNode t = target := by
      simpa [Statement.edge?] using h
    have htarget := mem_nodes_of_lt hstyle (hwf.lt_size_of_dependsOn ht)
    exact ⟨mem_nodes_of_lt hstyle hid,by simp [Statement.head?],by simp [Statement.head?,htarget]⟩
  · obtain ⟨rfl,rfl⟩ : ruleNode id index = source ∧ ruleNode t 0 = target := by
      simpa [Statement.edge?] using h
    have htarget : t < g.size :=
      hwf.lt_size_of_mem_references (List.mem_of_getElem? hrule) ht
    have hcluster : clusterName t ∈ clusters g .long :=
      List.mem_map_of_mem (List.mem_range.mpr htarget)
    refine ⟨ruleNode_mem_nodes.mpr ⟨hid,(List.getElem?_eq_some_iff.mp hrule).1⟩,
      by simpa [Statement.head?] using hcluster,?_⟩
    simp [Statement.head?,ruleNode_mem_nodes,htarget,List.length_pos_iff]

/-- Its first group mentions one that is declared without rules. -/
def hollow : Grammar := ⟨[("origin",.flat ["#nothing#"]),("nothing",.flat [])],[]⟩

theorem edges_declared_hollow : ∃ G, Graph.build hollow false = .ok G ∧ G.Reached ∧
    Statement.ruleEdge 0 0 1 ∈ statements G .long (some G.tally) ∧
    "rule_0_0" ∈ (statements G .long (some G.tally)).filterMap Statement.node? ∧
    "cluster_1" ∈ (statements G .long (some G.tally)).filterMap Statement.cluster? ∧
    "rule_1_0" ∉ (statements G .long (some G.tally)).filterMap Statement.node? := by
  have hbuilt : (Graph.build hollow false).map (fun G =>
      (decide (Statement.ruleEdge 0 0 1 ∈ statements G .long (some G.tally)),
        (G.group 1).sources)) = .ok (true,[]) := by decide +kernel
  cases hG : Graph.build hollow false with
  | error e => simp [hG,Except.map] at hbuilt
  | ok G =>
    obtain ⟨hedge,hsources⟩ : Statement.ruleEdge 0 0 1 ∈ statements G .long (some G.tally) ∧
        (G.group 1).sources = [] := by simpa [hG,Except.map] using hbuilt
    have hreached := Graph.reached_of_build hG
    obtain ⟨⟨hnodes,-⟩,-,⟨hclusters,-⟩,-,hedges⟩ := edges_declared hreached .long (some G.tally)
    obtain ⟨hsource,hcluster,htarget⟩ := hedges _ hedge "rule_0_0" "rule_1_0" (by decide)
    refine ⟨G,rfl,hreached,hedge,hnodes ▸ hsource,hclusters ▸ hcluster 1 rfl,fun hmem => ?_⟩
    exact htarget.mp (hnodes ▸ hmem) 1 rfl (List.map_eq_nil_iff.mp hsources)

/-- Not every edge leads to a node that is drawn. -/
theorem not_all_targets_declared : ¬ ∀ (grammar : Grammar) (dedup : Bool) (G : Graph)
    (style : Style) (counts : Option Tally), Graph.build grammar dedup = .ok G →
      ∀ edge ∈ (statements G style counts).filterMap Statement.edge?,
        edge.1 ∈ (statements G style counts).filterMap Statement.node? ∧
          edge.2 ∈ (statements G style counts).filterMap Statement.node? := by
  intro h
  have hbuilt : (Graph.build hollow false).map (fun G =>
      ((statements G .long (some G.tally)).filterMap Statement.edge?,
        (statements G .long (some G.tally)).filterMap Statement.node?)) =
      .ok ([("rule_0_0","rule_1_0")],["rule_0_0"]) := by decide +kernel
  cases hG : Graph.build hollow false with
  | error e => simp [hG,Except.map] at hbuilt
  | ok G =>
    obtain ⟨hedges,hnodes⟩ := Prod.mk.inj (Except.ok.inj (hG ▸ hbuilt))
    have htarget := (h hollow false G .long (some G.tally) hG ("rule_0_0","rule_1_0")
      (hedges ▸ List.mem_singleton_self _)).2
    rw [hnodes] at htarget
    exact absurd htarget (by decide)

end Dot
end PhraseGrammar
