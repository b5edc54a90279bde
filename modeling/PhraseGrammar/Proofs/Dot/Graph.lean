import Mathlib.Data.List.GetD
import PhraseGrammar.Proofs.Dot.Text
import PhraseGrammar.Proofs.Graph.WellFormed

/-! What the text of a drawing tells about its graph. The plain drawing determines names and
dependencies, and the long one names, rules and what each rule refers to. The texts already
determine the statements, so that all of this is about statements and the positions in them. -/
namespace PhraseGrammar
namespace Dot

variable {g h : Graph}

def numberedSources (group : Group) : List (Nat × String) :=
  (rulesOf group).map fun p => (p.1,p.2.source)

/-- Where the edges from the rule nodes of a group go. -/
def numberedTargets (group : Group) : List (Nat × GroupId) :=
  (rulesOf group).flatMap fun p => p.2.references.eraseDups.map (Prod.mk p.1)

theorem statements_plain (g : Graph) (counts : Option Tally) : statements g .plain counts =
    (groups g).map (fun p => Statement.group p.1 p.2.name) ++ Statement.blank ::
      (groups g).flatMap fun p => p.2.dependencies.map (Statement.groupEdge p.1) := by
  simp [statements,groupStatements,groupLabel]

theorem statements_long (g : Graph) : statements g .long none =
    Statement.compound :: Statement.leftToRight ::
      ((groups g).flatMap (fun p =>
        (numberedSources p.2).map fun e => Statement.rule p.1 e.1 e.2) ++ Statement.blank ::
      ((groups g).map (fun p => Statement.cluster p.1 p.2.name p.2.rules.length) ++
        Statement.blank :: (groups g).flatMap fun p =>
          (numberedTargets p.2).map fun e => Statement.ruleEdge p.1 e.1 e.2)) := by
  simp [statements,ruleStatements,groupLabel,ruleLabel,numberedSources,numberedTargets,
    List.map_flatMap,Function.comp_def]

theorem map_groups {β : Type} (f : Group → β) (g : Graph) :
    (groups g).map (fun p => f p.2) = g.groups.map f :=
  map_range_zip f g.groups

theorem flatMap_groups {β : Type} (f : Group → List β) (g : Graph) :
    (groups g).flatMap (fun p => f p.2) = g.groups.flatMap f := by
  rw [List.flatMap_def,map_groups,List.flatMap_def]

theorem map_groups_inj {β : Type} {f : Group → β} (he : g.groups.map f = h.groups.map f)
    (id : GroupId) : f (g.group id) = f (h.group id) := by
  have hid := congrArg (·.getD id (f (.pending ""))) he
  rwa [List.getD_map,List.getD_map] at hid

theorem snd_numberedSources (group : Group) :
    (numberedSources group).map Prod.snd = group.sources := by
  rw [numberedSources,List.map_map]
  exact map_range_zip Rule.source group.rules

theorem labels_groups {f : GroupId × Group → Statement}
    (hf : ∀ p, (f p).label? = some p.2.name) (g : Graph) :
    ((groups g).map f).filterMap Statement.label? = g.names := by
  have hmap : ((groups g).map f).filterMap Statement.label? = (groups g).map fun p => p.2.name := by
    rw [List.filterMap_map]
    exact List.filterMap_eq_map_iff_forall_eq_some.mpr fun p _ => hf p
  rw [hmap,map_groups]
  rfl

theorem labels_rules (g : Graph) : ((groups g).flatMap fun p =>
    (numberedSources p.2).map fun e => Statement.rule p.1 e.1 e.2).filterMap Statement.label? =
      g.groups.flatMap Group.sources := by
  rw [List.filterMap_flatMap,← flatMap_groups]
  refine List.flatMap_congr fun p _ => ?_
  rw [List.filterMap_map,← snd_numberedSources]
  exact List.filterMap_eq_map_iff_forall_eq_some.mpr fun _ _ => rfl

theorem labels_edges {α : Type} {f : GroupId → α → Statement} (hf : ∀ id a, (f id a).label? = none)
    (targets : Group → List α) (g : Graph) : ((groups g).flatMap fun p =>
      (targets p.2).map (f p.1)).filterMap Statement.label? = [] := by
  rw [List.filterMap_eq_nil_iff]
  simp only [List.mem_flatMap,List.mem_map]
  rintro s ⟨p,-,a,-,rfl⟩
  exact hf p.1 a

theorem labels_plain (g : Graph) (counts : Option Tally) :
    (statements g .plain counts).filterMap Statement.label? = g.names := by
  rw [statements_plain,List.filterMap_append,labels_groups (fun _ => rfl),
    List.filterMap_cons_none rfl,labels_edges (fun _ _ => rfl),List.append_nil]

theorem labels_long (g : Graph) : (statements g .long none).filterMap Statement.label? =
    g.groups.flatMap Group.sources ++ g.names := by
  rw [statements_long,List.filterMap_cons_none rfl,List.filterMap_cons_none rfl,
    List.filterMap_append,labels_rules,List.filterMap_cons_none rfl,List.filterMap_append,
    labels_groups (fun _ => rfl),List.filterMap_cons_none rfl,
    labels_edges (f:=fun id e => Statement.ruleEdge id e.1 e.2) (fun _ _ => rfl) numberedTargets,
    List.append_nil]

theorem statements_plain_inj {counts counts' : Option Tally}
    (he : statements g .plain counts = statements h .plain counts') :
    g.names = h.names ∧ ∀ id, (g.group id).dependencies = (h.group id).dependencies := by
  have hnames : g.names = h.names := by rw [← labels_plain g counts,he,labels_plain]
  refine ⟨hnames,map_groups_inj ?_⟩
  have hblank (g : Graph) : Statement.blank ∉ (groups g).map fun p =>
      Statement.group p.1 p.2.name := by
    simp
  rw [statements_plain,statements_plain] at he
  have hedges := (append_cons_inj (hblank g) (hblank h) he).2
  exact numbered_inj Statement.groupEdge (fun i j b c ht => Statement.groupEdge.inj ht)
    (Graph.size_eq_of_names hnames) hedges

theorem statements_long_inj (he : statements g .long none = statements h .long none) :
    g.names = h.names ∧ ∀ id, (g.group id).sources = (h.group id).sources ∧
      (g.group id).rules.map (fun r => r.references.eraseDups) =
        (h.group id).rules.map (fun r => r.references.eraseDups) := by
  have hrule (g : Graph) : Statement.blank ∉ (groups g).flatMap fun p =>
      (numberedSources p.2).map fun e => Statement.rule p.1 e.1 e.2 := by
    simp
  have hcluster (g : Graph) : Statement.blank ∉ (groups g).map fun p =>
      Statement.cluster p.1 p.2.name p.2.rules.length := by
    simp
  rw [statements_long,statements_long] at he
  obtain ⟨hrules,hrest⟩ :=
    append_cons_inj (hrule g) (hrule h) (List.cons.inj (List.cons.inj he).2).2
  obtain ⟨hclusters,hedges⟩ := append_cons_inj (hcluster g) (hcluster h) hrest
  have hnames : g.names = h.names := by
    rw [← labels_groups (f:=fun p => Statement.cluster p.1 p.2.name p.2.rules.length)
      (fun _ => rfl) g,hclusters,labels_groups (fun _ => rfl)]
  have hsize := Graph.size_eq_of_names hnames
  have hnumbered : g.groups.map numberedSources = h.groups.map numberedSources :=
    numbered_inj (fun id e => Statement.rule id e.1 e.2)
      (fun i j b c ht => by
        obtain ⟨hi,h1,h2⟩ := Statement.rule.inj ht
        exact ⟨hi,Prod.ext h1 h2⟩) hsize hrules
  have htargets : g.groups.map numberedTargets = h.groups.map numberedTargets :=
    numbered_inj (fun id e => Statement.ruleEdge id e.1 e.2)
      (fun i j b c ht => by
        obtain ⟨hi,h1,h2⟩ := Statement.ruleEdge.inj ht
        exact ⟨hi,Prod.ext h1 h2⟩) hsize hedges
  refine ⟨hnames,fun id => ?_⟩
  have hsources : (g.group id).sources = (h.group id).sources := by
    rw [← snd_numberedSources,map_groups_inj hnumbered,snd_numberedSources]
  have hlen := congrArg List.length hsources
  rw [Group.sources,Group.sources,List.length_map,List.length_map] at hlen
  refine ⟨hsources,?_⟩
  exact numbered_inj Prod.mk (fun i j b c ht => Prod.mk.inj ht) hlen (map_groups_inj htargets id)

/-- A drawing is unambiguous. The plain one determines names and dependencies, the long one without
counts names, rules and the groups that each rule mentions. A label is a quoted string that ends at
its own quote, wherever it stands, undoing its escapes gives the text that it was made of, and no
line but those of the statements comes from it. -/
theorem dot_unambiguous :
    (∀ (g h : Graph) (counts counts' : Option Tally), dot g .plain counts = dot h .plain counts' →
      g.names = h.names ∧ ∀ id, (g.group id).dependencies = (h.group id).dependencies) ∧
    (∀ g h : Graph, dot g .long none = dot h .long none →
      g.names = h.names ∧ ∀ id, (g.group id).sources = (h.group id).sources ∧
        (g.group id).rules.map (fun r => r.references.eraseDups) =
          (h.group id).rules.map (fun r => r.references.eraseDups)) ∧
    (∀ (g : Graph) (counts : Option Tally),
      quotedTexts (dot g .plain counts).toList = some g.names) ∧
    (∀ g : Graph, quotedTexts (dot g .long none).toList =
      some (g.groups.flatMap Group.sources ++ g.names)) ∧
    (∀ (g : Graph) (style : Style) (counts : Option Tally),
      quotedTexts (dot g style counts).toList =
        some ((statements g style counts).filterMap Statement.label?) ∧
      (dot g style counts).toList.splitOn '\n' =
        (page (statements g style counts)).map String.toList ++ [[]]) ∧
    ∀ text : String, ∃ body : List Char,
      (label text).toList = "label=\"".toList ++ body ++ ['"'] ∧ '\n' ∉ body ∧
      unescape body = some text.toList ∧
      ∀ rest, splitQuote (body ++ '"' :: rest) = some (body,rest) := by
  refine ⟨fun g h counts counts' he => statements_plain_inj (render_injective he),
    fun g h he => statements_long_inj (render_injective he),fun g counts => ?plain,fun g => ?long,
    fun g style counts => ⟨quotedTexts_render _,splitOn_render _⟩,fun text => ?label⟩
  case plain => rw [dot,quotedTexts_render,labels_plain]
  case long => rw [dot,quotedTexts_render,labels_long]
  case label =>
    exact ⟨text.toList.flatMap escape,by simp [toList_label],newline_notMem_flatMap_escape _,
      unescape_flatMap_escape _,splitQuote_flatMap_escape _⟩

/-- A rule with quotes in it that mentions a group twice. -/
def quote : Rule :=
  ⟨⟨"\"#x;\n]#\"\\\"#x;\n]#\"",[.literal "\"",.placeholder (.parse "x;\n]"),
    .literal "\"\\\"",.placeholder (.parse "x;\n]"),.literal "\""]⟩,[1,1]⟩

/-- The group that it mentions is waiting for rules. -/
def quoting : Graph := ⟨[(Group.pending "say \"it\"\\").declared [quote],.pending "x;\n]"]⟩

/-- The same once that group is declared without rules, which no drawing shows. -/
def quoted : Graph := quoting.update 1 (·.declared [])

theorem dot_unambiguous_quoted :
    (quoting.group 1).resolved = false ∧ (quoted.group 1).resolved = true ∧
    dot quoting .plain none = dot quoted .plain none ∧
    dot quoting .long none = dot quoted .long none ∧
    quoting.names = quoted.names ∧ (quoting.group 0).dependencies = (quoted.group 0).dependencies ∧
    (quoting.group 0).sources = (quoted.group 0).sources ∧
    (quoting.group 0).rules.map (fun r => r.references.eraseDups) =
      (quoted.group 0).rules.map (fun r => r.references.eraseDups) ∧
    quotedTexts (dot quoted .long none).toList =
      some ["\"#x;\n]#\"\\\"#x;\n]#\"","say \"it\"\\","x;\n]"] := by
  have hplain : dot quoting .plain none = dot quoted .plain none := rfl
  have hlong : dot quoting .long none = dot quoted .long none := rfl
  obtain ⟨plain_inj,long_inj,-,texts,-⟩ := dot_unambiguous
  obtain ⟨hnames,hdependencies⟩ := plain_inj quoting quoted none none hplain
  obtain ⟨-,hrules⟩ := long_inj quoting quoted hlong
  exact ⟨rfl,rfl,hplain,hlong,hnames,hdependencies 0,(hrules 0).1,(hrules 0).2,texts quoted⟩

end Dot

end PhraseGrammar
