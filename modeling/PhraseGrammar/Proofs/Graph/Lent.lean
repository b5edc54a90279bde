import PhraseGrammar.Proofs.Article
import PhraseGrammar.Proofs.Graph.Derived
import PhraseGrammar.Proofs.Safety

/-! Groups whose rules are those of another one behind a determiner. Their rules stand in step with
a part of the base's, the entries of one gender followed by the shared ones; whatever goes by
position in the base, its counts among them, is lent along the same part. -/
namespace PhraseGrammar

namespace GenderedRules

variable {α β : Type}

/-- The part of a list in step with all rules that belongs to a gender, followed by the shared
one. -/
def lent (r : GenderedRules) (gender : Gender) (xs : List α) : List α :=
  let mascs := (r.masc.getD []).length
  let fems := (r.fem.getD []).length
  match gender with
  | .masc => xs.take mascs ++ xs.drop (mascs + fems)
  | .fem => (xs.drop mascs).take fems ++ xs.drop (mascs + fems)

theorem lent_map (r : GenderedRules) (gender : Gender) (f : α → β) (xs : List α) :
    r.lent gender (xs.map f) = (r.lent gender xs).map f := by
  cases gender <;> simp [lent,List.map_take,List.map_drop]

theorem mem_of_mem_lent {r : GenderedRules} {gender : Gender} {xs : List α} {a : α}
    (h : a ∈ r.lent gender xs) : a ∈ xs := by
  cases gender with
  | masc => exact (List.mem_append.mp h).elim List.mem_of_mem_take List.mem_of_mem_drop
  | fem =>
    exact (List.mem_append.mp h).elim (fun h => List.mem_of_mem_drop (List.mem_of_mem_take h))
      List.mem_of_mem_drop

theorem map_lent_zipIdx (r : GenderedRules) (gender : Gender) (f : α → β) (xs : List α) :
    (r.lent gender xs.zipIdx).map (fun p => f p.1) = r.lent gender (xs.map f) := by
  rw [← lent_map]
  congr 1
  calc xs.zipIdx.map (fun p => f p.1)
      = (xs.zipIdx.map Prod.fst).map f := List.map_map.symm
    _ = xs.map f := by rw [List.zipIdx_map_fst]

theorem lent_all {r : GenderedRules} {gender : Gender} {candidates : List String}
    (h : r.candidates gender = some candidates) :
    r.lent gender (GroupRules.gendered r).all = candidates := by
  obtain ⟨own,hown,rfl⟩ := Option.map_eq_some_iff.mp h
  cases gender with
  | masc =>
    have hmasc : r.masc = some own := hown
    simp [lent,GroupRules.all,hmasc]
  | fem =>
    have hfem : r.fem = some own := hown
    simp [lent,GroupRules.all,hfem]

end GenderedRules

namespace Graph

variable {g G : Graph}

theorem WellFormed.references_eq (hg : g.WellFormed) {ids ids' : List GroupId}
    {symbols : List String}
    (h : List.Forall₂ (fun id symbol => g.names[id]? = some symbol) ids symbols)
    (h' : List.Forall₂ (fun id symbol => g.names[id]? = some symbol) ids' symbols) :
    ids = ids' := by
  induction h generalizing ids' with
  | nil =>
    cases h'
    rfl
  | cons hid _ ih =>
    cases h' with
    | cons hid' hrest =>
      rw [← hg.idOf?_eq_some] at hid hid'
      rw [Option.some.inj (hid.symm.trans hid'),ih hrest]

open Relation in
theorem CycleFree.of_dependsOn_imp {id other : GroupId} (h : g.CycleFree other)
    (hd : ∀ r, g.DependsOn id r → g.DependsOn other r) : g.CycleFree id := by
  intro r hr hcycle
  rcases hr.cases_head with rfl | ⟨next,hnext,hrest⟩
  · obtain ⟨next,hnext,hback⟩ := TransGen.head'_iff.mp hcycle
    exact h next (.single (hd next hnext)) (.tail' hback hnext)
  · exact h r (.head (hd next hnext) hrest) hcycle

variable {grammar : Grammar} {d : Determiner} {gender : Gender} {base : String} {b id : GroupId}

/-- Group `id` has the rules of a gender in group `b`, each behind a determiner and next to the
position of the rule that it comes from. -/
structure Lends (G : Graph) (grouped : GenderedRules) (d : Determiner) (gender : Gender)
    (b id : GroupId) : Prop where
  candidates : grouped.candidates gender = some (grouped.lent gender (G.group b).sources)
  rules : List.Forall₂ (fun rule p => rule.source = d.apply gender p.1.source ∧
      rule.references = p.1.references)
    (G.group id).rules (grouped.lent gender (G.group b).rules.zipIdx)

theorem resolve_spell {grouped : GenderedRules} {rules : List String}
    (hkey : grammar.get? (SymbolName.spell ⟨some d,base,some gender⟩) = none)
    (hbase : grammar.get? base = some (.gendered grouped))
    (hr : grammar.resolve (SymbolName.spell ⟨some d,base,some gender⟩) = .ok rules) :
    ∃ candidates, grouped.candidates gender = some candidates ∧
      rules = candidates.map (d.apply gender) := by
  simp only [Grammar.resolve,hkey,SymbolName.parse_spell,hbase] at hr
  cases hc : grouped.candidates gender with
  | none => simp [hc] at hr
  | some candidates => exact ⟨candidates,rfl,by simpa [hc] using hr.symm⟩

theorem mem_zipIdx_of_mem_lent {grouped : GenderedRules} {p : Rule × Nat}
    (h : p ∈ grouped.lent gender (G.group b).rules.zipIdx) : (G.group b).rules[p.2]? = some p.1 :=
  List.mk_mem_zipIdx_iff_getElem?.mp (GenderedRules.mem_of_mem_lent h)

theorem exists_lends (h : build grammar false = .ok G)
    (hname : G.names[id]? = some (SymbolName.spell ⟨some d,base,some gender⟩))
    (hderived : (G.group id).derived = true) : ∃ b grouped, G.idOf? base = some b ∧
      grammar.get? base = some (.gendered grouped) ∧ (G.group id).base = some b ∧
      Lends G grouped d gender b id := by
  obtain ⟨hlt,hgroup⟩ := getElem?_names.mp hname
  have hwf := (reached_of_build h).wellFormed
  obtain ⟨-,hgroups⟩ := groups_of_build h
  obtain ⟨-,⟨rules,hr,hsources⟩,hkey,hfrom,-⟩ := hgroups id hlt
  obtain ⟨b,grouped,hb,hidOf,hget,-,-⟩ := hfrom hderived
  rw [hgroup] at hr hkey hidOf hget
  rw [SymbolName.parse_spell] at hidOf hget
  obtain ⟨candidates,hcandidates,rfl⟩ :=
    resolve_spell (Grammar.get?_eq_none.mpr (hkey.mp hderived)) hget hr
  obtain ⟨hltb,hnameb⟩ := getElem?_names.mp (getElem?_names_of_idOf? hidOf)
  obtain ⟨all,hall,hsourcesb⟩ := (hgroups b hltb).2.1
  rw [hnameb,Grammar.resolve,hget] at hall
  rw [arrange_false,← Except.ok.inj hall] at hsourcesb
  have hlent : grouped.lent gender (G.group b).sources = candidates :=
    hsourcesb ▸ GenderedRules.lent_all hcandidates
  have hbare : (grouped.lent gender (G.group b).rules.zipIdx).map (fun p => p.1.source) =
      candidates := by
    rw [GenderedRules.map_lent_zipIdx]
    exact hlent
  have hmap : (G.group id).rules.map Rule.source =
      (grouped.lent gender (G.group b).rules.zipIdx).map fun p => d.apply gender p.1.source := by
    rw [← Group.sources,hsources,arrange_false,← hbare,List.map_map]
    rfl
  refine ⟨b,grouped,hidOf,hget,hb,hlent ▸ hcandidates,?_⟩
  refine (forall₂_mem (forall₂_of_map_eq hmap)).imp fun rule p hpair => ?_
  obtain ⟨hrule,hp,hsource⟩ := hpair
  refine ⟨hsource,?_⟩
  have hfits := hwf.fits id rule hrule
  have hbase := hwf.fits b p.1 (List.mem_of_getElem? (mem_zipIdx_of_mem_lent hp))
  obtain ⟨bare,hparsed,hsymbols⟩ := Determiner.symbols_parse_apply (hsource ▸ hfits.parsed)
  obtain rfl := Except.ok.inj (hbase.parsed.symm.trans hparsed)
  exact hwf.references_eq hfits.references (hsymbols ▸ hbase.references)

/-- The expansion of a group at some depth once this rule of it has been taken. -/
def expandRule (g : Graph) (limit : Option Nat) {σ : Type} (strategy : Strategy σ)
    (levels depth : Nat) (rule : Rule) (s : σ) : Outcome String × σ :=
  fill (g.expandGroup limit strategy levels (depth + 1)) rule.template.segments rule.references s

theorem Lends.fill {grouped : GenderedRules} (h : Lends G grouped d gender b id)
    (hG : G.WellFormed) {k i : Nat} {rule bare : Rule} (hrule : (G.group id).rules[k]? = some rule)
    (hbare : (grouped.lent gender (G.group b).rules.zipIdx)[k]? = some (bare,i)) {σ : Type}
    (enter : GroupId → σ → Outcome String × σ) (s : σ) :
    fill enter rule.template.segments rule.references s =
      ((fill enter bare.template.segments bare.references s).1.map
        (d.lead gender bare.source.toList.head? ++ ·),
        (fill enter bare.template.segments bare.references s).2) := by
  obtain ⟨hsource,hreferences⟩ : rule.source = d.apply gender bare.source ∧
      rule.references = bare.references := by
    rcases forall₂_getElem? h.rules k with ⟨hnone,-⟩ | ⟨rule',p,hrule',hp,hpair⟩
    · simp [hrule] at hnone
    · obtain rfl := Option.some.inj (hrule.symm.trans hrule')
      obtain rfl := Option.some.inj (hbare.symm.trans hp)
      exact hpair
  have hmem : bare ∈ (G.group b).rules :=
    List.mem_of_getElem? (mem_zipIdx_of_mem_lent (List.mem_of_getElem? hbare))
  have hparsed := (hG.fits id rule (List.mem_of_getElem? hrule)).parsed
  rw [hsource,Determiner.apply_eq_lead] at hparsed
  rw [hreferences]
  exact fill_append enter (Determiner.delimiter_notMem_article d gender _)
    (hG.fits b bare hmem).parsed hparsed _ s

/-- Whatever rule of the group a strategy takes, the expansion is that of a rule of the base behind
the text of the determiner. -/
theorem Lends.expandGroup {grouped : GenderedRules} (h : Lends G grouped d gender b id)
    (hG : G.WellFormed) (hrules : (G.group id).rules ≠ []) {σ : Type} (strategy : Strategy σ)
    {limit : Option Nat} (levels : Nat) {depth : Nat} (hroom : exceeded? limit depth = none)
    (s : σ) : ∃ bare i r,
      (grouped.lent gender (G.group b).rules.zipIdx)[
        (strategy.choose s (G.group id).rules.length).1 % (G.group id).rules.length]? =
          some (bare,i) ∧
      r = G.expandRule limit strategy levels depth bare
        (strategy.choose s (G.group id).rules.length).2 ∧
      G.expandGroup limit strategy (levels + 1) depth id s =
        (r.1.map (d.lead gender bare.source.toList.head? ++ ·),r.2) ∧
      ∀ t, (strategy.choose t (G.group b).rules.length).1 % (G.group b).rules.length = i →
        (strategy.choose t (G.group b).rules.length).2 =
          (strategy.choose s (G.group id).rules.length).2 →
        G.expandGroup limit strategy (levels + 1) depth b t = r := by
  obtain ⟨rule,hrule⟩ := exists_rule_of_choose hrules
    (strategy.choose s (G.group id).rules.length).1
  rcases forall₂_getElem? h.rules ((strategy.choose s (G.group id).rules.length).1 %
    (G.group id).rules.length) with ⟨hnone,-⟩ | ⟨-,⟨bare,i⟩,-,hbare,-⟩
  · simp [hrule] at hnone
  refine ⟨bare,i,_,hbare,rfl,?_,fun t hi hsame => ?_⟩
  · rw [expandGroup_enter hroom hrule]
    exact h.fill hG hrule hbare _ _
  · have hbase := mem_zipIdx_of_mem_lent (List.mem_of_getElem? hbare)
    rw [expandGroup_enter hroom (hi.symm ▸ hbase),hsame]
    rfl

theorem Lends.cycleFree {grouped : GenderedRules} (h : Lends G grouped d gender b id)
    (hG : G.WellFormed) (hfree : G.CycleFree b) : G.CycleFree id := by
  refine hfree.of_dependsOn_imp fun r hd => ?_
  obtain ⟨rule,hrule,hr⟩ := hG.dependsOn_iff.mp hd
  obtain ⟨p,hp,-,hreferences⟩ := forall₂_exists h.rules hrule
  have hmem := List.mem_of_getElem? (mem_zipIdx_of_mem_lent hp)
  exact hG.dependsOn_iff.mpr ⟨p.1,hmem,hreferences ▸ hr⟩

theorem Lends.total_tally {grouped : GenderedRules} (h : Lends G grouped d gender b id)
    (hG : G.WellFormed) (hid : id < G.size) (hb : b < G.size) (hfree : G.CycleFree b) :
    G.tally.total id = (grouped.lent gender (G.tally.counts b)).sum := by
  have hcounts : (G.group id).rules.map (ruleCount G.ways) =
      (grouped.lent gender (G.group b).rules.zipIdx).map fun p => ruleCount G.ways p.1 :=
    map_eq_map_of_forall₂ h.rules fun rule _ p _ hpair => by
      rw [ruleCount,ruleCount,hpair.2]
  calc G.tally.total id
      = (G.tally.counts id).sum := rfl
    _ = ((G.group id).rules.map (ruleCount G.ways)).sum := by
      rw [counts_tally_ways hG hid (h.cycleFree hG hfree)]
    _ = (grouped.lent gender (G.tally.counts b)).sum := by
      rw [hcounts,GenderedRules.map_lent_zipIdx,counts_tally_ways hG hb hfree]

/-- An article goes before a rule and does nothing else to it: it depends on the first character
only, has no delimiter and can be taken away again. So a derived group has rule by rule the
references of its base, its expansions are articles followed by those of the base under the same
choices, and its count is made of the base's. -/
theorem articles_lend :
    (∀ (d : Determiner) (gender : Gender), Function.Injective (d.apply gender)) ∧
    (∀ (d : Determiner) (gender : Gender) (item : String),
      d.apply gender item = d.lead gender item.toList.head? ++ item ∧
      (Template.parse (d.apply gender item)).toOption.map Template.placeholders =
        (Template.parse item).toOption.map Template.placeholders) ∧
    (∀ (d : Determiner) (gender : Gender) (first : Option Char),
      d.lead gender first ≠ "" ∧ Template.delimiter ∉ (d.lead gender first).toList) ∧
    ∀ (grammar : Grammar) (G : Graph) (d : Determiner) (base : String) (gender : Gender)
      (id : GroupId), build grammar false = .ok G →
      G.names[id]? = some (SymbolName.spell ⟨some d,base,some gender⟩) →
      (G.group id).derived = true → ∃ b grouped, G.idOf? base = some b ∧
        grammar.get? base = some (.gendered grouped) ∧ (G.group id).base = some b ∧
        Lends G grouped d gender b id ∧
        ((G.group id).rules ≠ [] → ∀ {σ : Type} (strategy : Strategy σ) (limit : Option Nat)
          (levels depth : Nat) (s : σ), exceeded? limit depth = none → ∃ bare i r,
            (grouped.lent gender (G.group b).rules.zipIdx)[
              (strategy.choose s (G.group id).rules.length).1 % (G.group id).rules.length]? =
                some (bare,i) ∧
            r = G.expandRule limit strategy levels depth bare
              (strategy.choose s (G.group id).rules.length).2 ∧
            G.expandGroup limit strategy (levels + 1) depth id s =
              (r.1.map (d.lead gender bare.source.toList.head? ++ ·),r.2) ∧
            ∀ t, (strategy.choose t (G.group b).rules.length).1 % (G.group b).rules.length = i →
              (strategy.choose t (G.group b).rules.length).2 =
                (strategy.choose s (G.group id).rules.length).2 →
              G.expandGroup limit strategy (levels + 1) depth b t = r) ∧
        (G.CycleFree b →
          G.tally.total id = (grouped.lent gender (G.tally.counts b)).sum) := by
  refine ⟨Determiner.apply_injective,fun d gender item => ⟨d.apply_eq_lead gender item,
    Determiner.placeholders_parse_apply d gender item⟩,fun d gender first =>
    ⟨Determiner.article_ne_empty d gender _,Determiner.delimiter_notMem_article d gender _⟩,
    fun grammar G d base gender id h hname hderived => ?_⟩
  have hwf := (reached_of_build h).wellFormed
  obtain ⟨b,grouped,hidOf,hget,hb,hlends⟩ := exists_lends h hname hderived
  exact ⟨b,grouped,hidOf,hget,hb,hlends,
    fun hrules σ strategy limit levels depth s hroom =>
      hlends.expandGroup hwf hrules strategy levels hroom s,
    hlends.total_tally hwf (lt_size_of_getElem?_names hname) (lt_size_of_idOf? hidOf)⟩

/-- The group of the bestiary that the derived one takes its rules from. -/
def bestiaryAnimal : GenderedRules := ⟨some ["ours #late#","chat"],none,some ["aigle"]⟩

theorem articles_lend_bestiary : ∃ G, build bestiary false = .ok G ∧
    G.names[1]? = some (SymbolName.spell ⟨some .definite,"animal",some .masc⟩) ∧
    (G.group 1).derived = true ∧ G.CycleFree 3 ∧ G.tally.counts 3 = [0,1,1] ∧
    G.tally.total 1 = 2 ∧
    G.expandGroup none (.scripted [1]) 2 0 3 0 = (.done "chat",1) ∧
    G.expandGroup none (.scripted [1]) 2 0 1 0 = (.done "le chat",1) := by
  have hbuilt : (build bestiary false).map (fun G => (G.names[1]?,(G.group 1).derived,
      G.idOf? "animal",(G.group 1).rules.length,(G.group 3).rules.length)) =
      .ok (some (SymbolName.spell ⟨some .definite,"animal",some .masc⟩),true,some 3,3,3) := by
    decide +kernel
  have hdependencies : (build bestiary false).map (fun G => ((G.group 3).dependencies,
      (G.group 4).dependencies,G.tally.counts 3)) = .ok ([4],[],[0,1,1]) := by decide +kernel
  have hlent : (build bestiary false).map (fun G =>
      (bestiaryAnimal.lent .masc (G.group 3).rules.zipIdx).map fun p => (p.1.source,p.2)) =
      .ok [("ours #late#",0),("chat",1),("aigle",2)] := by decide +kernel
  have hrun : (build bestiary false).map (fun G =>
      G.expandGroup none (.scripted [1]) 2 0 3 0) = .ok (.done "chat",1) := by decide +kernel
  cases hG : build bestiary false with
  | error e => simp [hG,Except.map] at hbuilt
  | ok G =>
    simp only [hG,Except.map,Except.ok.injEq,Prod.mk.injEq] at hbuilt hdependencies
    obtain ⟨hname,hderived,hid,hlen,hlen'⟩ := hbuilt
    obtain ⟨hdeps,hdeps',hcounts⟩ := hdependencies
    have hlent := Except.ok.inj (hG ▸ hlent)
    have hrun : G.expandGroup none (.scripted [1]) 2 0 3 0 = (.done "chat",1) :=
      Except.ok.inj (hG ▸ hrun)
    have hfree : G.CycleFree 3 :=
      cycleFree_of_increasing [3,4] (by decide) (by simp [hdeps,hdeps'])
    obtain ⟨-,-,-,hlends⟩ := articles_lend
    obtain ⟨b,grouped,hb,hget,-,-,hexpand,htotal⟩ :=
      hlends bestiary G .definite "animal" .masc 1 hG hname hderived
    obtain rfl : 3 = b := Option.some.inj (hid.symm.trans hb)
    obtain rfl : bestiaryAnimal = grouped := by
      have hanimal : bestiary.get? "animal" = some (.gendered bestiaryAnimal) := by decide
      simpa using hanimal.symm.trans hget
    obtain ⟨bare,i,r,hbare,-,hderived',hbase⟩ := hexpand (List.ne_nil_of_length_eq_add_one hlen)
      (.scripted [1]) none 1 0 0 rfl
    rw [hlen] at hbare
    obtain ⟨hsource,rfl⟩ : bare.source = "chat" ∧ i = 1 := by
      have htaken : (bestiaryAnimal.lent .masc (G.group 3).rules.zipIdx)[1]? = some (bare,i) :=
        hbare
      have hsecond := congrArg (·[1]?) hlent
      rw [List.getElem?_map,htaken] at hsecond
      simpa using hsecond
    have hr := (hbase 0 (by rw [hlen']; rfl) rfl).symm.trans hrun
    rw [hr,hsource] at hderived'
    refine ⟨G,rfl,hname,hderived,hfree,hcounts,?_,hrun,hderived'⟩
    rw [htotal hfree,hcounts]
    rfl

end Graph
end PhraseGrammar
