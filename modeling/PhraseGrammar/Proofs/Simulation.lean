import Mathlib.Algebra.Order.BigOperators.Group.List
import Mathlib.Logic.Relator
import PhraseGrammar.Proofs.Count

/-! Graphs of which one has, for each rule, a rule of the other, up to the positions of groups. What
the first derives and where its references lead is then found in the second; how often, only if no
rule stands twice in the first. -/
namespace PhraseGrammar

/-- The rules are the same up to the positions of the groups they refer to. -/
structure Rule.Corresponds (R : GroupId → GroupId → Prop) (r s : Rule) : Prop where
  template : r.template = s.template
  references : List.Forall₂ R r.references s.references

theorem Rule.Corresponds.source_eq {R : GroupId → GroupId → Prop} {r s : Rule}
    (h : Rule.Corresponds R r s) : r.source = s.source := by
  rw [Rule.source,h.template,Rule.source]

namespace Graph

open Relation

/-- Every rule on the left has its like on the right. -/
structure Simulation (g h : Graph) (R : GroupId → GroupId → Prop) : Prop where
  rules : ∀ {i j : GroupId}, R i j → ∀ r ∈ (g.group i).rules, ∃ s ∈ (h.group j).rules,
    Rule.Corresponds R r s

namespace Simulation

variable {g h : Graph} {R : GroupId → GroupId → Prop} {limit : Option Nat}

theorem exists_fills {all all' : GroupId → List Derivation}
    (ha : ∀ i j, R i j → ∀ d ∈ all i, ∃ used, (used,d.2) ∈ all' j) {segments : List Segment}
    {ids ids' : List GroupId} (hids : List.Forall₂ R ids ids') {d : Derivation}
    (hd : d ∈ fills all segments ids) : ∃ used, (used,d.2) ∈ fills all' segments ids' := by
  induction segments generalizing ids ids' d with
  | nil =>
    obtain rfl := List.mem_singleton.mp hd
    exact ⟨[],List.mem_singleton.mpr rfl⟩
  | cons segment segments ih =>
    cases segment with
    | literal lead =>
      obtain ⟨e,he,rfl⟩ := List.mem_map.mp hd
      obtain ⟨used,hused⟩ := ih hids he
      exact ⟨used,List.mem_map.mpr ⟨_,hused,rfl⟩⟩
    | placeholder p =>
      cases hids with
      | nil => cases hd
      | @cons i j ids ids' hij hids =>
        obtain ⟨first,hfirst,he⟩ := List.mem_flatMap.mp hd
        obtain ⟨rest,hrest,rfl⟩ := List.mem_map.mp he
        obtain ⟨used,hused⟩ := ha i j hij first hfirst
        obtain ⟨used',hused'⟩ := ih hids hrest
        exact ⟨used ++ used',List.mem_flatMap.mpr ⟨_,hused,List.mem_map.mpr ⟨_,hused',rfl⟩⟩⟩

/-- The right derives whatever the left does, perhaps by another script. -/
theorem exists_derivation (hR : Simulation g h R) {i j : GroupId} (hij : R i j)
    {levels depth : Nat} {d : Derivation} (hd : d ∈ g.derivations limit levels depth i) :
    ∃ used, (used,d.2) ∈ h.derivations limit levels depth j := by
  induction levels generalizing i j depth d with
  | zero => cases hd
  | succ levels ih =>
    obtain ⟨script,text⟩ := d
    obtain ⟨hlimit,k,r,rest,hk,-,hfill⟩ := mem_derivations_succ.mp hd
    obtain ⟨s,hs,hrs⟩ := hR.rules hij r (List.mem_of_getElem? hk)
    obtain ⟨l,hl⟩ := List.mem_iff_getElem?.mp hs
    rw [ruleFills,hrs.template] at hfill
    have hall : ∀ i j, R i j → ∀ d ∈ g.derivations limit levels (depth + 1) i,
        ∃ used, (used,d.2) ∈ h.derivations limit levels (depth + 1) j :=
      fun i j hij d hd => ih hij hd
    obtain ⟨used,hused⟩ := exists_fills hall hrs.references hfill
    exact ⟨l :: used,mem_derivations_succ.mpr ⟨hlimit,l,s,used,hl,rfl,hused⟩⟩

theorem exists_dependsOn (hR : Simulation g h R) (hg : g.WellFormed) (hh : h.WellFormed)
    {i j i' : GroupId} (hij : R i j) (hd : g.DependsOn i i') :
    ∃ j', h.DependsOn j j' ∧ R i' j' := by
  obtain ⟨r,hr,hi'⟩ := hg.dependsOn_iff.mp hd
  obtain ⟨s,hs,hrs⟩ := hR.rules hij r hr
  obtain ⟨j',hj',hij'⟩ := forall₂_exists hrs.references hi'
  exact ⟨j',hh.dependsOn_iff.mpr ⟨s,hs,hj'⟩,hij'⟩

theorem exists_reflTransGen (hR : Simulation g h R) (hg : g.WellFormed) (hh : h.WellFormed)
    {i j i' : GroupId} (hij : R i j) (hr : ReflTransGen g.DependsOn i i') :
    ∃ j', ReflTransGen h.DependsOn j j' ∧ R i' j' := by
  induction hr with
  | refl => exact ⟨j,.refl,hij⟩
  | tail _ hd ih =>
    obtain ⟨k,hr,hk⟩ := ih
    obtain ⟨j',hd',hij'⟩ := hR.exists_dependsOn hg hh hk hd
    exact ⟨j',hr.tail hd',hij'⟩

theorem transGen (hR : Simulation g h R) (hu : Relator.RightUnique R) (hg : g.WellFormed)
    (hh : h.WellFormed) {i j : GroupId} (hij : R i j) (hcycle : TransGen g.DependsOn i i) :
    TransGen h.DependsOn j j := by
  obtain ⟨i',hd,hback⟩ := TransGen.head'_iff.mp hcycle
  obtain ⟨j',hd',hij'⟩ := hR.exists_dependsOn hg hh hij hd
  obtain ⟨k,hback',hk⟩ := hR.exists_reflTransGen hg hh hij' hback
  rw [← hu hij hk] at hback'
  exact TransGen.head' hd' hback'

theorem cycleFree (hR : Simulation g h R) (hu : Relator.RightUnique R) (hg : g.WellFormed)
    (hh : h.WellFormed) {i j : GroupId} (hij : R i j) (hfree : h.CycleFree j) :
    g.CycleFree i := by
  intro m hm hcycle
  obtain ⟨k,hk,hmk⟩ := hR.exists_reflTransGen hg hh hij hm
  exact hfree k hk (hR.transGen hu hg hh hmk hcycle)

theorem ruleCount_le {N M : GroupId → Nat} {r s : Rule} (hrs : Rule.Corresponds R r s)
    (h : ∀ i ∈ r.references, ∀ j ∈ s.references, R i j → N i ≤ M j) :
    ruleCount N r ≤ ruleCount M s := by
  apply List.Forall₂.prod_le_prod'
  rw [List.forall₂_map_left_iff,List.forall₂_map_right_iff]
  exact (forall₂_mem hrs.references).imp fun i j hij => h i hij.1 j hij.2.1 hij.2.2

/-- Where no rule stands twice on the left, different rules have different likes on the right. -/
theorem exists_subperm (hR : Simulation g h R) {i j : GroupId} (hij : R i j)
    (hnodup : (g.group i).sources.Nodup) : ∃ rules : List Rule,
      List.Forall₂ (Rule.Corresponds R) (g.group i).rules rules ∧
        rules.Subperm (h.group j).rules := by
  obtain ⟨rules,hrules⟩ := exists_forall₂ (R:=fun r s => Rule.Corresponds R r s ∧
    s ∈ (h.group j).rules) fun r hr => by
      obtain ⟨s,hs,hrs⟩ := hR.rules hij r hr
      exact ⟨s,hrs,hs⟩
  have hsources : (g.group i).sources = rules.map Rule.source :=
    map_eq_map_of_forall₂ hrules fun _ _ _ _ hrs => hrs.1.source_eq
  have hsub : rules ⊆ (h.group j).rules := by
    intro s hs
    obtain ⟨r,-,hrs⟩ := forall₂_exists hrules.flip hs
    exact hrs.2
  refine ⟨rules,hrules.imp fun _ _ hrs => hrs.1,List.Nodup.subperm ?_ hsub⟩
  exact List.Nodup.of_map Rule.source (hsources ▸ hnodup)

theorem ways_le (hR : Simulation g h R) (hu : Relator.RightUnique R) (hg : g.WellFormed)
    (hh : h.WellFormed) (hnodup : ∀ i, (g.group i).sources.Nodup) {i j : GroupId} (hij : R i j)
    (hfree : h.CycleFree j) : g.ways i ≤ h.ways j := by
  induction hn : h.rank j using Nat.strong_induction_on generalizing i j with
  | _ n ih =>
    obtain ⟨rules,hrules,hsub⟩ := hR.exists_subperm hij (hnodup i)
    rw [← sum_ruleCount_ways hg (hR.cycleFree hu hg hh hij hfree),← sum_ruleCount_ways hh hfree]
    have hleft : ((g.group i).rules.map (ruleCount g.ways)).sum ≤
        (rules.map (ruleCount h.ways)).sum := by
      apply List.Forall₂.sum_le_sum
      rw [List.forall₂_map_left_iff,List.forall₂_map_right_iff]
      refine (forall₂_mem hrules).imp fun r s hrs => ruleCount_le hrs.2.2 fun m _ k hk hmk => ?_
      have hd := hh.dependsOn_of_mem (hsub.subset hrs.2.1) hk
      have hrank := hfree.rank_lt hd
      exact ih _ (hn ▸ hrank) hmk (hfree.of_dependsOn hd) rfl
    obtain ⟨sub,hperm,hsublist⟩ := hsub
    calc ((g.group i).rules.map (ruleCount g.ways)).sum
        ≤ (rules.map (ruleCount h.ways)).sum := hleft
      _ = (sub.map (ruleCount h.ways)).sum := ((hperm.map _).sum_eq).symm
      _ ≤ ((h.group j).rules.map (ruleCount h.ways)).sum :=
          (hsublist.map _).sum_le_sum fun _ _ => Nat.zero_le _

end Simulation

end Graph

end PhraseGrammar
