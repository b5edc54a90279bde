import PhraseGrammar.Proofs.Simulation

/-! Graphs whose groups may stand at different positions but have the same names and rules. Along
such a correspondence expansion, enumeration and counting cannot tell the two apart. -/
namespace PhraseGrammar

namespace Graph

open Relation

structure Bisimulation (g h : Graph) (R : GroupId → GroupId → Prop) : Prop where
  name : ∀ {i j : GroupId}, R i j → (g.group i).name = (h.group j).name
  rules : ∀ {i j : GroupId}, R i j →
    List.Forall₂ (Rule.Corresponds R) (g.group i).rules (h.group j).rules
  unique : Relator.BiUnique R

def SameName (g h : Graph) (i j : GroupId) : Prop :=
  ∃ name, g.names[i]? = some name ∧ h.names[j]? = some name

/-- The two groups have the same name, and it is one of `N`. -/
def SharesName (N : Set String) (g h : Graph) (i j : GroupId) : Prop :=
  ∃ name ∈ N, g.names[i]? = some name ∧ h.names[j]? = some name

theorem sharesName_univ (g h : Graph) : SharesName Set.univ g h = SameName g h := by
  funext i j
  simp [SharesName,SameName]

variable {N : Set String}

theorem references_sharesName {g h : Graph} {ids ids' : List GroupId} {symbols : List String}
    (hN : ∀ symbol ∈ symbols, symbol ∈ N)
    (hg : List.Forall₂ (fun id symbol => g.names[id]? = some symbol) ids symbols)
    (hh : List.Forall₂ (fun id symbol => h.names[id]? = some symbol) ids' symbols) :
    List.Forall₂ (SharesName N g h) ids ids' := by
  induction hg generalizing ids' with
  | nil =>
    cases hh
    exact .nil
  | cons hid _ ih =>
    obtain ⟨hsymbol,hsymbols⟩ := List.forall_mem_cons.mp hN
    cases hh with
    | cons hid' hrest => exact .cons ⟨_,hsymbol,hid,hid'⟩ (ih hsymbols hrest)

theorem corresponds_of_source {g h : Graph} {rule rule' : Rule} (hrule : rule.FitsIn g)
    (hrule' : rule'.FitsIn h) (hs : rule.source = rule'.source)
    (hN : ∀ symbol ∈ rule.template.symbols, symbol ∈ N) :
    Rule.Corresponds (SharesName N g h) rule rule' := by
  have htemplate : rule.template = rule'.template := by
    have hp := hrule.parsed
    rw [hs,hrule'.parsed] at hp
    exact (Except.ok.inj hp).symm
  have hreferences := hrule.references
  rw [htemplate] at hN hreferences
  exact ⟨htemplate,references_sharesName hN hreferences hrule'.references⟩

theorem corresponds_of_sources {g h : Graph} {rules rules' : List Rule}
    (hg : ∀ rule ∈ rules, rule.FitsIn g) (hh : ∀ rule ∈ rules', rule.FitsIn h)
    (hN : ∀ rule ∈ rules, ∀ symbol ∈ rule.template.symbols, symbol ∈ N)
    (hs : rules.map Rule.source = rules'.map Rule.source) :
    List.Forall₂ (Rule.Corresponds (SharesName N g h)) rules rules' := by
  induction rules generalizing rules' with
  | nil =>
    obtain rfl : rules' = [] := by simpa using hs.symm
    exact .nil
  | cons rule rules ih =>
    cases rules' with
    | nil => simp at hs
    | cons rule' rules' =>
      obtain ⟨hsource,hsources⟩ := List.cons.inj hs
      obtain ⟨hrule,hrules⟩ := List.forall_mem_cons.mp hg
      obtain ⟨hrule',hrules'⟩ := List.forall_mem_cons.mp hh
      obtain ⟨hsymbols,hrest⟩ := List.forall_mem_cons.mp hN
      exact .cons (corresponds_of_source hrule hrule' hsource hsymbols)
        (ih hrules hrules' hrest hsources)

theorem biUnique_sharesName {g h : Graph} (hg : g.WellFormed) (hh : h.WellFormed) :
    Relator.BiUnique (SharesName N g h) := by
  constructor
  · rintro i i' j ⟨name,-,hi,hj⟩ ⟨name',-,hi',hj'⟩
    obtain rfl := Option.some.inj (hj.symm.trans hj')
    rw [← hg.idOf?_eq_some] at hi hi'
    exact Option.some.inj (hi.symm.trans hi')
  · rintro i j j' ⟨name,-,hi,hj⟩ ⟨name',-,hi',hj'⟩
    obtain rfl := Option.some.inj (hi.symm.trans hi')
    rw [← hh.idOf?_eq_some] at hj hj'
    exact Option.some.inj (hj.symm.trans hj')

theorem biUnique_sameName {g h : Graph} (hg : g.WellFormed) (hh : h.WellFormed) :
    Relator.BiUnique (SameName g h) :=
  sharesName_univ g h ▸ biUnique_sharesName hg hh

/-- Groups of one name correspond if they have the same rules as written and these mention only
names of the set. -/
theorem bisimulation_on_sources {g h : Graph} (hg : g.WellFormed) (hh : h.WellFormed)
    (hs : ∀ i j, SharesName N g h i j → (g.group i).sources = (h.group j).sources)
    (hN : ∀ i j, SharesName N g h i j →
      ∀ rule ∈ (g.group i).rules, ∀ symbol ∈ rule.template.symbols, symbol ∈ N) :
    Bisimulation g h (SharesName N g h) where
  name := by
    rintro i j ⟨name,-,hi,hj⟩
    rw [(getElem?_names.mp hi).2,(getElem?_names.mp hj).2]
  rules hij := corresponds_of_sources (hg.fits _) (hh.fits _) (hN _ _ hij) (hs _ _ hij)
  unique := biUnique_sharesName hg hh

theorem bisimulation_of_sources {g h : Graph} (hg : g.WellFormed) (hh : h.WellFormed)
    (hs : ∀ i j, SameName g h i j → (g.group i).sources = (h.group j).sources) :
    Bisimulation g h (SameName g h) := by
  rw [← sharesName_univ] at hs ⊢
  exact bisimulation_on_sources hg hh hs fun _ _ _ _ _ _ _ => Set.mem_univ _

theorem simulation_of_sources {g h : Graph} (hg : g.WellFormed) (hh : h.WellFormed)
    (hs : ∀ i j, SameName g h i j → (g.group i).sources ⊆ (h.group j).sources) :
    Simulation g h (SameName g h) := by
  constructor
  intro i j hij r hr
  obtain ⟨s,hmem,hsource⟩ := List.mem_map.mp (hs i j hij (List.mem_map_of_mem hr))
  rw [← sharesName_univ]
  exact ⟨s,hmem,corresponds_of_source (hg.fits i r hr) (hh.fits j s hmem) hsource.symm
    fun _ _ => Set.mem_univ _⟩

namespace Bisimulation

variable {g h : Graph} {R : GroupId → GroupId → Prop} {limit : Option Nat}

theorem symm (hR : Bisimulation g h R) : Bisimulation h g (flip R) where
  name hij := (hR.name hij).symm
  rules hij := (hR.rules hij).flip.imp fun _ _ hrs => ⟨hrs.template.symm,hrs.references.flip⟩
  unique := ⟨fun _ _ _ hi hj => hR.unique.2 hi hj,fun _ _ _ hi hj => hR.unique.1 hi hj⟩

theorem simulation (hR : Bisimulation g h R) : Simulation g h R :=
  ⟨fun hij _ hr => forall₂_exists (hR.rules hij) hr⟩

theorem fill_eq {σ : Type} {enter enter' : GroupId → σ → Outcome String × σ}
    (he : ∀ i j, R i j → ∀ s, enter i s = enter' j s) {segments : List Segment}
    {ids ids' : List GroupId} (hids : List.Forall₂ R ids ids') (s : σ) :
    fill enter segments ids s = fill enter' segments ids' s := by
  induction segments generalizing ids ids' s with
  | nil => rfl
  | cons segment segments ih =>
    cases segment with
    | literal text => simp only [fill,ih hids]
    | placeholder p =>
      cases hids with
      | nil => rfl
      | cons hij hids =>
        rw [fill,fill,he _ _ hij]
        simp only [ih hids]

theorem expandGroup_eq (hR : Bisimulation g h R) {σ : Type} (strategy : Strategy σ)
    {i j : GroupId} (hij : R i j) (levels depth : Nat) (s : σ) :
    g.expandGroup limit strategy levels depth i s =
      h.expandGroup limit strategy levels depth j s := by
  induction levels generalizing i j depth s with
  | zero => rfl
  | succ levels ih =>
    have hrules := hR.rules hij
    have hempty : (g.group i).rules.isEmpty = (h.group j).rules.isEmpty := by
      rw [Bool.eq_iff_iff,List.isEmpty_iff_length_eq_zero,List.isEmpty_iff_length_eq_zero,
        hrules.length_eq]
    rw [expandGroup,expandGroup,hR.name hij]
    dsimp only
    rw [hempty,hrules.length_eq]
    cases exceeded? limit depth with
    | some n => rfl
    | none =>
      dsimp only
      split
      · rfl
      · rcases forall₂_getElem? hrules
          ((strategy.choose s (h.group j).rules.length).1 % (h.group j).rules.length) with
          ⟨hr,hs⟩ | ⟨r,r',hr,hs,hrr⟩
        · simp only [hr,hs]
        · simp only [hr,hs]
          rw [hrr.template]
          exact fill_eq (R:=R) (fun _ _ hij s => ih hij (depth + 1) s) hrr.references _

theorem combine_eq {enter enter' : GroupId → Outcome (List String)}
    (he : ∀ i j, R i j → enter i = enter' j) (cap : Nat) {segments : List Segment}
    {ids ids' : List GroupId} (hids : List.Forall₂ R ids ids') (texts : List String) :
    combine enter cap segments ids texts = combine enter' cap segments ids' texts := by
  induction segments generalizing ids ids' texts with
  | nil => rfl
  | cons segment segments ih =>
    cases segment with
    | literal text => exact ih hids _
    | placeholder p =>
      cases hids with
      | nil => rfl
      | cons hij hids =>
        rw [combine,combine,he _ _ hij]
        simp only [ih hids]

theorem gather_eq {list list' : Nat → Rule → Outcome (List String)}
    (hl : ∀ (cap : Nat) {r s : Rule}, Rule.Corresponds R r s → list cap r = list' cap s)
    {rules rules' : List Rule} (hrules : List.Forall₂ (Rule.Corresponds R) rules rules')
    (cap : Nat) : gather list cap rules = gather list' cap rules' := by
  induction hrules generalizing cap with
  | nil => rfl
  | cons hrs _ ih =>
    rw [gather,gather,hl cap hrs]
    simp only [ih]

theorem enumerateGroup_eq (hR : Bisimulation g h R) {i j : GroupId} (hij : R i j)
    (levels depth cap : Nat) : g.enumerateGroup limit levels depth cap i =
      h.enumerateGroup limit levels depth cap j := by
  induction levels generalizing i j depth cap with
  | zero => rfl
  | succ levels ih =>
    rw [enumerateGroup,enumerateGroup,hR.name hij]
    cases exceeded? limit depth with
    | some n => rfl
    | none =>
      refine gather_eq (fun cap r s hrs => ?_) (hR.rules hij) cap
      rw [hrs.template]
      exact combine_eq (R:=R) (fun _ _ hij => ih hij (depth + 1) cap) cap hrs.references _

theorem transGen_iff (hR : Bisimulation g h R) (hg : g.WellFormed) (hh : h.WellFormed)
    {i j : GroupId} (hij : R i j) : TransGen g.DependsOn i i ↔ TransGen h.DependsOn j j :=
  ⟨hR.simulation.transGen hR.unique.2 hg hh hij,
    hR.symm.simulation.transGen hR.symm.unique.2 hh hg hij⟩

theorem cycleFree_iff (hR : Bisimulation g h R) (hg : g.WellFormed) (hh : h.WellFormed)
    {i j : GroupId} (hij : R i j) : g.CycleFree i ↔ h.CycleFree j :=
  ⟨hR.symm.simulation.cycleFree hR.symm.unique.2 hh hg hij,
    hR.simulation.cycleFree hR.unique.2 hg hh hij⟩

theorem yields_iff (hR : Bisimulation g h R) (hg : g.WellFormed) (hh : h.WellFormed)
    {i j : GroupId} (hi : i < g.size) (hj : j < h.size) (hij : R i j) {script : List Nat}
    {text : String} : g.Yields limit (g.group i).name script text ↔
      h.Yields limit (h.group j).name script text := by
  simp only [Yields,expand,hg.idOf?_name hi,hh.idOf?_name hj,hR.expandGroup_eq _ hij]

/-- Counts agree because the scripts that they count are the same. -/
theorem total_tally_eq (hR : Bisimulation g h R) (hg : g.WellFormed) (hh : h.WellFormed)
    {i j : GroupId} (hi : i < g.size) (hj : j < h.size) (hij : R i j) (hfree : g.CycleFree i) :
    g.tally.total i = h.tally.total j := by
  have hfree' := (hR.cycleFree_iff hg hh hij).mp hfree
  have hscripts := encard_scripts hg hi hfree
  simp only [hR.yields_iff hg hh hi hj hij,encard_scripts hh hj hfree'] at hscripts
  rw [total_tally hg hi hfree,total_tally hh hj hfree']
  exact_mod_cast hscripts.symm

theorem counts_tally_eq (hR : Bisimulation g h R) (hg : g.WellFormed) (hh : h.WellFormed)
    {i j : GroupId} (hi : i < g.size) (hj : j < h.size) (hij : R i j) (hfree : g.CycleFree i) :
    g.tally.counts i = h.tally.counts j := by
  have hfree' := (hR.cycleFree_iff hg hh hij).mp hfree
  rw [counts_tally_ways hg hi hfree,counts_tally_ways hh hj hfree']
  refine map_eq_map_of_forall₂ (hR.rules hij) fun r hr s hs hrs => ?_
  rw [ruleCount,ruleCount]
  congr 1
  refine map_eq_map_of_forall₂ hrs.references fun m hm n hn hmn => ?_
  have hd := hg.dependsOn_of_mem hr hm
  have hd' := hh.dependsOn_of_mem hs hn
  have hlt := hg.lt_size_of_dependsOn hd
  have hlt' := hh.lt_size_of_dependsOn hd'
  have htotal := hR.total_tally_eq hg hh hlt hlt' hmn (hfree.of_dependsOn hd)
  rwa [total_tally hg hlt (hfree.of_dependsOn hd),
    total_tally hh hlt' (hfree'.of_dependsOn hd')] at htotal

end Bisimulation

end Graph

end PhraseGrammar
