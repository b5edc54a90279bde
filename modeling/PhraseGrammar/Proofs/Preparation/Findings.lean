import PhraseGrammar.Proofs.Lint
import PhraseGrammar.Proofs.Preparation

/-! Preparation keeps exactly the groups that the root leads to, and lint finds the same in these as
before. In bisimilar graphs whose roots correspond, what is reached from one root corresponds one to
one to what is reached from the other, though in another order. -/
namespace PhraseGrammar

open Relation

/-- The finding says that a group is out of reach. -/
def Lint.Finding.isUnreachable : Lint.Finding → Bool
  | .unreachable _ _ => true
  | .noRoot _ | .noRules _ | .endless _ | .recursive _ | .repeated _ _ => false

/-- The findings of another kind. -/
def Lint.kept (findings : List Lint.Finding) : List Lint.Finding :=
  findings.filter (!·.isUnreachable)

theorem Lint.errors_kept (findings : List Lint.Finding) :
    Lint.errors (Lint.kept findings) = Lint.errors findings := by
  rw [Lint.errors,Lint.errors,Lint.kept,List.filter_filter]
  refine List.filter_congr fun finding _ => ?_
  cases finding <;> rfl

theorem Lint.warnings_kept (findings : List Lint.Finding) :
    Lint.warnings (Lint.kept findings) = Lint.kept (Lint.warnings findings) := by
  simp only [Lint.warnings,Lint.kept,List.filter_filter,Bool.and_comm]

namespace Graph

variable {g h : Graph} {R : GroupId → GroupId → Prop} {root : String} {r r' : GroupId}

theorem Surveys.kept_findingsOf {s : Lint.Survey} (hs : g.Surveys root r s) (id : GroupId) :
    Lint.kept (Lint.findingsOf s (g.group id) id) =
      if s.reachable.getD id false then Lint.findingsOf s (g.group id) id else [] := by
  split
  · rename_i hmark
    have hr := (hs.reachable id).mp hmark
    refine List.filter_eq_self.mpr fun finding hfinding => ?_
    cases hs.reports hfinding with
    | unreachable hout => exact absurd hr hout
    | _ => rfl
  · rename_i hmark
    have hout := mt (hs.reachable id).mpr hmark
    refine List.filter_eq_nil_iff.mpr fun finding hfinding => ?_
    cases hs.reports hfinding with
    | unreachable => exact fun hfalse => Bool.noConfusion hfalse
    | noRules hr => exact absurd hr hout
    | endless hr => exact absurd hr hout
    | recursive hr => exact absurd hr hout
    | repeated hr => exact absurd hr hout

/-- The groups that a group leads to, in graph order. -/
def reachedFrom (g : Graph) (r : GroupId) : List GroupId :=
  (List.range g.size).filter fun id => (g.reachableFrom r).getD id false

theorem mem_reachedFrom (hg : g.WellFormed) (hlt : r < g.size) {id : GroupId} :
    id ∈ g.reachedFrom r ↔ ReflTransGen g.DependsOn r id := by
  rw [reachedFrom,List.mem_filter,List.mem_range,getD_reachableFrom hg hlt]
  exact ⟨And.right,fun hr => ⟨hg.lt_size_of_reflTransGen hlt hr,hr⟩⟩

theorem nodup_reachedFrom (g : Graph) (r : GroupId) : (g.reachedFrom r).Nodup :=
  List.nodup_range.filter _

theorem kept_lint (hg : g.WellFormed) (hroot : g.idOf? root = some r) :
    Lint.kept (lint g root) = (g.reachedFrom r).flatMap fun id =>
      Lint.findingsOf (Lint.survey g root r) (g.group id) id := by
  have hs : g.Surveys root r (Lint.survey g root r) :=
    surveys_survey hg (lt_size_of_idOf? hroot)
  simp only [lint,hroot]
  rw [Lint.kept,List.filter_flatMap,reachedFrom,← flatMap_ite]
  exact List.flatMap_congr fun id _ => hs.kept_findingsOf id

namespace Bisimulation

theorem hasExpansion_iff (hR : Bisimulation g h R) (hg : g.WellFormed) (hh : h.WellFormed)
    {i j : GroupId} (hi : i < g.size) (hj : j < h.size) (hij : R i j) :
    g.HasExpansion i ↔ h.HasExpansion j := by
  rw [Graph.hasExpansion_iff hg hi,Graph.hasExpansion_iff hh hj]
  simp only [hR.yields_iff hg hh hi hj hij]

/-- Where both are reached, groups that correspond have the same findings. -/
theorem findingsOf_eq (hR : Bisimulation g h R) (hg : g.WellFormed) (hh : h.WellFormed)
    (hr : r < g.size) (hr' : r' < h.size) {i j : GroupId} (hi : ReflTransGen g.DependsOn r i)
    (hj : ReflTransGen h.DependsOn r' j) (hij : R i j) :
    Lint.findingsOf (Lint.survey g root r) (g.group i) i =
      Lint.findingsOf (Lint.survey h root r') (h.group j) j := by
  have hs : g.Surveys root r (Lint.survey g root r) := surveys_survey hg hr
  have hs' : h.Surveys root r' (Lint.survey h root r') := surveys_survey hh hr'
  have hlt := hg.lt_size_of_reflTransGen hr hi
  have hlt' := hh.lt_size_of_reflTransGen hr' hj
  have hsources : (g.group i).sources = (h.group j).sources :=
    map_eq_map_of_forall₂ (hR.rules hij) fun _ _ _ _ hrules => hrules.source_eq
  have hempty : (g.group i).rules.isEmpty = (h.group j).rules.isEmpty := by
    rw [Bool.eq_iff_iff,List.isEmpty_iff_length_eq_zero,List.isEmpty_iff_length_eq_zero,
      (hR.rules hij).length_eq]
  have hproductive : (Lint.survey g root r).productive.getD i false =
      (Lint.survey h root r').productive.getD j false := by
    rw [Bool.eq_iff_iff,hs.productive,hs'.productive]
    exact hR.hasExpansion_iff hg hh hlt hlt' hij
  have hrecursive : (Lint.survey g root r).recursive.getD i false =
      (Lint.survey h root r').recursive.getD j false := by
    rw [Bool.eq_iff_iff,hs.recursive,hs'.recursive]
    exact hR.transGen_iff hg hh hij
  rw [Lint.findingsOf,Lint.findingsOf,if_pos ((hs.reachable i).mpr hi),
    if_pos ((hs'.reachable j).mpr hj),hR.name hij,hempty,hproductive,hrecursive,hsources]

theorem lint_perm (hR : Bisimulation g h R) (hg : g.WellFormed) (hh : h.WellFormed)
    (hroot : g.idOf? root = some r) (hroot' : h.idOf? root = some r') (hrr : R r r') :
    (Lint.kept (lint g root)).Perm (Lint.kept (lint h root)) := by
  have hr := lt_size_of_idOf? hroot
  have hr' := lt_size_of_idOf? hroot'
  rw [kept_lint hg hroot,kept_lint hh hroot']
  refine flatMap_perm hR.unique (nodup_reachedFrom g r) (nodup_reachedFrom h r') (fun i hi => ?_)
    fun j hj => ?_
  · have hi := (mem_reachedFrom hg hr).mp hi
    obtain ⟨j,hj,hij⟩ := hR.simulation.exists_reflTransGen hg hh hrr hi
    exact ⟨j,(mem_reachedFrom hh hr').mpr hj,hij,hR.findingsOf_eq hg hh hr hr' hi hj hij⟩
  · have hj := (mem_reachedFrom hh hr').mp hj
    obtain ⟨i,hi,hij⟩ := hR.symm.simulation.exists_reflTransGen hh hg hrr hj
    exact ⟨i,(mem_reachedFrom hg hr).mpr hi,hij⟩

end Bisimulation

end Graph

namespace Grammar

open PhraseGrammar.Graph

variable {g p : Grammar} {G P : Graph} {root : String} {r : GroupId}

/-- The names of the groups that a group leads to. -/
def namesFrom (G : Graph) (r : GroupId) : List String :=
  (G.reachedFrom r).map fun id => (G.group id).name

theorem closed_namesFrom_of_build (h : Graph.build g false = .ok G) (hr : r < G.size) :
    g.Closed (namesFrom G r) := by
  have hG := (reached_of_build h).wellFormed
  intro name hname
  obtain ⟨id,hid,rfl⟩ := List.mem_map.mp hname
  have hid := (mem_reachedFrom hG hr).mp hid
  obtain ⟨rules,symbols,hresolve,hm,hs⟩ :=
    resolves_of_build h (hG.lt_size_of_reflTransGen hr hid)
  refine ⟨rules,symbols,hresolve,hm,fun symbol hsymbol => ?_⟩
  obtain ⟨other,hd,hname⟩ := hs symbol hsymbol
  exact List.mem_map.mpr
    ⟨other,(mem_reachedFrom hG hr).mpr (hid.tail hd),(getElem?_names.mp hname).2⟩

theorem prepareFrom_reached (h : Graph.build g false = .ok G) (hroot : G.idOf? root = some r) :
    ∃ p P r', g.prepareFrom root = .ok p ∧ Graph.build p false = .ok P ∧
      Bisimulation P G (SameName P G) ∧ P.idOf? root = some r' ∧ SameName P G r' r ∧
      ∀ i < P.size, ReflTransGen P.DependsOn r' i := by
  have hG := (reached_of_build h).wellFormed
  obtain ⟨hr,hname⟩ := getElem?_names.mp (getElem?_names_of_idOf? hroot)
  have hmem : root ∈ namesFrom G r :=
    List.mem_map.mpr ⟨r,(mem_reachedFrom hG hr).mpr .refl,hname⟩
  obtain ⟨p,hp,hprepares,hrootp⟩ := prepareFrom_prepares (closed_namesFrom_of_build h hr) hmem
  obtain ⟨P,hP,-,hnames⟩ := hprepares.build
  have hPwf := (reached_of_build hP).wellFormed
  have hR := hprepares.bisimulation h hP hnames
  obtain ⟨r',hr'⟩ := List.mem_iff_getElem?.mp ((hnames root).mpr hrootp)
  have hrr : SameName P G r' r := ⟨root,hr',getElem?_names_of_idOf? hroot⟩
  refine ⟨p,P,r',hp,hP,hR,hPwf.idOf?_eq_some.mpr hr',hrr,fun i hi => ?_⟩
  have hi : P.names[i]? = some (P.group i).name := getElem?_names.mpr ⟨hi,rfl⟩
  obtain ⟨j,hj,hji⟩ := List.mem_map.mp
    (hprepares.known _ (.inl ((hnames _).mp (List.mem_of_getElem? hi))))
  have hj := (mem_reachedFrom hG hr).mp hj
  have hij : SameName P G i j :=
    ⟨_,hi,getElem?_names.mpr ⟨hG.lt_size_of_reflTransGen hr hj,hji⟩⟩
  obtain ⟨i',hi',hij'⟩ := hR.symm.simulation.exists_reflTransGen hG hPwf hrr hj
  exact hR.unique.1 hij' hij ▸ hi'

theorem kept_lint_of_reached (hP : P.WellFormed) (hroot : P.idOf? root = some r)
    (hall : ∀ i < P.size, ReflTransGen P.DependsOn r i) :
    Lint.kept (lint P root) = lint P root := by
  refine List.filter_eq_self.mpr fun finding hfinding => ?_
  obtain ⟨id,hlt,hreport⟩ := (mem_lint hP hroot).mp hfinding
  cases hreport with
  | unreachable hout => exact absurd (hall id hlt) hout
  | _ => rfl

/-- From any group of a built graph, lint finds in the prepared grammar what it finds in the
original one, counted as often, except for groups that are out of reach. There are none of these in
the prepared grammar. -/
theorem prepareFrom_lint (h : Graph.build g false = .ok G) (hroot : root ∈ G.names) : ∃ p P,
    g.prepareFrom root = .ok p ∧ Graph.build p false = .ok P ∧
    (Lint.errors (lint P root)).Perm (Lint.errors (lint G root)) ∧
    (Lint.warnings (lint P root)).Perm
      ((Lint.warnings (lint G root)).filter (!·.isUnreachable)) ∧
    ∀ finding ∈ lint P root, finding.isUnreachable = false := by
  have hG := (reached_of_build h).wellFormed
  obtain ⟨r,hr⟩ := List.mem_iff_getElem?.mp hroot
  have hr := hG.idOf?_eq_some.mpr hr
  obtain ⟨p,P,r',hp,hP,hR,hr',hrr,hall⟩ := prepareFrom_reached h hr
  have hPwf := (reached_of_build hP).wellFormed
  have hkept := kept_lint_of_reached hPwf hr' hall
  have hperm := hR.lint_perm hPwf hG hr' hr hrr
  rw [hkept] at hperm
  refine ⟨p,P,hp,hP,?_,?_,fun finding hfinding => ?_⟩
  · rw [← Lint.errors_kept (lint G root)]
    exact hperm.filter _
  · rw [← Lint.kept,← Lint.warnings_kept]
    exact hperm.filter _
  · rw [← hkept] at hfinding
    simpa using (List.mem_filter.mp hfinding).2

/-- A finding of each kind, a rule that is there twice, and a group that is lost. -/
def kennel : Grammar :=
  ⟨[("lost",.flat ["#lost#"]),("origin",.flat ["#dog_fem# #bark#","#pit#","#dog_fem# #bark#"]),
    ("dog",.gendered ⟨none,some [],none⟩),("bark",.flat ["woof","woof #bark#"]),
    ("pit",.flat ["#pit#"])],[]⟩

def kennelGraph : Graph := (Graph.build kennel false).toOption.get (by decide +kernel)

theorem prepareFrom_lint_kennel :
    Graph.build kennel false = .ok kennelGraph ∧ "origin" ∈ kennelGraph.names ∧
    .unreachable "lost" "origin" ∈ Lint.warnings (lint kennelGraph "origin") ∧ ∃ p P,
      kennel.prepareFrom "origin" = .ok p ∧ Graph.build p false = .ok P ∧
      (Lint.errors (lint P "origin")).Perm [.endless "origin",.noRules "dog_fem",.endless "pit"] ∧
      (Lint.warnings (lint P "origin")).Perm
        [.repeated "origin" "#dog_fem# #bark#",.recursive "bark"] ∧
      ∀ finding ∈ lint P "origin", finding.isUnreachable = false := by
  have hbuild : Graph.build kennel false = .ok kennelGraph := by
    have hsome : (Graph.build kennel false).toOption = some kennelGraph := by simp [kennelGraph]
    cases h : Graph.build kennel false with
    | ok G =>
      rw [h] at hsome
      exact congrArg Except.ok (Option.some.inj hsome)
    | error e =>
      rw [h] at hsome
      cases hsome
  have hroot : kennelGraph.idOf? "origin" = some 1 := by decide +kernel
  have hmem : "origin" ∈ kennelGraph.names := List.mem_of_getElem? (getElem?_names_of_idOf? hroot)
  have hdependencies : kennelGraph.groups.map Group.dependencies =
      [[0],[2,3,4],[],[3],[4],[]] := by decide +kernel
  have hsize : kennelGraph.size = 6 := by simpa [size] using congrArg List.length hdependencies
  have hgroup (id : GroupId) : (kennelGraph.group id).dependencies =
      [[0],[2,3,4],[],[3],[4],[]].getD id [] := by
    rw [← hdependencies]
    exact (List.getD_map _ (.pending "") Group.dependencies).symm
  have hmarks : kennelGraph.reachableFrom 1 = [false,true,true,true,true,false] := by
    simp [reachableFrom,sweep,hsize,hgroup]
  have hlint : lint kennelGraph "origin" = [.unreachable "lost" "origin",.endless "origin",
      .repeated "origin" "#dog_fem# #bark#",.noRules "dog_fem",.recursive "bark",
      .endless "pit"] := by
    rw [lint_eq hroot hmarks]
    decide +kernel
  obtain ⟨p,P,hp,hP,herrors,hwarnings,hreached⟩ := prepareFrom_lint hbuild hmem
  rw [hlint] at herrors hwarnings
  refine ⟨hbuild,hmem,?_,p,P,hp,hP,herrors,hwarnings,hreached⟩
  rw [hlint]
  decide

end Grammar

end PhraseGrammar
