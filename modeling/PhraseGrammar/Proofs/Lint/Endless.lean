import PhraseGrammar.Proofs.Graph.Build
import PhraseGrammar.Proofs.Lint

/-! Groups that are reported for want of an expansion that ends. Along groups without one, each of
them leads to a cycle or to a group without rules. Only in the first case is there anything endless
about it; where a group leads to no cycle, its expansions all end, and fail at a group without
rules. -/
namespace PhraseGrammar

namespace Graph

open Relation

variable {σ : Type} {g : Graph} {root : String} {r : GroupId}

/-- Below a bound, edges lead from anywhere to a cycle or to where there is no edge. -/
theorem exists_cycle_or_sink {R : GroupId → GroupId → Prop} {n : Nat}
    (hlt : ∀ i j, R i j → j < n) (i : GroupId) :
    ∃ j, ReflTransGen R i j ∧ (TransGen R j j ∨ ∀ k, ¬ R j k) := by
  classical
  induction hcard : ((Finset.range n).filter (TransGen R i)).card using Nat.strong_induction_on
    generalizing i with
  | _ card ih =>
    by_cases hsink : ∀ k, ¬ R i k
    · exact ⟨i,.refl,.inr hsink⟩
    obtain ⟨k,hk⟩ : ∃ k, R i k := by simpa using hsink
    by_cases hcycle : TransGen R k k
    · exact ⟨k,.single hk,.inl hcycle⟩
    have hfewer : (Finset.range n).filter (TransGen R k) ⊂ (Finset.range n).filter (TransGen R i) := by
      refine Finset.ssubset_iff_of_subset ?_ |>.mpr ⟨k,?_,?_⟩
      · exact Finset.monotone_filter_right _ fun j _ hj => TransGen.head hk hj
      · simpa using ⟨hlt i k hk,TransGen.single hk⟩
      · simp [hcycle]
    obtain ⟨j,hj,hend⟩ := ih _ (hcard ▸ Finset.card_lt_card hfewer) k rfl
    exact ⟨j,.head hk hj,hend⟩

def StuckOn (g : Graph) (id other : GroupId) : Prop := g.DependsOn id other ∧ ¬ g.HasExpansion other

theorem exists_stuckOn (hg : g.WellFormed) {id : GroupId} (hno : ¬ g.HasExpansion id)
    (hrules : (g.group id).rules ≠ []) : ∃ other, g.StuckOn id other := by
  obtain ⟨rule,hrule⟩ := List.exists_mem_of_ne_nil _ hrules
  by_contra hnone
  refine hno (.of_rule hg hrule fun other hother => ?_)
  by_contra hstuck
  exact hnone ⟨other,hg.dependsOn_of_mem hrule hother,hstuck⟩

/-- A group without an expansion leads, by way of such groups, to a cycle of them or to one that has
no rules. -/
theorem exists_cycle_or_empty (hg : g.WellFormed) {id : GroupId} (hno : ¬ g.HasExpansion id) :
    ∃ other, ReflTransGen g.StuckOn id other ∧ ¬ g.HasExpansion other ∧
      (TransGen g.StuckOn other other ∨ (g.group other).rules = []) := by
  have hlt : ∀ i j, g.StuckOn i j → j < g.size := fun _ _ h => hg.lt_size_of_dependsOn h.1
  obtain ⟨other,hr,hend⟩ := exists_cycle_or_sink hlt id
  have hother : ¬ g.HasExpansion other := by
    rcases ReflTransGen.cases_tail hr with rfl | ⟨_,-,hstuck⟩
    · exact hno
    · exact hstuck.2
  refine ⟨other,hr,hother,hend.imp_right fun hsink => ?_⟩
  by_contra hrules
  obtain ⟨next,hnext⟩ := exists_stuckOn hg hother hrules
  exact hsink next hnext

theorem fill_ends {enter : GroupId → σ → Outcome String × σ} {ids : List GroupId}
    (h : ∀ id ∈ ids, ∀ s, (enter id s).1 ≠ .unfinished) (segments : List Segment) (s : σ) :
    (fill enter segments ids s).1 ≠ .unfinished := by
  induction segments generalizing ids s with
  | nil => simp [fill]
  | cons segment segments ih =>
    cases segment with
    | literal text =>
      have hrest := ih h s
      rw [fill]
      cases hr : (fill enter segments ids s).1 with
      | unfinished => exact absurd hr hrest
      | done rest => simp [hr]
      | failed e => simp [hr]
    | placeholder p =>
      cases ids with
      | nil => simp [fill]
      | cons id ids =>
        have hid := h id List.mem_cons_self s
        rw [fill]
        rcases he : enter id s with ⟨text | e | _,t⟩
        · have hrest := ih (fun r hr => h r (List.mem_cons_of_mem id hr)) t
          cases hr : (fill enter segments ids t).1 with
          | unfinished => exact absurd hr hrest
          | done rest => simp [hr]
          | failed e => simp [hr]
        · simp
        · exact absurd (congrArg Prod.fst he) hid

theorem expandGroup_ends (hg : g.WellFormed) {id : GroupId} (hlt : id < g.size)
    (hfree : g.CycleFree id) (limit : Option Nat) (strategy : Strategy σ) {levels : Nat}
    (hlevels : g.rank id ≤ levels) (depth : Nat) (s : σ) :
    (g.expandGroup limit strategy levels depth id s).1 ≠ .unfinished := by
  induction levels generalizing depth id s with
  | zero => exact absurd (rank_pos hlt) (Nat.not_lt.mpr hlevels)
  | succ levels ih =>
    rcases expandGroup_cases (g:=g) limit strategy levels depth id s with
      ⟨n,-,he⟩ | ⟨-,he⟩ | ⟨rule,hrule,he⟩
    · simp [he]
    · simp [he]
    · rw [he]
      refine fill_ends (fun r hr t => ?_) _ _
      have hd := hg.dependsOn_of_mem hrule hr
      have hrank := hfree.rank_lt hd
      exact ih (hg.lt_size_of_dependsOn hd) (hfree.of_dependsOn hd) (by omega) _ t

theorem expandGroup_empty (hg : g.WellFormed) {id : GroupId} (hlt : id < g.size)
    (hfree : g.CycleFree id) (hno : ¬ g.HasExpansion id) (strategy : Strategy σ) {levels : Nat}
    (hlevels : g.rank id ≤ levels) (s : σ) :
    ∃ other, ReflTransGen g.DependsOn id other ∧ (g.group other).rules = [] ∧
      (g.expandGroup none strategy levels 0 id s).1 = .failed (.emptyGroup (g.group other).name) := by
  rcases hrun : g.expandGroup none strategy levels 0 id s with ⟨text | e | _,s'⟩
  · obtain ⟨script,hd⟩ := exists_derivation_of_expandGroup hrun
    exact absurd ⟨levels,List.ne_nil_of_mem hd⟩ hno
  · cases mayFail_of_expandGroup hg hrun with
    | empty hr hrules => exact ⟨_,hr,hrules,rfl⟩
    | cut _ hlimit => cases hlimit
  · exact absurd (congrArg Prod.fst hrun)
      (expandGroup_ends hg hlt hfree none strategy hlevels 0 s)

theorem exists_of_endless_mem_lint (hg : g.WellFormed) {name : String}
    (h : .endless name ∈ lint g root) :
    ∃ r id, g.idOf? root = some r ∧ g.names[id]? = some name ∧ ReflTransGen g.DependsOn r id ∧
      ¬ g.HasExpansion id := by
  rcases hroot : g.idOf? root with _ | r
  · simp [lint,hroot] at h
  · obtain ⟨id,hlt,hreport⟩ := (mem_lint hg hroot).mp h
    cases hreport with
    | endless hr _ hno => exact ⟨r,id,rfl,getElem?_names.mpr ⟨hlt,rfl⟩,hr,hno⟩

theorem noRules_mem_lint (hg : g.WellFormed) (hroot : g.idOf? root = some r) {id : GroupId}
    (hr : ReflTransGen g.DependsOn r id) (hrules : (g.group id).rules = []) :
    .noRules (g.group id).name ∈ lint g root := by
  have hlt := hg.lt_size_of_reflTransGen (lt_size_of_idOf? hroot) hr
  exact (mem_lint hg hroot).mpr ⟨id,hlt,.noRules hr hrules⟩

/-- A group that is reported as endless leads, by way of groups without an expansion, to a cycle of
such groups or to a group that is reported to have no rules. So it leads to a cycle wherever no
group is reported to have no rules; and where it leads to no cycle, all its expansions end, each of
them at a group that is reported to have no rules. -/
theorem endless_stuck (hg : g.Reached) (root : String) :
    (∀ name, .endless name ∈ lint g root → ∃ id other, g.names[id]? = some name ∧
      ReflTransGen g.StuckOn id other ∧
      (TransGen g.StuckOn other other ∨ .noRules (g.group other).name ∈ lint g root)) ∧
    ((∀ name, .noRules name ∉ lint g root) →
      ∀ name, .endless name ∈ lint g root → ∃ id other, g.names[id]? = some name ∧
        ReflTransGen g.DependsOn id other ∧ TransGen g.DependsOn other other) ∧
    ∀ name id, .endless name ∈ lint g root → g.names[id]? = some name → g.CycleFree id →
      ∀ {σ : Type} (strategy : Strategy σ) (levels : Nat) (s : σ), g.size ≤ levels →
        ∃ other, ReflTransGen g.DependsOn id other ∧
          .noRules (g.group other).name ∈ lint g root ∧
          (g.expand none levels strategy name s).1 =
            .failed (.emptyGroup (g.group other).name) := by
  have hwf := hg.wellFormed
  have hdepends : ∀ i j, g.StuckOn i j → g.DependsOn i j := fun _ _ h => h.1
  have hstuck : ∀ name, .endless name ∈ lint g root → ∃ id other, g.names[id]? = some name ∧
      ReflTransGen g.StuckOn id other ∧
      (TransGen g.StuckOn other other ∨ .noRules (g.group other).name ∈ lint g root) := by
    intro name h
    obtain ⟨r,id,hroot,hname,hr,hno⟩ := exists_of_endless_mem_lint hwf h
    obtain ⟨other,hother,-,hend⟩ := exists_cycle_or_empty hwf hno
    refine ⟨id,other,hname,hother,hend.imp_right fun hrules => ?_⟩
    exact noRules_mem_lint hwf hroot (hr.trans (ReflTransGen.mono hdepends _ _ hother)) hrules
  refine ⟨hstuck,fun hnone name h => ?_,fun name id h hname hfree σ strategy levels s hlevels => ?_⟩
  · obtain ⟨id,other,hname,hother,hcycle | hrules⟩ := hstuck name h
    · exact ⟨id,other,hname,ReflTransGen.mono hdepends _ _ hother,
        TransGen.mono hdepends _ _ hcycle⟩
    · exact absurd hrules (hnone _)
  · obtain ⟨r,id',hroot,hname',hr,hno⟩ := exists_of_endless_mem_lint hwf h
    have hid := hwf.idOf?_eq_some.mpr hname
    obtain rfl : id = id' := Option.some.inj (hid.symm.trans (hwf.idOf?_eq_some.mpr hname'))
    obtain ⟨other,hother,hrules,hrun⟩ := expandGroup_empty hwf (lt_size_of_getElem?_names hname)
      hfree hno strategy ((rank_le_size g id).trans hlevels) s
    refine ⟨other,hother,noRules_mem_lint hwf hroot (hr.trans hother) hrules,?_⟩
    rw [expand,hid]
    exact hrun

/-- Its first group mentions nothing but one that has no rules. -/
def barren : Grammar := ⟨[("origin",.flat ["#void#"]),("void",.flat [])],[]⟩

def barrenGraph : Graph := (build barren false).toOption.get (by decide +kernel)

theorem build_barren : build barren false = .ok barrenGraph := eq_ok_get_toOption _

theorem dependencies_barrenGraph (id : GroupId) :
    (barrenGraph.group id).dependencies = [[1],[]].getD id [] := by
  have hdependencies : barrenGraph.groups.map Group.dependencies = [[1],[]] := by decide +kernel
  rw [← hdependencies]
  exact (List.getD_map _ (.pending "") Group.dependencies).symm

theorem lint_barrenGraph : lint barrenGraph "origin" = [.endless "origin",.noRules "void"] := by
  have hroot : barrenGraph.idOf? "origin" = some 0 := by decide +kernel
  have hsize : barrenGraph.size = 2 := by decide +kernel
  have hmarks : barrenGraph.reachableFrom 0 = [true,true] := by
    simp [reachableFrom,sweep,hsize,dependencies_barrenGraph]
  rw [lint_eq hroot hmarks]
  decide +kernel

theorem cycleFree_barrenGraph : barrenGraph.CycleFree 0 := by
  refine cycleFree_of_increasing [0,1] (by simp) fun i hi j hj => ?_
  rw [dependencies_barrenGraph] at hj
  rcases List.mem_pair.mp hi with rfl | rfl
  · obtain rfl := List.mem_singleton.mp hj
    decide
  · cases hj

theorem endless_stuck_barren :
    barrenGraph.Reached ∧ lint barrenGraph "origin" = [.endless "origin",.noRules "void"] ∧
    barrenGraph.names[0]? = some "origin" ∧ barrenGraph.CycleFree 0 ∧
    (∃ id other, barrenGraph.names[id]? = some "origin" ∧
      ReflTransGen barrenGraph.StuckOn id other ∧
      (TransGen barrenGraph.StuckOn other other ∨
        .noRules (barrenGraph.group other).name ∈ lint barrenGraph "origin")) ∧
    ∃ other, ReflTransGen barrenGraph.DependsOn 0 other ∧
      .noRules (barrenGraph.group other).name ∈ lint barrenGraph "origin" ∧
      (barrenGraph.expand none 2 .first "origin" ()).1 =
        .failed (.emptyGroup (barrenGraph.group other).name) := by
  have hreached := reached_of_build build_barren
  have hname : barrenGraph.names[0]? = some "origin" := by decide +kernel
  have hendless : .endless "origin" ∈ lint barrenGraph "origin" := by
    rw [lint_barrenGraph]
    decide
  obtain ⟨hstuck,-,hends⟩ := endless_stuck hreached "origin"
  exact ⟨hreached,lint_barrenGraph,hname,cycleFree_barrenGraph,hstuck _ hendless,
    hends _ 0 hendless hname cycleFree_barrenGraph .first 2 () (by decide +kernel)⟩

/-- Not every group that is reported as endless leads to a cycle. -/
theorem not_all_endless_recur : ¬ ∀ (grammar : Grammar) (dedup : Bool) (G : Graph)
    (root name : String), build grammar dedup = .ok G → .endless name ∈ lint G root →
      ∃ id other, G.names[id]? = some name ∧ ReflTransGen G.DependsOn id other ∧
        TransGen G.DependsOn other other := by
  intro h
  have hendless : .endless "origin" ∈ lint barrenGraph "origin" := by
    rw [lint_barrenGraph]
    decide
  obtain ⟨id,other,hname,hother,hcycle⟩ := h barren false _ "origin" "origin" build_barren hendless
  have hid := (reached_of_build build_barren).wellFormed.idOf?_eq_some.mpr hname
  obtain rfl : 0 = id := Option.some.inj ((by decide +kernel :
    barrenGraph.idOf? "origin" = some 0).symm.trans hid)
  exact cycleFree_barrenGraph other hother hcycle

end Graph

end PhraseGrammar
