import PhraseGrammar.Proofs.Dedup
import PhraseGrammar.Proofs.Graph.Derived
import PhraseGrammar.Proofs.Lint
import PhraseGrammar.Proofs.Lint.Repeats

/-! All that lint says about each group of a built graph. The findings come group by group. A group
out of reach has one finding or none; a group within reach has at most one about its expansions, and
then one for each rule that stands in it more than once. -/
namespace PhraseGrammar

open Relation

def Lint.about (name : String) (findings : List Lint.Finding) : List Lint.Finding :=
  findings.filter fun finding => finding.group? = some name

namespace Graph

variable {g : Graph} {root : String} {r id : GroupId}

/-- What is said about the expansions of a group within reach. -/
inductive Standing (g : Graph) (id : GroupId) : List Lint.Finding → Prop
  | noRules (hrules : (g.group id).rules = []) : g.Standing id [.noRules (g.group id).name]
  | endless (hrules : (g.group id).rules ≠ []) (hno : ¬ g.HasExpansion id) :
    g.Standing id [.endless (g.group id).name]
  | recursive (hsome : g.HasExpansion id) (hcycle : TransGen g.DependsOn id id) :
    g.Standing id [.recursive (g.group id).name]
  | sound (hsome : g.HasExpansion id) (hfree : ¬ TransGen g.DependsOn id id) : g.Standing id []

/-- The group is a key that nothing within reach mentions or takes its rules from. -/
def Astray (g : Graph) (r id : GroupId) : Prop :=
  (g.group id).derived = false ∧ ∀ i, ReflTransGen g.DependsOn r i → (g.group i).base ≠ some id

theorem Reports.group?_eq {finding : Lint.Finding} (h : g.Reports root r id finding) :
    finding.group? = some (g.group id).name := by
  cases h <;> rfl

theorem Standing.recursive_mem_iff {standing : List Lint.Finding} (h : g.Standing id standing) :
    .recursive (g.group id).name ∈ standing ↔ TransGen g.DependsOn id id ∧ g.HasExpansion id := by
  cases h with
  | noRules hrules => simpa using fun _ hsome => HasExpansion.rules_ne_nil hsome hrules
  | endless _ hno => simpa using fun _ => hno
  | recursive hsome hcycle => simpa using ⟨hcycle,hsome⟩
  | sound _ hfree => simpa using fun hcycle => absurd hcycle hfree

namespace Surveys

variable {s : Lint.Survey}

theorem findingsOf_reached (hs : g.Surveys root r s) (hr : ReflTransGen g.DependsOn r id) :
    ∃ standing, g.Standing id standing ∧ Lint.findingsOf s (g.group id) id =
      standing ++ (Lint.repeats (g.group id).sources).map (.repeated (g.group id).name) := by
  rw [Lint.findingsOf,if_pos ((hs.reachable id).mpr hr)]
  by_cases hrules : (g.group id).rules = []
  · exact ⟨_,.noRules hrules,by simp [hrules]⟩
  by_cases hsome : g.HasExpansion id
  · have hproductive := (hs.productive id).mpr hsome
    by_cases hcycle : TransGen g.DependsOn id id
    · refine ⟨_,.recursive hsome hcycle,?_⟩
      simp only [List.isEmpty_iff,if_neg hrules,hproductive,(hs.recursive id).mpr hcycle,
        Bool.not_true,Bool.false_eq_true,if_false,if_true]
    · refine ⟨_,.sound hsome hcycle,?_⟩
      have hmark := Bool.eq_false_iff.mpr (mt (hs.recursive id).mp hcycle)
      simp only [List.isEmpty_iff,if_neg hrules,hproductive,hmark,Bool.not_true,
        Bool.false_eq_true,if_false]
  · refine ⟨_,.endless hrules hsome,?_⟩
    have hmark := Bool.eq_false_iff.mpr (mt (hs.productive id).mp hsome)
    simp only [List.isEmpty_iff,if_neg hrules,hmark,Bool.not_false,if_true]

theorem findingsOf_unreached (hs : g.Surveys root r s) (hr : ¬ ReflTransGen g.DependsOn r id) :
    (g.Astray r id → Lint.findingsOf s (g.group id) id = [.unreachable (g.group id).name root]) ∧
    (¬ g.Astray r id → Lint.findingsOf s (g.group id) id = []) := by
  have hkept : ((g.group id).derived || s.bases.contains id) = true ↔ ¬ g.Astray r id := by
    rw [Bool.or_eq_true,hs.bases id,Astray,not_and_or,Bool.not_eq_false]
    simp only [ne_eq,not_forall,not_not,exists_prop]
  rw [Lint.findingsOf,if_neg (mt (hs.reachable id).mp hr),hs.root]
  exact ⟨fun h => if_neg (mt hkept.mp (not_not.mpr h)),fun h => if_pos (hkept.mpr h)⟩

end Surveys

theorem names_eq (g : Graph) : g.names = (List.range g.size).map fun i => (g.group i).name := by
  refine List.ext_getElem? fun i => ?_
  by_cases hlt : i < g.size
  · rw [getElem?_names.mpr ⟨hlt,rfl⟩]
    simp [hlt]
  · simp [Nat.le_of_not_lt hlt]

theorem about_lint (hg : g.WellFormed) (hroot : g.idOf? root = some r) (hlt : id < g.size) :
    Lint.about (g.group id).name (lint g root) =
      Lint.findingsOf (Lint.survey g root r) (g.group id) id := by
  have hs : g.Surveys root r (Lint.survey g root r) := surveys_survey hg (lt_size_of_idOf? hroot)
  have hkey : ∀ i ∈ List.range g.size, ∀ finding ∈
      Lint.findingsOf (Lint.survey g root r) (g.group i) i,
      finding.group? = some (g.group i).name :=
    fun i _ finding hfinding => (hs.reports hfinding).group?_eq
  have hnodup : ((List.range g.size).map fun i => some (g.group i).name).Nodup := by
    have hnames := hg.nodup.map (Option.some_injective _)
    rwa [names_eq,List.map_map] at hnames
  simp only [lint,hroot,Lint.about]
  exact filter_flatMap_of_key hkey hnodup (List.mem_range.mpr hlt)

theorem lint_eq_flatMap_about (hg : g.WellFormed) (hroot : g.idOf? root = some r) :
    lint g root = g.names.flatMap fun name => Lint.about name (lint g root) := by
  rw [names_eq,List.flatMap_map]
  conv_lhs => rw [lint]
  simp only [hroot]
  exact List.flatMap_congr fun i hi => (about_lint hg hroot (List.mem_range.mp hi)).symm

theorem mem_lint_iff_mem_about {finding : Lint.Finding} {name : String}
    (h : finding.group? = some name) {findings : List Lint.Finding} :
    finding ∈ findings ↔ finding ∈ Lint.about name findings := by
  simp [Lint.about,h]

variable {grammar : Grammar} {dedup : Bool} {G : Graph}

theorem astray_iff_of_build (h : build grammar dedup = .ok G) {id : GroupId} (hlt : id < G.size) :
    G.Astray r id ↔ (G.group id).name ∈ grammar.names ∧
      ∀ i, ReflTransGen G.DependsOn r i → (G.group i).base ≠ some id := by
  rw [Astray,derived_eq_false_iff h hlt]

/-- In a built graph, findings come in graph order, warnings among them. A group out of reach is
reported once if it is a key and no base of a group within reach, and not at all otherwise. Of a
group within reach, lint says what there is to say about its expansions, that it is recursive if and
only if it is on a cycle and has some, and then which rules it repeats; there are none of these if
repeated rules are dropped. -/
theorem warnings_exact (h : build grammar dedup = .ok G) (hroot : G.idOf? root = some r) :
    (lint G root = G.names.flatMap fun name => Lint.about name (lint G root)) ∧
    (Lint.warnings (lint G root) =
      G.names.flatMap fun name => Lint.warnings (Lint.about name (lint G root))) ∧
    (dedup = true → ∀ name rule, .repeated name rule ∉ lint G root) ∧
    ∀ id name, G.names[id]? = some name →
      (¬ ReflTransGen G.DependsOn r id →
        ((name ∈ grammar.names ∧ ∀ i, ReflTransGen G.DependsOn r i → (G.group i).base ≠ some id) →
          Lint.about name (lint G root) = [.unreachable name root]) ∧
        (¬ (name ∈ grammar.names ∧
            ∀ i, ReflTransGen G.DependsOn r i → (G.group i).base ≠ some id) →
          Lint.about name (lint G root) = [])) ∧
      (ReflTransGen G.DependsOn r id →
        (.recursive name ∈ lint G root ↔ TransGen G.DependsOn id id ∧ (G.group id).rules ≠ [] ∧
          ∃ script text, G.Yields none name script text) ∧
        ∃ standing repeated, G.Standing id standing ∧
          Lint.Repeated (G.group id).sources repeated ∧
          Lint.about name (lint G root) = standing ++ repeated.map (.repeated name)) := by
  have hwf := (reached_of_build h).wellFormed
  have hs : G.Surveys root r (Lint.survey G root r) := surveys_survey hwf (lt_size_of_idOf? hroot)
  have horder := lint_eq_flatMap_about hwf hroot
  refine ⟨horder,?_,fun hdedup name rule hmem => ?_,fun id name hname => ?_⟩
  · conv_lhs => rw [horder]
    exact List.filter_flatMap
  · obtain ⟨id,-,hreport⟩ := (mem_lint hwf hroot).mp hmem
    cases hreport with
    | repeated _ hrule =>
      rw [(Lint.repeated_repeats _).eq_nil (nodup_sources (hdedup ▸ h) id)] at hrule
      cases hrule
  · obtain ⟨hlt,rfl⟩ := getElem?_names.mp hname
    have habout := about_lint hwf hroot hlt
    refine ⟨fun hr => ?_,fun hr => ?_⟩
    · rw [← astray_iff_of_build h hlt,habout]
      exact hs.findingsOf_unreached hr
    · obtain ⟨standing,hstanding,hfindings⟩ := hs.findingsOf_reached hr
      rw [hfindings] at habout
      refine ⟨?_,standing,_,hstanding,Lint.repeated_repeats _,habout⟩
      rw [mem_lint_iff_mem_about rfl,habout,List.mem_append,hstanding.recursive_mem_iff,
        ← hasExpansion_iff hwf hlt]
      constructor
      · rintro (⟨hcycle,hsome⟩ | hmem)
        · exact ⟨hcycle,hsome.rules_ne_nil,hsome⟩
        · obtain ⟨_,-,hfalse⟩ := List.mem_map.mp hmem
          cases hfalse
      · exact fun ⟨hcycle,_,hsome⟩ => .inl ⟨hcycle,hsome⟩

/-- Repeated rules, a recursive group with its base, and a lost key that has another base to
itself. -/
def stable : Grammar :=
  ⟨[("origin",.flat ["#horse_fem#","a","b","b","a","#horse_fem#","b"]),
    ("horse",.gendered ⟨none,some ["jument","jument #horse_fem#"],none⟩),
    ("lost",.flat ["#pony_fem#"]),("pony",.gendered ⟨none,some ["ponette"],none⟩)],[]⟩

def stableGraph : Graph := (build stable false).toOption.get (by decide +kernel)

theorem reachableFrom_stableGraph :
    stableGraph.reachableFrom 0 = [true,true,false,false,false,false] := by
  have hsize : stableGraph.size = 6 := by decide +kernel
  have horigin : (stableGraph.group 0).dependencies = [1] := by decide +kernel
  have hhorse : (stableGraph.group 1).dependencies = [1] := by decide +kernel
  simp [reachableFrom,sweep,hsize,horigin,hhorse]

theorem base_stableGraph (i : GroupId) :
    (stableGraph.group i).base = [none,some 2,none,none,some 5,none].getD i none := by
  have hbases : stableGraph.groups.map Group.base = [none,some 2,none,none,some 5,none] := by
    decide +kernel
  rw [← hbases]
  exact (List.getD_map _ (.pending "") Group.base).symm

theorem warnings_exact_stable :
    build stable false = .ok stableGraph ∧ stableGraph.idOf? "origin" = some 0 ∧
    lint stableGraph "origin" = [.repeated "origin" "b",.repeated "origin" "a",
      .repeated "origin" "#horse_fem#",.recursive "horse_fem",.unreachable "lost" "origin",
      .unreachable "pony" "origin"] ∧
    Lint.about "lost" (lint stableGraph "origin") = [.unreachable "lost" "origin"] ∧
    Lint.about "horse" (lint stableGraph "origin") = [] ∧
    Lint.about "pony_fem" (lint stableGraph "origin") = [] ∧
    (TransGen stableGraph.DependsOn 1 1 ∧ (stableGraph.group 1).rules ≠ [] ∧
      ∃ script text, stableGraph.Yields none "horse_fem" script text) ∧
    ∃ standing repeated, stableGraph.Standing 0 standing ∧
      Lint.Repeated (stableGraph.group 0).sources repeated ∧
      Lint.about "origin" (lint stableGraph "origin") =
        standing ++ repeated.map (.repeated "origin") := by
  have hbuild : build stable false = .ok stableGraph := eq_ok_get_toOption _
  have hroot : stableGraph.idOf? "origin" = some 0 := by decide +kernel
  have hnames : stableGraph.names = ["origin","horse_fem","horse","lost","pony_fem","pony"] := by
    decide +kernel
  have hwf := (reached_of_build hbuild).wellFormed
  have hreach (i : GroupId) : ReflTransGen stableGraph.DependsOn 0 i ↔
      [true,true,false,false,false,false].getD i false = true := by
    rw [← getD_reachableFrom hwf (lt_size_of_idOf? hroot),reachableFrom_stableGraph]
  have hlint : lint stableGraph "origin" = [.repeated "origin" "b",.repeated "origin" "a",
      .repeated "origin" "#horse_fem#",.recursive "horse_fem",.unreachable "lost" "origin",
      .unreachable "pony" "origin"] := by
    rw [lint_eq hroot reachableFrom_stableGraph]
    decide +kernel
  obtain ⟨-,-,-,hgroups⟩ := warnings_exact hbuild hroot
  have horigin := (hgroups 0 "origin" (by rw [hnames]; rfl)).2 ((hreach 0).mpr rfl)
  have hmare := (hgroups 1 "horse_fem" (by rw [hnames]; rfl)).2 ((hreach 1).mpr rfl)
  have hhorse := (hgroups 2 "horse" (by rw [hnames]; rfl)).1 (by rw [hreach]; decide)
  have hlost := (hgroups 3 "lost" (by rw [hnames]; rfl)).1 (by rw [hreach]; decide)
  have hpony := (hgroups 4 "pony_fem" (by rw [hnames]; rfl)).1 (by rw [hreach]; decide)
  refine ⟨hbuild,hroot,hlint,hlost.1 ⟨by decide,fun i _ => ?_⟩,hhorse.2 fun h => ?_,
    hpony.2 fun h => absurd h.1 (by decide),hmare.1.mp (by rw [hlint]; decide),horigin.2⟩
  · rw [base_stableGraph]
    rcases i with _ | _ | _ | _ | _ | _ | i <;> simp
  · exact h.2 1 ((hreach 1).mpr rfl) (base_stableGraph 1)

end Graph

end PhraseGrammar
