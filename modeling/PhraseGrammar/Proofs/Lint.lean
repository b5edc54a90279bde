import PhraseGrammar.Proofs.Graph.Recursive
import PhraseGrammar.Proofs.Productive
import PhraseGrammar.Proofs.Safety

/-! What lint reports, in terms of dependency paths and expansions. A grammar without errors cannot
fail to expand except at the depth limit, and one that is not recursive either always expands. -/
namespace PhraseGrammar

open Relation

/-- The group that a finding is about. -/
def Lint.Finding.group? : Lint.Finding → Option String
  | .noRoot _ => none
  | .unreachable group _ | .noRules group | .endless group | .recursive group
  | .repeated group _ => some group

namespace Graph

variable {g : Graph} {root : String} {r : GroupId}

/-- The reasons to report a group, seen from the group `r` named `root`. -/
inductive Reports (g : Graph) (root : String) (r id : GroupId) : Lint.Finding → Prop
  | noRules (hr : ReflTransGen g.DependsOn r id) (hrules : (g.group id).rules = []) :
    g.Reports root r id (.noRules (g.group id).name)
  | endless (hr : ReflTransGen g.DependsOn r id) (hrules : (g.group id).rules ≠ [])
    (hno : ¬ g.HasExpansion id) : g.Reports root r id (.endless (g.group id).name)
  | recursive (hr : ReflTransGen g.DependsOn r id) (hsome : g.HasExpansion id)
    (hcycle : TransGen g.DependsOn id id) : g.Reports root r id (.recursive (g.group id).name)
  | repeated (hr : ReflTransGen g.DependsOn r id) {rule : String}
    (hrule : rule ∈ Lint.repeats (g.group id).sources) :
    g.Reports root r id (.repeated (g.group id).name rule)
  | unreachable (hr : ¬ ReflTransGen g.DependsOn r id) (hderived : (g.group id).derived = false)
    (hbase : ∀ i, ReflTransGen g.DependsOn r i → (g.group i).base ≠ some id) :
    g.Reports root r id (.unreachable (g.group id).name root)

theorem contains_bases (hg : g.WellFormed) (hlt : r < g.size) {id : GroupId} :
    (Lint.bases g (g.reachableFrom r)).contains id = true ↔
      ∃ i, ReflTransGen g.DependsOn r i ∧ (g.group i).base = some id := by
  simp only [Lint.bases,List.contains_iff_mem,List.mem_filterMap,List.mem_range]
  constructor
  · rintro ⟨i,-,hi⟩
    split at hi
    · exact ⟨i,(getD_reachableFrom hg hlt).mp ‹_›,hi⟩
    · cases hi
  · rintro ⟨i,hr,hbase⟩
    have hmark := (getD_reachableFrom hg hlt).mpr hr
    exact ⟨i,hg.lt_size_of_reflTransGen hlt hr,by rw [if_pos hmark,hbase]⟩

/-- What each analysis says about the groups, seen from the group `r` named `root`. -/
structure Surveys (g : Graph) (root : String) (r : GroupId) (s : Lint.Survey) : Prop where
  root : s.root = root
  reachable : ∀ id, s.reachable.getD id false = true ↔ ReflTransGen g.DependsOn r id
  bases : ∀ id, s.bases.contains id = true ↔
    ∃ i, ReflTransGen g.DependsOn r i ∧ (g.group i).base = some id
  productive : ∀ id, s.productive.getD id false = true ↔ g.HasExpansion id
  recursive : ∀ id, s.recursive.getD id false = true ↔ TransGen g.DependsOn id id

theorem surveys_survey (hg : g.WellFormed) (hlt : r < g.size) :
    g.Surveys root r (Lint.survey g root r) where
  root := rfl
  reachable _ := getD_reachableFrom hg hlt
  bases _ := contains_bases hg hlt
  productive _ := Lint.productive_iff hg
  recursive _ := getD_eq_true.trans getElem?_recursiveGroups

namespace Surveys

variable {s : Lint.Survey} {id : GroupId} {finding : Lint.Finding}

theorem reports (hs : g.Surveys root r s) (h : finding ∈ Lint.findingsOf s (g.group id) id) :
    g.Reports root r id finding := by
  simp only [Lint.findingsOf,Bool.not_eq_true',Bool.or_eq_true] at h
  split at h
  · rename_i hmark
    have hr := (hs.reachable id).mp hmark
    rcases List.mem_append.mp h with h | h
    · split at h
      · rename_i hempty
        obtain rfl := List.mem_singleton.mp h
        exact .noRules hr (List.isEmpty_iff.mp hempty)
      · rename_i hempty
        split at h
        · rename_i hno
          obtain rfl := List.mem_singleton.mp h
          refine .endless hr (by simpa using hempty) fun hsome => ?_
          rw [(hs.productive id).mpr hsome] at hno
          cases hno
        · rename_i hsome
          split at h
          · rename_i hcycle
            obtain rfl := List.mem_singleton.mp h
            have hsome := (hs.productive id).mp (by simpa using hsome)
            exact .recursive hr hsome ((hs.recursive id).mp hcycle)
          · cases h
    · obtain ⟨rule,hrule,rfl⟩ := List.mem_map.mp h
      exact .repeated hr hrule
  · rename_i hmark
    split at h
    · cases h
    · rename_i hkept
      rw [not_or] at hkept
      obtain rfl := List.mem_singleton.mp h
      rw [hs.root]
      refine .unreachable (fun hr => hmark ((hs.reachable id).mpr hr)) (by simpa using hkept.1) ?_
      exact fun i hi hbase => hkept.2 ((hs.bases id).mpr ⟨i,hi,hbase⟩)

theorem mem_findingsOf (hs : g.Surveys root r s) (h : g.Reports root r id finding) :
    finding ∈ Lint.findingsOf s (g.group id) id := by
  simp only [Lint.findingsOf,Bool.not_eq_true',Bool.or_eq_true]
  cases h with
  | noRules hr hrules =>
    rw [if_pos ((hs.reachable id).mpr hr),hrules]
    exact List.mem_append_left _ List.mem_cons_self
  | endless hr hrules hno =>
    have hmark := Bool.eq_false_iff.mpr fun hmark => hno ((hs.productive id).mp hmark)
    rw [if_pos ((hs.reachable id).mpr hr),if_neg (by simpa using hrules),if_pos hmark]
    exact List.mem_append_left _ List.mem_cons_self
  | recursive hr hsome hcycle =>
    have hmark : ¬ s.productive.getD id false = false := by
      rw [(hs.productive id).mpr hsome]
      exact Bool.noConfusion
    rw [if_pos ((hs.reachable id).mpr hr),if_neg (by simpa using hsome.rules_ne_nil),
      if_neg hmark,if_pos ((hs.recursive id).mpr hcycle)]
    exact List.mem_append_left _ List.mem_cons_self
  | repeated hr hrule =>
    rw [if_pos ((hs.reachable id).mpr hr)]
    exact List.mem_append_right _ (List.mem_map_of_mem hrule)
  | unreachable hr hderived hbase =>
    have hkept : ¬ ((g.group id).derived = true ∨ s.bases.contains id = true) := by
      rw [hderived,hs.bases id]
      rintro (hfalse | ⟨i,hi,he⟩)
      · cases hfalse
      · exact hbase i hi he
    rw [if_neg fun hmark => hr ((hs.reachable id).mp hmark),if_neg hkept,hs.root]
    exact List.mem_cons_self

end Surveys

theorem mem_lint (hg : g.WellFormed) (hroot : g.idOf? root = some r) {finding : Lint.Finding} :
    finding ∈ lint g root ↔ ∃ id < g.size, g.Reports root r id finding := by
  have hlt := lt_size_of_idOf? hroot
  have hs : g.Surveys root r (Lint.survey g root r) := surveys_survey hg hlt
  simp only [lint,hroot,List.mem_flatMap,List.mem_range]
  exact exists_congr fun id => and_congr_right fun _ => ⟨hs.reports,hs.mem_findingsOf⟩

theorem mem_errors {findings : List Lint.Finding} {finding : Lint.Finding} :
    finding ∈ Lint.errors findings ↔ finding ∈ findings ∧ finding.severity = .error := by
  simp [Lint.errors]

theorem mem_warnings {findings : List Lint.Finding} {finding : Lint.Finding} :
    finding ∈ Lint.warnings findings ↔ finding ∈ findings ∧ finding.severity = .warning := by
  simp [Lint.warnings]

/-- The groups with an error are the reachable ones that no expansion of comes to an end. -/
theorem mem_error_groups (hg : g.WellFormed) (hroot : g.idOf? root = some r) {name : String} :
    name ∈ (Lint.errors (lint g root)).filterMap Lint.Finding.group? ↔
      ∃ id < g.size, (g.group id).name = name ∧ ReflTransGen g.DependsOn r id ∧
        ¬ g.HasExpansion id := by
  simp only [List.mem_filterMap,mem_errors,mem_lint hg hroot]
  constructor
  · rintro ⟨finding,⟨⟨id,hlt,hreport⟩,herror⟩,hname⟩
    cases hreport with
    | noRules hr hrules =>
      exact ⟨id,hlt,Option.some.inj hname,hr,fun hsome => hsome.rules_ne_nil hrules⟩
    | endless hr _ hno => exact ⟨id,hlt,Option.some.inj hname,hr,hno⟩
    | recursive => cases herror
    | repeated => cases herror
    | unreachable => cases herror
  · rintro ⟨id,hlt,rfl,hr,hno⟩
    by_cases hrules : (g.group id).rules = []
    · exact ⟨_,⟨⟨id,hlt,.noRules hr hrules⟩,rfl⟩,rfl⟩
    · exact ⟨_,⟨⟨id,hlt,.endless hr hrules hno⟩,rfl⟩,rfl⟩

theorem hasExpansion_of_errors (hg : g.WellFormed) (hroot : g.idOf? root = some r)
    (herrors : Lint.errors (lint g root) = []) {id : GroupId}
    (hr : ReflTransGen g.DependsOn r id) : g.HasExpansion id := by
  by_contra hno
  have hlt := lt_size_of_idOf? hroot
  have hmem := (mem_error_groups hg hroot).mpr
    ⟨id,hg.lt_size_of_reflTransGen hlt hr,rfl,hr,hno⟩
  rw [herrors] at hmem
  cases hmem

theorem exists_root_of_errors (herrors : Lint.errors (lint g root) = []) :
    ∃ r, g.idOf? root = some r := by
  rcases hroot : g.idOf? root with _ | r
  · simp [lint,hroot,Lint.errors,Lint.Finding.severity] at herrors
  · exact ⟨r,rfl⟩

theorem cycleFree_of_warnings (hg : g.WellFormed) (hroot : g.idOf? root = some r)
    (herrors : Lint.errors (lint g root) = [])
    (hwarnings : ∀ name, .recursive name ∉ Lint.warnings (lint g root)) : g.CycleFree r := by
  intro other hr hcycle
  have hsome := hasExpansion_of_errors hg hroot herrors hr
  have hmem : .recursive (g.group other).name ∈ lint g root := (mem_lint hg hroot).mpr
    ⟨other,lt_size_of_transGen hcycle,.recursive hr hsome hcycle⟩
  exact hwarnings _ (mem_warnings.mpr ⟨hmem,rfl⟩)

variable {σ : Type}

theorem expand_of_errors (hg : g.WellFormed) (herrors : Lint.errors (lint g root) = [])
    {strategy : Strategy σ} {limit : Option Nat} {levels : Nat} {s : σ} {e : Error}
    (h : (g.expand limit levels strategy root s).1 = .failed e) :
    ∃ symbol n, limit = some n ∧ e = .depthLimit symbol n := by
  obtain ⟨r,hroot⟩ := exists_root_of_errors herrors
  rw [expand,hroot] at h
  have hfail : g.MayFail limit r e := mayFail_of_expandGroup hg (Prod.ext h rfl)
  cases hfail with
  | empty hr hrules => exact absurd hrules (hasExpansion_of_errors hg hroot herrors hr).rules_ne_nil
  | cut hr hlimit => exact ⟨_,_,hlimit,rfl⟩

theorem expand_done_of_findings (hg : g.WellFormed) (hroot : g.idOf? root = some r)
    (herrors : Lint.errors (lint g root) = []) (hfree : g.CycleFree r) (strategy : Strategy σ)
    (s : σ) :
    ∃ text s', ∀ limit levels, g.size ≤ levels → (∀ n, limit = some n → g.size ≤ n + 1) →
      g.expand limit levels strategy root s = (.done text,s') := by
  have hrules : ∀ other, ReflTransGen g.DependsOn r other → (g.group other).rules ≠ [] :=
    fun other hr => (hasExpansion_of_errors hg hroot herrors hr).rules_ne_nil
  obtain ⟨text,s',hdone⟩ := expandGroup_done hg hfree hrules strategy s
  have hrank := rank_le_size g r
  refine ⟨text,s',fun limit levels hlevels hlimit => ?_⟩
  rw [expand,hroot]
  refine hdone _ ⟨limit,levels,0,hrank.trans hlevels,fun n hn => ?_,rfl⟩
  rw [Nat.zero_add]
  exact hrank.trans (hlimit n hn)

/-- The groups with an error are exactly the reachable ones without an expansion. Where no group has
an error, an expansion fails only at the depth limit; where none is reported as recursive either, it
always succeeds, with fewer levels below the first than there are groups, and the tally of the root
counts its scripts. -/
theorem lint_guards_expansion (hg : g.Reached) (root : String) :
    (∀ r, g.idOf? root = some r → ∀ name,
      name ∈ (Lint.errors (lint g root)).filterMap Lint.Finding.group? ↔
        ∃ id, g.names[id]? = some name ∧ ReflTransGen g.DependsOn r id ∧
          ∀ script text, ¬ g.Yields none name script text) ∧
    (Lint.errors (lint g root) = [] →
      ∀ {σ : Type} (strategy : Strategy σ) (limit : Option Nat) (levels : Nat) (s : σ) (e : Error),
        (g.expand limit levels strategy root s).1 = .failed e →
          ∃ symbol n, limit = some n ∧ e = .depthLimit symbol n) ∧
    (Lint.errors (lint g root) = [] →
      (∀ name, .recursive name ∉ Lint.warnings (lint g root)) →
      ∃ r, g.idOf? root = some r ∧
        (∀ {σ : Type} (strategy : Strategy σ) (s : σ), ∃ text s', ∀ limit levels,
          g.size ≤ levels → (∀ n, limit = some n → g.size ≤ n + 1) →
            g.expand limit levels strategy root s = (.done text,s')) ∧
        1 ≤ g.tally.total r ∧
        {script | ∃ text, g.Yields none root script text}.encard = g.tally.total r) := by
  have hwf := hg.wellFormed
  refine ⟨fun r hroot name => ?_,fun herrors σ strategy limit levels s e => ?_,?_⟩
  · rw [mem_error_groups hwf hroot]
    refine exists_congr fun id => ?_
    rw [getElem?_names,and_assoc]
    refine and_congr_right fun hlt => and_congr_right fun hname => and_congr_right fun _ => ?_
    rw [hasExpansion_iff hwf hlt,hname]
    simp only [not_exists]
  · exact expand_of_errors hwf herrors
  · intro herrors hwarnings
    obtain ⟨r,hroot⟩ := exists_root_of_errors herrors
    have hfree := cycleFree_of_warnings hwf hroot herrors hwarnings
    obtain ⟨hlt,hname⟩ := getElem?_names.mp (getElem?_names_of_idOf? hroot)
    have hscripts := encard_scripts hwf hlt hfree
    have hsome := hasExpansion_of_errors hwf hroot herrors .refl
    rw [hname] at hscripts
    have hpos := hsome.ways_pos hwf hfree
    rw [← total_tally hwf hlt hfree] at hscripts hpos
    refine ⟨r,hroot,fun strategy s => ?_,hpos,hscripts⟩
    exact expand_done_of_findings hwf hroot herrors hfree strategy s

theorem lint_eq {marks : List Bool} (hroot : g.idOf? root = some r)
    (hmarks : g.reachableFrom r = marks) :
    lint g root = (List.range g.size).flatMap fun i =>
      Lint.findingsOf ⟨root,marks,Lint.bases g marks,Lint.productive g,g.recursiveGroups⟩
        (g.group i) i := by
  subst hmarks
  rw [lint,hroot]
  rfl

/-- A group that always comes back to itself, beside a pair that does not mention it. -/
def pitAndPair : Graph :=
  (((empty.declare "pit" ["#pit#","#word##pit#"]).2.declare "pair"
    ["#word# #word.capitalize#","nothing"]).2.declare "word" ["sun","moon"]).2

theorem lint_guards_expansion_pitAndPair :
    pitAndPair.Reached ∧ Lint.errors (lint pitAndPair "pit") = [.endless "pit"] ∧
    (∃ id, pitAndPair.names[id]? = some "pit" ∧ ReflTransGen pitAndPair.DependsOn 0 id ∧
      ∀ script text, ¬ pitAndPair.Yields none "pit" script text) ∧
    Lint.errors (lint pitAndPair "pair") = [] ∧
    Lint.warnings (lint pitAndPair "pair") = [.unreachable "pit" "pair"] ∧
    (pitAndPair.expand (some 0) 2 .first "pair" ()).1 = .failed (.depthLimit "word" 0) ∧
    (∃ symbol n, some 0 = some n ∧ Error.depthLimit "word" 0 = .depthLimit symbol n) ∧
    (∃ text s, ∀ levels, pitAndPair.size ≤ levels →
      pitAndPair.expand none levels .first "pair" () = (.done text,s)) ∧
    1 ≤ pitAndPair.tally.total 2 ∧
    {script | ∃ text, pitAndPair.Yields none "pair" script text}.encard =
      pitAndPair.tally.total 2 := by
  have hreached : pitAndPair.Reached := ((Reached.empty.declare _ _).declare _ _).declare _ _
  have hsize : pitAndPair.size = 3 := by decide +kernel
  have hpit : (pitAndPair.group 0).dependencies = [0,1] := by decide +kernel
  have hword : (pitAndPair.group 1).dependencies = [] := by decide +kernel
  have hpair : (pitAndPair.group 2).dependencies = [1] := by decide +kernel
  have hroot : pitAndPair.idOf? "pit" = some 0 := by decide +kernel
  have hroot' : pitAndPair.idOf? "pair" = some 2 := by decide +kernel
  have hmarks : pitAndPair.reachableFrom 0 = [true,true,false] := by
    simp [reachableFrom,sweep,hsize,hpit,hword]
  have hmarks' : pitAndPair.reachableFrom 2 = [false,true,true] := by
    simp [reachableFrom,sweep,hsize,hpair,hword]
  have herrors : Lint.errors (lint pitAndPair "pit") = [.endless "pit"] := by
    rw [lint_eq hroot hmarks]
    decide +kernel
  have hclean : Lint.errors (lint pitAndPair "pair") = [] := by
    rw [lint_eq hroot' hmarks']
    decide +kernel
  have hwarnings : Lint.warnings (lint pitAndPair "pair") = [.unreachable "pit" "pair"] := by
    rw [lint_eq hroot' hmarks']
    decide +kernel
  have hcut : (pitAndPair.expand (some 0) 2 .first "pair" ()).1 =
      .failed (.depthLimit "word" 0) := by decide +kernel
  obtain ⟨hgroups,-,-⟩ := lint_guards_expansion hreached "pit"
  obtain ⟨-,hfails,hdone⟩ := lint_guards_expansion hreached "pair"
  obtain ⟨r,hr,htext,hpos,hscripts⟩ := hdone hclean (by simp [hwarnings])
  obtain rfl : r = 2 := Option.some.inj (hr.symm.trans hroot')
  obtain ⟨text,s,hexpand⟩ := htext .first ()
  refine ⟨hreached,herrors,(hgroups 0 hroot "pit").mp ?_,hclean,hwarnings,hcut,
    hfails hclean .first (some 0) 2 () _ hcut,⟨text,s,fun levels hlevels => ?_⟩,hpos,hscripts⟩
  · rw [herrors]
    exact List.mem_cons_self
  · exact hexpand none levels hlevels fun n hn => by cases hn

end Graph

end PhraseGrammar
