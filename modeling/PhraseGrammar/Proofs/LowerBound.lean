import Mathlib.Algebra.Order.BigOperators.Group.List
import PhraseGrammar.Proofs.Productive
import PhraseGrammar.Proofs.TallySteps

/-! The tally is a lower bound on any graph. At every moment of the count, whatever is being counted
at that time, there is a number of levels within which each rule has as many derivations as it has
been counted for; an added count takes one level more than the totals that it multiplies. -/
namespace PhraseGrammar

namespace Graph

open Relation

variable {g : Graph}

/-- The number of derivations that nest at most `levels` levels. -/
def within (g : Graph) (levels : Nat) (id : GroupId) : Nat :=
  (g.derivations none levels 0 id).length

theorem length_ruleFills_within (hg : g.WellFormed) {id : GroupId} {rule : Rule}
    (hrule : rule ∈ (g.group id).rules) (levels : Nat) :
    (ruleFills (g.derivations none levels 1) rule).length = ruleCount (g.within levels) rule := by
  rw [ruleFills,length_fills (hg.length_references hrule),ruleCount]
  congr 1
  apply List.map_congr_left
  intro r _
  rw [within,derivations_depth levels 1 0 r]

theorem within_succ (hg : g.WellFormed) (levels : Nat) (id : GroupId) :
    g.within (levels + 1) id = ((g.group id).rules.map (ruleCount (g.within levels))).sum := by
  rw [within,length_derivations_succ]
  congr 1
  apply List.map_congr_left
  intro rule hrule
  exact length_ruleFills_within hg hrule levels

theorem within_le_succ (levels : Nat) (id : GroupId) :
    g.within levels id ≤ g.within (levels + 1) id :=
  (derivations_sublist_succ levels 0 id).length_le

/-- Each rule has at least as many derivations within the levels as it is counted for. -/
def Bounded (g : Graph) (levels : Nat) (t : Tally) : Prop :=
  ∀ (id : GroupId) (i count : Nat), (t.counts id)[i]? = some count →
    ∃ rule, (g.group id).rules[i]? = some rule ∧ count ≤ ruleCount (g.within levels) rule

theorem bounded_start (g : Graph) : g.Bounded 0 (.start g.size) := by
  intro id i count hcount
  rw [Tally.counts,Tally.getD_start] at hcount
  cases hcount

theorem Bounded.succ {levels : Nat} {t : Tally} (h : g.Bounded levels t) :
    g.Bounded (levels + 1) t := by
  intro id i count hcount
  obtain ⟨rule,hrule,hle⟩ := h id i count hcount
  exact ⟨rule,hrule,hle.trans (ruleCount_mono (within_le_succ levels) rule)⟩

theorem sum_le_sum_map {N : Rule → Nat} {counts : List Nat} {rules : List Rule}
    (h : ∀ (i count : Nat), counts[i]? = some count →
      ∃ rule, rules[i]? = some rule ∧ count ≤ N rule) : counts.sum ≤ (rules.map N).sum := by
  induction counts generalizing rules with
  | nil => simp
  | cons count counts ih =>
    obtain ⟨rule,hrule,hle⟩ := h 0 count rfl
    cases rules with
    | nil => cases hrule
    | cons rule' rules =>
      obtain rfl := Option.some.inj hrule
      have hrest : counts.sum ≤ (rules.map N).sum := ih fun i c hc => h (i + 1) c hc
      simpa using Nat.add_le_add hle hrest

/-- The rules of a group that is being counted have their derivations one level below its own. -/
theorem Bounded.total_le (hg : g.WellFormed) {levels : Nat} {t : Tally} (h : g.Bounded levels t)
    (id : GroupId) : t.total id ≤ g.within (levels + 1) id := by
  rw [Tally.total_eq_sum,within_succ hg]
  exact sum_le_sum_map (h id)

theorem Bounded.step (hg : g.WellFormed) {levels : Nat} {t t' : Tally} (h : g.Bounded levels t)
    (hstep : g.TallyStep t t') : g.Bounded (levels + 1) t' := by
  intro other i count hcount
  cases hstep with
  | enter hid =>
    rw [Tally.counts_enter hid] at hcount
    exact h.succ other i count hcount
  | @add id counts rule added hid hrule hadded =>
    rw [Tally.counts_add hid] at hcount
    split at hcount
    · subst other
      by_cases hi : i < counts.length
      · rw [List.getElem?_append_left hi,← Tally.counts_eq hid] at hcount
        exact h.succ id i count hcount
      · obtain rfl : i = counts.length := by
          have hlt := (List.getElem?_eq_some_iff.mp hcount).1
          simp at hlt
          omega
        obtain rfl : added = count := by simpa using hcount
        exact ⟨rule,hrule,hadded.trans (ruleCount_mono (h.total_le hg) rule)⟩
    · exact h.succ other i count hcount

theorem exists_bounded (hg : g.WellFormed) {t : Tally}
    (h : ReflTransGen g.TallyStep (.start g.size) t) : ∃ levels, g.Bounded levels t := by
  induction h with
  | refl => exact ⟨0,bounded_start g⟩
  | tail _ hstep ih =>
    obtain ⟨levels,hlevels⟩ := ih
    exact ⟨levels + 1,hlevels.step hg hstep⟩

theorem within_le_encard (hg : g.WellFormed) {id : GroupId} (hlt : id < g.size) (levels : Nat) :
    g.within levels id ≤ {script | ∃ text, g.Yields none (g.group id).name script text}.encard := by
  have hnodup : ((g.derivations none levels 0 id).map Prod.fst).Nodup := nodup_scripts levels 0 id
  have hlength : g.within levels id = ((g.derivations none levels 0 id).map Prod.fst).length := by
    rw [List.length_map]
    rfl
  rw [hlength,← encard_setOf_mem hnodup]
  refine Set.encard_le_encard fun script hscript => ?_
  obtain ⟨d,hd,rfl⟩ := List.mem_map.mp hscript
  exact ⟨d.2,yields_iff.mpr ⟨id,hg.idOf?_name hlt,levels,hd⟩⟩

theorem ruleCount_le_encard (hg : g.WellFormed) {id : GroupId} (hlt : id < g.size) {i : Nat}
    {rule : Rule} (hrule : (g.group id).rules[i]? = some rule) (levels : Nat) :
    ruleCount (g.within levels) rule ≤ {script | script.head? = some i ∧
      ∃ text, g.Yields none (g.group id).name script text}.encard := by
  have hnodup : ((ruleFills (g.derivations none levels 1) rule).map fun d => i :: d.1).Nodup :=
    nodup_scripts_of_rule levels 1 i rule
  have hlength : ruleCount (g.within levels) rule =
      ((ruleFills (g.derivations none levels 1) rule).map fun d => i :: d.1).length := by
    rw [List.length_map,length_ruleFills_within hg (List.mem_of_getElem? hrule)]
  rw [hlength,← encard_setOf_mem hnodup]
  refine Set.encard_le_encard fun script hscript => ?_
  obtain ⟨d,hd,rfl⟩ := List.mem_map.mp hscript
  refine ⟨rfl,d.2,yields_iff.mpr ⟨id,hg.idOf?_name hlt,levels + 1,?_⟩⟩
  exact mem_derivations_succ.mpr ⟨rfl,i,rule,d.1,hrule,rfl,hd⟩

theorem length_counts_tally (hg : g.WellFormed) {id : GroupId} (hlt : id < g.size) :
    (g.tally.counts id).length = (g.group id).rules.length := by
  obtain ⟨-,-,hvisited⟩ := foldl_countGroup hg (fun _ hi => sum_ruleCount_ways hg hi)
    (fun i hi => List.mem_range.mp hi) (sound_start g g.ways)
  have hentry : g.tally.getD id none ≠ none := hvisited id (List.mem_range.mpr hlt)
  obtain ⟨counts,hc⟩ := Option.ne_none_iff_exists'.mp hentry
  rw [Tally.counts_eq hc]
  exact (tally_counted g).complete.counted id counts (by simp) hc

/-- On any graph the tally of a group is at most the number of scripts under which its expansion
succeeds, the count of each of its rules at most the number of those that begin with the rule, and
a group with a positive tally is marked as productive. -/
theorem tally_le_expansions (hg : g.Reached) {id : GroupId} (hlt : id < g.size) :
    g.tally.total id ≤ {script | ∃ text, g.Yields none (g.group id).name script text}.encard ∧
    (g.tally.counts id).length = (g.group id).rules.length ∧
    (∀ i count : Nat, (g.tally.counts id)[i]? = some count →
      count ≤ {script | script.head? = some i ∧
        ∃ text, g.Yields none (g.group id).name script text}.encard) ∧
    (0 < g.tally.total id → ∃ script text, g.Yields none (g.group id).name script text) ∧
    ((Lint.productive g).getD id false = false → g.tally.total id = 0) := by
  have hwf := hg.wellFormed
  obtain ⟨levels,hbounded⟩ := exists_bounded hwf (tally_counted g).steps
  have htotal := hbounded.total_le hwf id
  have hexpands : 0 < g.tally.total id → g.HasExpansion id := fun hpos =>
    ⟨levels + 1,List.ne_nil_of_length_pos (hpos.trans_le htotal)⟩
  refine ⟨?_,length_counts_tally hwf hlt,fun i count hcount => ?_,fun hpos => ?_,fun hmark => ?_⟩
  · exact (Nat.cast_le.mpr htotal).trans (within_le_encard hwf hlt (levels + 1))
  · obtain ⟨rule,hrule,hle⟩ := hbounded id i count hcount
    exact (Nat.cast_le.mpr hle).trans (ruleCount_le_encard hwf hlt hrule levels)
  · exact (hasExpansion_iff hwf hlt).mp (hexpands hpos)
  · by_contra hne
    have hproductive := (Lint.productive_iff hwf).mpr (hexpands (Nat.pos_of_ne_zero hne))
    rw [hmark] at hproductive
    cases hproductive

/-- Two groups that lead to each other, and a third one that leads only to itself. -/
def tangle : Graph :=
  (((empty.declare "day" ["sun","#night# and dawn","#void#"]).2.declare "night"
    ["#day# and dusk","#day##day#"]).2.declare "void" ["#void#"]).2

theorem tally_le_expansions_tangle :
    tangle.Reached ∧ 0 < tangle.size ∧ 2 < tangle.size ∧
    3 ≤ {script | ∃ text, tangle.Yields none "day" script text}.encard ∧
    2 ≤ {script | script.head? = some 1 ∧ ∃ text, tangle.Yields none "day" script text}.encard ∧
    (∃ script text, tangle.Yields none "day" script text) ∧
    (Lint.productive tangle).getD 2 false = false ∧ tangle.tally.total 2 = 0 := by
  have hreached : tangle.Reached := ((Reached.empty.declare _ _).declare _ _).declare _ _
  have hlt : 0 < tangle.size := by decide +kernel
  have hlt' : 2 < tangle.size := by decide +kernel
  have hname : (tangle.group 0).name = "day" := by decide +kernel
  have htotal : tangle.tally.total 0 = 3 := by decide +kernel
  have hcounts : tangle.tally.counts 0 = [1,2,0] := by decide +kernel
  have hmark : (Lint.productive tangle).getD 2 false = false := by decide +kernel
  obtain ⟨hscripts,-,hrules,hyields,-⟩ := tally_le_expansions hreached hlt
  obtain ⟨-,-,-,-,hzero⟩ := tally_le_expansions hreached hlt'
  rw [hname,htotal] at hscripts
  rw [hname,hcounts] at hrules
  rw [hname,htotal] at hyields
  exact ⟨hreached,hlt,hlt',hscripts,hrules 1 2 rfl,hyields (by decide),hmark,hzero hmark⟩

end Graph

end PhraseGrammar
