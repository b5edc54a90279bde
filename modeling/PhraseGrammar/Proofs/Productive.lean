import Mathlib.Algebra.BigOperators.Ring.List
import PhraseGrammar.Lint
import PhraseGrammar.Proofs.Count

/-! Groups with a finite expansion. The marks that lint settles on are exactly these groups: a step
marks no other group, and a group that is still unmarked when nothing changes has no way out. -/
namespace PhraseGrammar

namespace Graph

variable {g : Graph}

/-- Some expansion of the group comes to an end. -/
def HasExpansion (g : Graph) (id : GroupId) : Prop :=
  ∃ levels, g.derivations none levels 0 id ≠ []

theorem hasExpansion_iff (hg : g.WellFormed) {id : GroupId} (hlt : id < g.size) :
    g.HasExpansion id ↔ ∃ script text, g.Yields none (g.group id).name script text := by
  simp only [yields_iff,hg.idOf?_name hlt,Option.some.injEq,exists_eq_left']
  constructor
  · rintro ⟨levels,hne⟩
    obtain ⟨d,hd⟩ := List.exists_mem_of_ne_nil _ hne
    exact ⟨d.1,d.2,levels,hd⟩
  · rintro ⟨script,text,levels,hd⟩
    exact ⟨levels,List.ne_nil_of_mem hd⟩

theorem derivations_succ_ne_nil (hg : g.WellFormed) {levels depth : Nat} {id : GroupId} :
    g.derivations none (levels + 1) depth id ≠ [] ↔ ∃ rule ∈ (g.group id).rules,
      ∀ r ∈ rule.references, g.derivations none levels (depth + 1) r ≠ [] := by
  simp only [ne_eq,← List.length_eq_zero_iff]
  rw [length_derivations_succ,List.sum_eq_zero_iff_forall_eq_nat]
  simp only [List.forall_mem_map,not_forall,exists_prop]
  refine exists_congr fun rule => and_congr_right fun hrule => ?_
  rw [ruleFills,length_fills (hg.length_references hrule),List.prod_eq_zero_iff]
  simp

theorem derivations_ne_nil_mono {levels levels' depth : Nat} (h : levels ≤ levels') {id : GroupId}
    (hne : g.derivations none levels depth id ≠ []) : g.derivations none levels' depth id ≠ [] := by
  intro hn
  have hsub : List.Sublist (g.derivations none levels depth id) _ := derivations_sublist h depth id
  rw [hn,List.sublist_nil] at hsub
  exact hne hsub

theorem exists_levels {ids : List GroupId} (h : ∀ r ∈ ids, g.HasExpansion r) :
    ∃ levels, ∀ r ∈ ids, g.derivations none levels 0 r ≠ [] := by
  induction ids with
  | nil => exact ⟨0,by simp⟩
  | cons id ids ih =>
    obtain ⟨⟨levels,hid⟩,hids⟩ := List.forall_mem_cons.mp h
    obtain ⟨levels',hrest⟩ := ih hids
    refine ⟨max levels levels',List.forall_mem_cons.mpr ⟨?_,fun r hr => ?_⟩⟩
    · exact derivations_ne_nil_mono (Nat.le_max_left _ _) hid
    · exact derivations_ne_nil_mono (Nat.le_max_right _ _) (hrest r hr)

theorem HasExpansion.rules_ne_nil {id : GroupId} (h : g.HasExpansion id) :
    (g.group id).rules ≠ [] := by
  obtain ⟨levels,hne⟩ := h
  intro hrules
  cases levels with
  | zero => exact hne rfl
  | succ levels => exact hne (by simp [derivations,hrules])

theorem HasExpansion.ways_pos (hg : g.WellFormed) {id : GroupId} (h : g.HasExpansion id)
    (hfree : g.CycleFree id) : 1 ≤ g.ways id := by
  obtain ⟨levels,hne⟩ := h
  have hmono := derivations_ne_nil_mono (Nat.le_max_left levels g.size) hne
  rw [derivations_eq_of_rank_le hg hfree ((rank_le_size g id).trans (Nat.le_max_right _ _))
    (rank_le_size g id) 0 0] at hmono
  exact List.length_pos_iff.mpr hmono

theorem HasExpansion.of_rule (hg : g.WellFormed) {id : GroupId} {rule : Rule}
    (hrule : rule ∈ (g.group id).rules) (h : ∀ r ∈ rule.references, g.HasExpansion r) :
    g.HasExpansion id := by
  obtain ⟨levels,hlevels⟩ := exists_levels h
  refine ⟨levels + 1,(derivations_succ_ne_nil hg).mpr ⟨rule,hrule,fun r hr => ?_⟩⟩
  rw [derivations_depth levels 1 0 r]
  exact hlevels r hr

end Graph

namespace Lint

def Grows (marks marks' : List Bool) : Prop :=
  List.Forall₂ (fun a b => a = true → b = true) marks marks'

theorem Grows.getD {marks marks' : List Bool} (h : Grows marks marks') {id : GroupId}
    (hid : marks.getD id false = true) : marks'.getD id false = true := by
  rw [List.getD_eq_getElem?_getD] at hid ⊢
  rcases forall₂_getElem? h id with ⟨hn,-⟩ | ⟨a,b,ha,hb,hab⟩
  · simp [hn] at hid
  · simp only [ha,hb,Option.getD_some] at hid ⊢
    exact hab hid

theorem Grows.count_le {marks marks' : List Bool} (h : Grows marks marks') :
    marks'.count false ≤ marks.count false := by
  induction h with
  | nil => exact Nat.le_refl _
  | @cons a b _ _ hab _ ih => cases a <;> cases b <;> simp at hab ⊢ <;> omega

theorem Grows.count_lt {marks marks' : List Bool} (h : Grows marks marks') (hne : marks' ≠ marks) :
    marks'.count false < marks.count false := by
  induction h with
  | nil => exact absurd rfl hne
  | @cons a b as bs hab hrest ih =>
    have hle := Grows.count_le hrest
    by_cases he : b = a
    · subst he
      have hlt := ih (by simpa using hne)
      rw [List.count_cons,List.count_cons]
      exact Nat.add_lt_add_right hlt _
    · obtain ⟨rfl,rfl⟩ : a = false ∧ b = true := by
        cases a <;> cases b <;> simp at hab he ⊢
      simpa using Nat.lt_succ_of_le hle

variable {step : List Bool → List Bool} {P : List Bool → Prop}

theorem settle_preserves (hstep : ∀ marks, P marks → P (step marks)) (n : Nat) {marks : List Bool}
    (h : P marks) : P (settle step n marks) := by
  induction n generalizing marks with
  | zero => exact h
  | succ n ih =>
    rw [settle]
    split
    · exact h
    · exact ih (hstep marks h)

/-- More steps than there are marks missing lead to marks that a step no longer changes. -/
theorem settle_fixed (hstep : ∀ marks, P marks → P (step marks))
    (hgrows : ∀ marks, P marks → Grows marks (step marks)) {n : Nat} {marks : List Bool}
    (h : P marks) (hn : marks.count false < n) :
    step (settle step n marks) = settle step n marks := by
  induction n generalizing marks with
  | zero => exact absurd hn (Nat.not_lt_zero _)
  | succ n ih =>
    rw [settle]
    split
    · assumption
    · rename_i hne
      have hlt := (hgrows marks h).count_lt hne
      exact ih (hstep marks h) (by omega)

variable {g : Graph} {marks marks' : List Bool}

theorem getD_productiveStep {id : GroupId} :
    (productiveStep g.groups marks).getD id false = true ↔
      ∃ rule ∈ (g.group id).rules, ∀ r ∈ rule.references, marks.getD r false = true := by
  have hexit : (productiveStep g.groups marks).getD id false = hasExit marks (g.group id) := by
    rw [productiveStep,List.getD_eq_getElem?_getD,List.getElem?_map]
    by_cases hlt : id < g.size
    · rw [Graph.getElem?_groups hlt]
      rfl
    · have hge := Nat.le_of_not_lt hlt
      rw [List.getElem?_eq_none hge,Graph.group_of_size_le hge]
      rfl
  rw [hexit,hasExit]
  simp only [List.any_eq_true,List.all_eq_true]

theorem Grows.hasExit (h : Grows marks marks') (group : Group)
    (hexit : Lint.hasExit marks group = true) : Lint.hasExit marks' group = true := by
  simp only [Lint.hasExit,List.any_eq_true,List.all_eq_true] at hexit ⊢
  obtain ⟨rule,hrule,hall⟩ := hexit
  exact ⟨rule,hrule,fun r hr => h.getD (hall r hr)⟩

theorem Grows.productiveStep (h : Grows marks marks') (groups : List Group) :
    Grows (Lint.productiveStep groups marks) (Lint.productiveStep groups marks') := by
  rw [Grows,Lint.productiveStep,Lint.productiveStep,List.forall₂_map_left_iff,List.forall₂_map_right_iff,
    List.forall₂_same]
  exact fun group _ => h.hasExit group

theorem grows_unmarked (g : Graph) :
    Grows (List.replicate g.size false) (productiveStep g.groups (List.replicate g.size false)) := by
  rw [productiveStep,Graph.size,← List.map_const',Grows,List.forall₂_map_left_iff,
    List.forall₂_map_right_iff,List.forall₂_same]
  exact fun group _ hmark => absurd hmark Bool.false_ne_true

theorem productive_fixed (g : Graph) : productiveStep g.groups (productive g) = productive g := by
  refine settle_fixed (P:=fun marks => Grows marks (productiveStep g.groups marks)) ?_ ?_
    (grows_unmarked g) ?_
  · exact fun _ h => Grows.productiveStep h g.groups
  · exact fun _ h => h
  · simp

theorem hasExpansion_of_productive (hg : g.WellFormed) {id : GroupId}
    (h : (productive g).getD id false = true) : g.HasExpansion id := by
  refine settle_preserves (P:=fun marks => ∀ id, marks.getD id false = true → g.HasExpansion id)
    (fun marks hmarks id hid => ?_) (g.size + 1) (fun id hid => ?_) id h
  · obtain ⟨rule,hrule,hall⟩ := getD_productiveStep.mp hid
    exact .of_rule hg hrule fun r hr => hmarks r (hall r hr)
  · rw [List.getD_eq_getElem?_getD,List.getElem?_getD_replicate_default_eq] at hid
    cases hid

theorem productive_iff (hg : g.WellFormed) {id : GroupId} :
    (productive g).getD id false = true ↔ g.HasExpansion id := by
  refine ⟨hasExpansion_of_productive hg,?_⟩
  rintro ⟨levels,hne⟩
  induction levels generalizing id with
  | zero => exact absurd rfl hne
  | succ levels ih =>
    obtain ⟨rule,hrule,hall⟩ := (Graph.derivations_succ_ne_nil hg).mp hne
    rw [← productive_fixed,getD_productiveStep]
    refine ⟨rule,hrule,fun r hr => ih ?_⟩
    rw [Graph.derivations_depth levels 0 1 r]
    exact hall r hr

end Lint

end PhraseGrammar
