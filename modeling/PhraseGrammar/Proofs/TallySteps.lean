import Mathlib.Algebra.Order.BigOperators.Group.List
import PhraseGrammar.Proofs.Tally

/-! The depth-first count as single changes of its table, on any graph. A group is entered, or the
next rule of an entered group gets a count; on a cycle that count is a product of totals that may
still grow. -/
namespace PhraseGrammar

namespace Tally

variable {t : Tally} {id : GroupId}

theorem lt_length_of_getD {counts : List Nat} (hid : t.getD id none = some counts) :
    id < t.length := by
  by_contra hge
  simp [List.getElem?_eq_none (Nat.le_of_not_lt hge)] at hid

theorem counts_eq {counts : List Nat} (hid : t.getD id none = some counts) :
    t.counts id = counts := by
  rw [Tally.counts,hid]
  rfl

theorem counts_enter (hid : t.getD id none = none) (other : GroupId) :
    (t.enter id).counts other = t.counts other := by
  rw [Tally.counts,Tally.counts,enter]
  by_cases he : id = other
  · subst he
    by_cases hlt : id < t.length
    · rw [getD_set_self hlt,hid]
      rfl
    · rw [List.set_eq_of_length_le (Nat.le_of_not_lt hlt)]
  · rw [getD_set_of_ne he]

theorem counts_add {counts : List Nat} (hid : t.getD id none = some counts) (count : Nat)
    (other : GroupId) :
    (t.add id count).counts other = if id = other then counts ++ [count] else t.counts other := by
  rw [Tally.counts,add,counts_eq hid]
  split
  · subst other
    rw [getD_set_self (lt_length_of_getD hid)]
    rfl
  · rw [getD_set_of_ne ‹_›]
    rfl

theorem total_eq_sum (t : Tally) (id : GroupId) : t.total id = (t.counts id).sum := rfl

end Tally

namespace Graph

open Relation

variable {g : Graph}

theorem ruleCount_mono {N M : GroupId → Nat} (h : ∀ i, N i ≤ M i) (rule : Rule) :
    ruleCount N rule ≤ ruleCount M rule :=
  List.prod_le_prod' fun r _ => h r

/-- One change of the table. -/
inductive TallyStep (g : Graph) : Tally → Tally → Prop
  | enter {t : Tally} {id : GroupId} (hid : t.getD id none = none) : g.TallyStep t (t.enter id)
  | add {t : Tally} {id : GroupId} {counts : List Nat} {rule : Rule} {count : Nat}
    (hid : t.getD id none = some counts)
    (hrule : (g.group id).rules[counts.length]? = some rule)
    (hcount : count ≤ ruleCount t.total rule) : g.TallyStep t (t.add id count)

theorem TallyStep.total_le {t t' : Tally} (h : g.TallyStep t t') (id : GroupId) :
    t.total id ≤ t'.total id := by
  simp only [Tally.total_eq_sum]
  cases h with
  | enter hid => rw [Tally.counts_enter hid]
  | add hid =>
    rw [Tally.counts_add hid]
    split
    · subst id
      simp [Tally.counts_eq hid]
    · exact Nat.le_refl _

theorem total_le_of_steps {t t' : Tally} (h : ReflTransGen g.TallyStep t t') (id : GroupId) :
    t.total id ≤ t'.total id := by
  induction h with
  | refl => exact Nat.le_refl _
  | tail _ hstep ih => exact ih.trans (hstep.total_le id)

/-- Every rule is counted, except in groups on `path`, which are still being counted. -/
structure Complete (g : Graph) (path : List GroupId) (t : Tally) : Prop where
  length : t.length = g.size
  counted : ∀ id counts, id ∉ path → t.getD id none = some counts →
    counts.length = (g.group id).rules.length

theorem complete_start (g : Graph) : g.Complete [] (.start g.size) := by
  refine ⟨by simp [Tally.start],fun id counts _ hc => ?_⟩
  rw [Tally.getD_start] at hc
  cases hc

theorem Complete.set {path : List GroupId} {id : GroupId} {t : Tally}
    (h : g.Complete (id :: path) t) (entry : Option (List Nat)) :
    g.Complete (id :: path) (t.set id entry) := by
  refine ⟨by simpa using h.length,fun other counts hpath hc => ?_⟩
  have hne : id ≠ other := fun he => hpath (he ▸ List.mem_cons_self)
  rw [Tally.getD_set_of_ne hne] at hc
  exact h.counted other counts hpath hc

theorem Complete.push {path : List GroupId} {t : Tally} (h : g.Complete path t) (id : GroupId) :
    g.Complete (id :: path) t :=
  ⟨h.length,fun other counts hpath hc =>
    h.counted other counts (fun hm => hpath (List.mem_cons_of_mem id hm)) hc⟩

theorem Complete.close {path : List GroupId} {id : GroupId} {t : Tally}
    (h : g.Complete (id :: path) t)
    (hid : ∀ counts, t.getD id none = some counts → counts.length = (g.group id).rules.length) :
    g.Complete path t := by
  refine ⟨h.length,fun other counts hpath hc => ?_⟩
  by_cases he : other = id
  · subst he
    exact hid counts hc
  · exact h.counted other counts (by simp [he,hpath]) hc

/-- What a visit does to the table while the groups on `path` are being counted. -/
structure Counted (g : Graph) (path : List GroupId) (t t' : Tally) : Prop where
  steps : ReflTransGen g.TallyStep t t'
  advances : t.Advances t'
  complete : g.Complete path t'

theorem Counted.trans {path : List GroupId} {t t' t'' : Tally} (h : g.Counted path t t')
    (h' : g.Counted path t' t'') : g.Counted path t t'' :=
  ⟨h.steps.trans h'.steps,h.advances.trans h'.advances,h'.complete⟩

section Visits

variable {visit : GroupId → Tally → Tally} {path : List GroupId} {id : GroupId}

/-- The product is at most the one of the totals after all visits, as these only grow. -/
theorem foldl_multiply_counted
    (hv : ∀ r t, g.Complete path t → g.Counted path t (visit r t)) (refs : List GroupId)
    {t : Tally} (ht : g.Complete path t) (c : Nat) :
    g.Counted path t (refs.foldl (multiply visit) (c,t)).2 ∧
      (refs.foldl (multiply visit) (c,t)).1 ≤
        c * (refs.map (refs.foldl (multiply visit) (c,t)).2.total).prod := by
  induction refs generalizing c t with
  | nil => exact ⟨⟨.refl,.refl t,ht⟩,by simp⟩
  | cons r refs ih =>
    have hr := hv r t ht
    obtain ⟨hrest,hprod⟩ := ih hr.complete (c * (visit r t).total r)
    refine ⟨hr.trans hrest,hprod.trans ?_⟩
    have htotal := total_le_of_steps hrest.steps r
    rw [List.foldl_cons,multiply,List.map_cons,List.prod_cons,Nat.mul_assoc]
    exact Nat.mul_le_mul_left c (Nat.mul_le_mul_right _ htotal)

theorem countRule_counted
    (hv : ∀ r t, g.Complete (id :: path) t → g.Counted (id :: path) t (visit r t)) {t₀ : Tally}
    (hid : t₀.getD id none = none) {t : Tally} (hadv : t₀.Advances t)
    (ht : g.Complete (id :: path) t) {before : List Nat}
    (hbefore : t.getD id none = some before) {rule : Rule}
    (hrule : (g.group id).rules[before.length]? = some rule) :
    ReflTransGen g.TallyStep t (countRule visit id t rule) ∧
      t₀.Advances (countRule visit id t rule) ∧
      g.Complete (id :: path) (countRule visit id t rule) ∧
      ∃ count, (countRule visit id t rule).getD id none = some (before ++ [count]) := by
  obtain ⟨hrefs,hprod⟩ := foldl_multiply_counted hv rule.references ht 1
  have hcount : countRule visit id t rule =
      (rule.references.foldl (multiply visit) (1,t)).2.add id
        (rule.references.foldl (multiply visit) (1,t)).1 := rfl
  generalize rule.references.foldl (multiply visit) (1,t) = result at hrefs hprod hcount
  have hkept := hrefs.advances.keeps id before hbefore
  have hstep : g.TallyStep result.2 (result.2.add id result.1) :=
    .add hkept hrule (hprod.trans_eq (Nat.one_mul _))
  rw [hcount]
  refine ⟨hrefs.steps.tail hstep,(hadv.trans hrefs.advances).set hid _,hrefs.complete.set _,
    result.1,?_⟩
  rw [Tally.add,Tally.counts_eq hkept,Tally.getD_set_self (Tally.lt_length_of_getD hkept)]

theorem foldl_countRule_counted
    (hv : ∀ r t, g.Complete (id :: path) t → g.Counted (id :: path) t (visit r t)) {t₀ : Tally}
    (hid : t₀.getD id none = none) {rules : List Rule} {t : Tally} (before : List Nat)
    (hrules : (g.group id).rules.drop before.length = rules) (hadv : t₀.Advances t)
    (ht : g.Complete (id :: path) t) (hbefore : t.getD id none = some before) :
    ReflTransGen g.TallyStep t (rules.foldl (countRule visit id) t) ∧
      t₀.Advances (rules.foldl (countRule visit id) t) ∧
      g.Complete (id :: path) (rules.foldl (countRule visit id) t) ∧
      ∃ counts, (rules.foldl (countRule visit id) t).getD id none = some counts ∧
        counts.length = before.length + rules.length := by
  induction rules generalizing t before with
  | nil => exact ⟨.refl,hadv,ht,before,hbefore,rfl⟩
  | cons rule rules ih =>
    have hrule : (g.group id).rules[before.length]? = some rule := by
      rw [← List.head?_drop,hrules]
      rfl
    obtain ⟨hsteps,hadv',ht',count,hcount⟩ := countRule_counted hv hid hadv ht hbefore hrule
    have hdrop : (g.group id).rules.drop (before ++ [count]).length = rules := by
      rw [List.length_append,← List.drop_drop,hrules]
      rfl
    obtain ⟨hrest,hadv'',ht'',counts,hcounts,hlength⟩ := ih _ hdrop hadv' ht' hcount
    refine ⟨hsteps.trans hrest,hadv'',ht'',counts,hcounts,?_⟩
    simp only [hlength,List.length_append,List.length_cons,List.length_nil]
    omega

end Visits

theorem countGroup_counted (depth : Nat) {path : List GroupId} (id : GroupId) {t : Tally}
    (ht : g.Complete path t) : g.Counted path t (g.countGroup depth id t) := by
  induction depth generalizing path id t with
  | zero => exact ⟨.refl,.refl t,ht⟩
  | succ depth ih =>
    rw [countGroup]
    split
    · exact ⟨.refl,.refl t,ht⟩
    · rename_i hid
      by_cases hlt : id < g.size
      · have hentered := Tally.getD_set_self (ht.length ▸ hlt) (some [])
        obtain ⟨hsteps,hadv,hcomplete,counts,hcounts,hlength⟩ :=
          foldl_countRule_counted (fun r t h => ih r h) hid [] rfl
            ((Tally.Advances.refl t).set hid (some [])) ((ht.push id).set (some [])) hentered
        refine ⟨.head (.enter hid) hsteps,hadv,hcomplete.close fun counts' hc => ?_⟩
        obtain rfl := Option.some.inj (hcounts.symm.trans hc)
        simpa using hlength
      · have hge := Nat.le_of_not_lt hlt
        have hsame : t.enter id = t := List.set_eq_of_length_le (ht.length ▸ hge)
        rw [group_of_size_le hge,hsame]
        exact ⟨.refl,.refl t,ht⟩

theorem foldl_countGroup_counted (depth : Nat) (ids : List GroupId) {t : Tally}
    (ht : g.Complete [] t) :
    g.Counted [] t (ids.foldl (fun t id => g.countGroup depth id t) t) := by
  induction ids generalizing t with
  | nil => exact ⟨.refl,.refl t,ht⟩
  | cons id ids ih =>
    have hid := countGroup_counted depth id ht
    exact hid.trans (ih hid.complete)

/-- The whole count is a run that leaves no entered group incomplete. -/
theorem tally_counted (g : Graph) : g.Counted [] (.start g.size) g.tally :=
  foldl_countGroup_counted g.size _ (complete_start g)

end Graph

end PhraseGrammar
