import PhraseGrammar.Proofs.TallySteps

/-! The count of a rule and the totals that its references have in the end, on any graph. The count
is at most their product. It is the product if no reference leads back to the group of the rule:
a group that is met while it is still being counted leads to the one that mentions it, so every
other total has its last value by the time it is multiplied. -/
namespace PhraseGrammar

theorem Tally.counts_add_cases {t : Tally} {id other : GroupId} {counts : List Nat}
    (hid : t.getD id none = some counts) {i count count' : Nat}
    (h : ((t.add id count).counts other)[i]? = some count') :
    (t.counts other)[i]? = some count' ∨ id = other ∧ i = counts.length ∧ count = count' := by
  rw [counts_add hid] at h
  split at h
  · subst other
    by_cases hi : i < counts.length
    · rw [List.getElem?_append_left hi,← counts_eq hid] at h
      exact .inl h
    · have hlt := (List.getElem?_eq_some_iff.mp h).1
      obtain rfl : i = counts.length := by
        simp at hlt
        omega
      exact .inr ⟨rfl,rfl,by simpa using h⟩
  · exact .inl h

theorem Tally.card_unvisited_le (t : Tally) (n : Nat) : (t.unvisited n).card ≤ n :=
  (Finset.card_filter_le _ _).trans (Finset.card_range n).le

namespace Graph

open Relation

variable {g : Graph} {t t' : Tally} {path : List GroupId} {id : GroupId} {rule : Rule} {count : Nat}

def Full (g : Graph) (t : Tally) (id : GroupId) : Prop :=
  ∃ counts, t.getD id none = some counts ∧ counts.length = (g.group id).rules.length

theorem Complete.full (h : g.Complete path t) (hpath : id ∉ path) (hid : t.getD id none ≠ none) :
    g.Full t id := by
  obtain ⟨counts,hc⟩ := Option.ne_none_iff_exists'.mp hid
  exact ⟨counts,hc,h.counted id counts hpath hc⟩

theorem Full.getD_step (h : g.Full t id) (hstep : g.TallyStep t t') :
    t'.getD id none = t.getD id none := by
  obtain ⟨counts,hc,hlength⟩ := h
  cases hstep with
  | enter hother =>
    refine Tally.getD_set_of_ne ?_ _
    rintro rfl
    cases hc.symm.trans hother
  | add hother hrule _ =>
    refine Tally.getD_set_of_ne ?_ _
    rintro rfl
    obtain rfl := Option.some.inj (hc.symm.trans hother)
    rw [hlength,List.getElem?_eq_none le_rfl] at hrule
    cases hrule

theorem Full.getD_steps (h : g.Full t id) (hsteps : ReflTransGen g.TallyStep t t') :
    t'.getD id none = t.getD id none := by
  induction hsteps with
  | refl => rfl
  | @tail t₁ t₂ _ hstep ih =>
    have h₁ : g.Full t₁ id := by rwa [Full,ih]
    exact (h₁.getD_step hstep).trans ih

theorem Full.steps (h : g.Full t id) (hsteps : ReflTransGen g.TallyStep t t') : g.Full t' id := by
  rwa [Full,h.getD_steps hsteps]

theorem Full.total_steps (h : g.Full t id) (hsteps : ReflTransGen g.TallyStep t t') :
    t'.total id = t.total id := by
  rw [Tally.total,Tally.total,Tally.counts,Tally.counts,h.getD_steps hsteps]

/-- The count is a product of totals that no longer change. -/
structure Final (g : Graph) (t : Tally) (rule : Rule) (count : Nat) : Prop where
  full : ∀ r ∈ rule.references, g.Full t r
  product : count = ruleCount t.total rule

theorem Final.steps (h : g.Final t rule count) (hsteps : ReflTransGen g.TallyStep t t') :
    g.Final t' rule count := by
  refine ⟨fun r hr => (h.full r hr).steps hsteps,h.product.trans ?_⟩
  rw [ruleCount,ruleCount,List.map_congr_left fun r hr => ((h.full r hr).total_steps hsteps).symm]

/-- No reference of the rule leads to the group. -/
def NoReturn (g : Graph) (id : GroupId) (rule : Rule) : Prop :=
  ∀ r ∈ rule.references, ¬ ReflTransGen g.DependsOn r id

/-- The counts of rules that do not lead back to their group are final. -/
def AllFinal (g : Graph) (t : Tally) : Prop :=
  ∀ (id : GroupId) (i count : Nat) (rule : Rule), (t.counts id)[i]? = some count →
    (g.group id).rules[i]? = some rule → g.NoReturn id rule → g.Final t rule count

theorem allFinal_start (g : Graph) : g.AllFinal (.start g.size) := by
  intro id i count rule hcount
  rw [Tally.counts,Tally.getD_start] at hcount
  cases hcount

theorem AllFinal.enter (h : g.AllFinal t) (hid : t.getD id none = none) :
    g.AllFinal (t.enter id) := by
  intro other i count rule hcount hrule haway
  rw [Tally.counts_enter hid] at hcount
  exact (h other i count rule hcount hrule haway).steps (.single (.enter hid))

theorem AllFinal.add (h : g.AllFinal t) {counts : List Nat} (hid : t.getD id none = some counts)
    (hrule : (g.group id).rules[counts.length]? = some rule)
    (hstep : g.TallyStep t (t.add id count))
    (hnew : g.NoReturn id rule → g.Final t rule count) : g.AllFinal (t.add id count) := by
  intro other i count' rule' hcount hrule' haway
  refine Final.steps ?_ (.single hstep)
  rcases Tally.counts_add_cases hid hcount with hcount | ⟨rfl,rfl,rfl⟩
  · exact h other i count' rule' hcount hrule' haway
  · obtain rfl := Option.some.inj (hrule.symm.trans hrule')
    exact hnew haway

/-- A group that was to be visited has an entry afterwards, where at most `depth` groups had
none. -/
theorem getD_countGroup {depth : Nat} (ht : g.Complete path t)
    (hcard : (t.unvisited g.size).card ≤ depth) (hlt : id < g.size) :
    (g.countGroup depth id t).getD id none ≠ none := by
  by_cases hid : t.getD id none = none
  · have hmem : id ∈ t.unvisited g.size := by
      simp only [Tally.unvisited,Finset.mem_filter,Finset.mem_range]
      exact ⟨hlt,hid⟩
    have hpos := (Finset.card_pos.mpr ⟨id,hmem⟩).trans_le hcard
    obtain ⟨depth,rfl⟩ := Nat.exists_eq_succ_of_ne_zero hpos.ne'
    have hentered := Tally.getD_set_self (ht.length ▸ hlt) (some [])
    obtain ⟨-,-,-,counts,hcounts,-⟩ :=
      foldl_countRule_counted (fun r t h => countGroup_counted depth r h) hid [] rfl
        ((Tally.Advances.refl t).set hid (some [])) ((ht.push id).set (some [])) hentered
    rw [countGroup,hid]
    exact Option.ne_none_iff_exists'.mpr ⟨counts,hcounts⟩
  · exact (countGroup_counted depth id ht).advances.visited hid

theorem full_foldl_countGroup {ids : List GroupId} (hids : ∀ id ∈ ids, id < g.size)
    (ht : g.Complete [] t) :
    ∀ id ∈ ids, g.Full (ids.foldl (fun t id => g.countGroup g.size id t) t) id := by
  induction ids generalizing t with
  | nil => exact fun _ hid => absurd hid List.not_mem_nil
  | cons id ids ih =>
    obtain ⟨hlt,hids⟩ := List.forall_mem_cons.mp hids
    have hcard := t.card_unvisited_le g.size
    have ht' := (countGroup_counted g.size id ht).complete
    have hfull := ht'.full List.not_mem_nil (getD_countGroup ht hcard hlt)
    exact List.forall_mem_cons.mpr
      ⟨hfull.steps (foldl_countGroup_counted g.size ids ht').steps,ih hids ht'⟩

theorem full_tally (hlt : id < g.size) : g.Full g.tally id :=
  full_foldl_countGroup (fun _ hi => List.mem_range.mp hi) (complete_start g) id
    (List.mem_range.mpr hlt)

theorem length_counts_of_full (h : g.Full t id) :
    (t.counts id).length = (g.group id).rules.length := by
  obtain ⟨counts,hc,hlength⟩ := h
  rw [Tally.counts_eq hc,hlength]

/-- A visit keeps the counts final when every group being counted leads to the visited one and at
most `bound` groups are left to visit. -/
def KeepsFinal (g : Graph) (bound : Nat) (visit : GroupId → Tally → Tally) : Prop :=
  ∀ path id t, g.Complete path t → g.AllFinal t → (∀ p ∈ path, ReflTransGen g.DependsOn p id) →
    (t.unvisited g.size).card ≤ bound → id < g.size →
    g.AllFinal (visit id t) ∧ (visit id t).getD id none ≠ none

section Steps

variable {bound : Nat} {visit : GroupId → Tally → Tally} (hg : g.WellFormed)
  (hv : ∀ path r t, g.Complete path t → g.Counted path t (visit r t))
  (hs : g.KeepsFinal bound visit) (hpath : ∀ p ∈ path, ReflTransGen g.DependsOn p id)
include hg hv hs hpath

theorem foldl_multiply_allFinal {refs : List GroupId} (hrefs : ∀ r ∈ refs, g.DependsOn id r)
    (ht : g.Complete (id :: path) t) (hfinal : g.AllFinal t)
    (hcard : (t.unvisited g.size).card ≤ bound) (c : Nat) :
    g.AllFinal (refs.foldl (multiply visit) (c,t)).2 ∧
      ((∀ r ∈ refs, ¬ ReflTransGen g.DependsOn r id) →
        (∀ r ∈ refs, g.Full (refs.foldl (multiply visit) (c,t)).2 r) ∧
        (refs.foldl (multiply visit) (c,t)).1 =
          c * (refs.map (refs.foldl (multiply visit) (c,t)).2.total).prod) := by
  induction refs generalizing c t with
  | nil => exact ⟨hfinal,fun _ => by simp⟩
  | cons r refs ih =>
    have hd := hrefs r List.mem_cons_self
    have hreach : ∀ p ∈ id :: path, ReflTransGen g.DependsOn p r :=
      List.forall_mem_cons.mpr ⟨.single hd,fun p hp => (hpath p hp).tail hd⟩
    have hr := hv (id :: path) r t ht
    obtain ⟨hfinal',hvisited⟩ :=
      hs (id :: path) r t ht hfinal hreach hcard (hg.lt_size_of_dependsOn hd)
    have hcard' := (Finset.card_le_card (hr.advances.unvisited_subset g.size)).trans hcard
    have hrefs' : ∀ r' ∈ refs, g.DependsOn id r' := fun r' hr' =>
      hrefs r' (List.mem_cons_of_mem r hr')
    obtain ⟨hrest,hproduct⟩ := ih hrefs' hr.complete hfinal' hcard' (c * (visit r t).total r)
    obtain ⟨hcounted,-⟩ := foldl_multiply_counted (fun r t h => hv (id :: path) r t h) refs
      hr.complete (c * (visit r t).total r)
    rw [List.foldl_cons,multiply]
    refine ⟨hrest,fun haway => ?_⟩
    obtain ⟨hback,haway⟩ := List.forall_mem_cons.mp haway
    have hout : r ∉ id :: path := by
      intro hmem
      rcases List.mem_cons.mp hmem with rfl | hmem
      · exact hback .refl
      · exact hback (hpath r hmem)
    have hfull := hr.complete.full hout hvisited
    obtain ⟨hfulls,hproduct⟩ := hproduct haway
    refine ⟨List.forall_mem_cons.mpr ⟨hfull.steps hcounted.steps,hfulls⟩,hproduct.trans ?_⟩
    rw [List.map_cons,List.prod_cons,hfull.total_steps hcounted.steps,Nat.mul_assoc]

theorem countRule_allFinal (ht : g.Complete (id :: path) t) (hfinal : g.AllFinal t)
    (hcard : (t.unvisited g.size).card ≤ bound) {before : List Nat}
    (hbefore : t.getD id none = some before)
    (hrule : (g.group id).rules[before.length]? = some rule) :
    g.AllFinal (countRule visit id t rule) := by
  have hrefs : ∀ r ∈ rule.references, g.DependsOn id r := fun r hr =>
    hg.dependsOn_iff.mpr ⟨rule,List.mem_of_getElem? hrule,hr⟩
  obtain ⟨hrest,hproduct⟩ := foldl_multiply_allFinal hg hv hs hpath hrefs ht hfinal hcard 1
  obtain ⟨hcounted,hle⟩ := foldl_multiply_counted (fun r t h => hv (id :: path) r t h)
    rule.references ht 1
  have hkept := hcounted.advances.keeps id before hbefore
  refine hrest.add hkept hrule (.add hkept hrule (hle.trans_eq (Nat.one_mul _))) fun haway => ?_
  obtain ⟨hfulls,hproduct⟩ := hproduct haway
  exact ⟨hfulls,hproduct.trans (Nat.one_mul _)⟩

theorem foldl_countRule_allFinal (hlt : id < g.size) {t₀ : Tally} (hid : t₀.getD id none = none)
    (hcard : (t₀.unvisited g.size).card ≤ bound + 1) {rules : List Rule} (before : List Nat)
    (hrules : (g.group id).rules.drop before.length = rules) (hadv : t₀.Advances t)
    (ht : g.Complete (id :: path) t) (hfinal : g.AllFinal t)
    (hbefore : t.getD id none = some before) :
    g.AllFinal (rules.foldl (countRule visit id) t) := by
  induction rules generalizing t before with
  | nil => exact hfinal
  | cons rule rules ih =>
    obtain ⟨hrule,hdrop⟩ := getElem?_of_drop hrules
    have hvisited := Option.ne_none_iff_exists'.mpr ⟨before,hbefore⟩
    have hcard' : (t.unvisited g.size).card ≤ bound :=
      Nat.le_of_lt_succ ((hadv.unvisited_lt hlt hid hvisited).trans_le hcard)
    have hfinal' := countRule_allFinal hg hv hs hpath ht hfinal hcard' hbefore hrule
    obtain ⟨-,hadv',ht',count,hcount⟩ :=
      countRule_counted (fun r t h => hv (id :: path) r t h) hid hadv ht hbefore hrule
    exact ih (before ++ [count]) (by simpa using hdrop) hadv' ht' hfinal' hcount

end Steps

theorem countGroup_keepsFinal (hg : g.WellFormed) (depth : Nat) :
    g.KeepsFinal depth (g.countGroup depth) := by
  induction depth with
  | zero =>
    intro path id t ht hfinal _ hcard hlt
    exact ⟨hfinal,getD_countGroup ht hcard hlt⟩
  | succ depth ih =>
    intro path id t ht hfinal hpath hcard hlt
    refine ⟨?_,getD_countGroup ht hcard hlt⟩
    rw [countGroup]
    split
    · exact hfinal
    · rename_i hid
      exact foldl_countRule_allFinal hg (fun _ r _ h => countGroup_counted depth r h) ih hpath hlt
        hid hcard [] rfl ((Tally.Advances.refl t).set hid (some [])) ((ht.push id).set (some []))
        (hfinal.enter hid) (Tally.getD_set_self (ht.length ▸ hlt) _)

theorem foldl_countGroup_allFinal (hg : g.WellFormed) {ids : List GroupId}
    (hids : ∀ id ∈ ids, id < g.size) (ht : g.Complete [] t) (hfinal : g.AllFinal t) :
    g.AllFinal (ids.foldl (fun t id => g.countGroup g.size id t) t) := by
  induction ids generalizing t with
  | nil => exact hfinal
  | cons id ids ih =>
    obtain ⟨hlt,hids⟩ := List.forall_mem_cons.mp hids
    obtain ⟨hfinal',-⟩ := countGroup_keepsFinal hg g.size [] id t ht hfinal (by simp)
      (t.card_unvisited_le g.size) hlt
    exact ih hids (countGroup_counted g.size id ht).complete hfinal'

theorem tally_allFinal (hg : g.WellFormed) : g.AllFinal g.tally :=
  foldl_countGroup_allFinal hg (fun _ hi => List.mem_range.mp hi) (complete_start g)
    (allFinal_start g)

/-- Every count is at most the product of the totals. -/
def Under (g : Graph) (t : Tally) : Prop :=
  ∀ (id : GroupId) (i count : Nat) (rule : Rule), (t.counts id)[i]? = some count →
    (g.group id).rules[i]? = some rule → count ≤ ruleCount t.total rule

theorem Under.step (h : g.Under t) (hstep : g.TallyStep t t') : g.Under t' := by
  intro other i count rule hcount hrule
  refine le_trans ?_ (ruleCount_mono hstep.total_le rule)
  cases hstep with
  | enter hid =>
    rw [Tally.counts_enter hid] at hcount
    exact h other i count rule hcount hrule
  | add hid hrule' hadded =>
    rcases Tally.counts_add_cases hid hcount with hcount | ⟨rfl,rfl,rfl⟩
    · exact h other i count rule hcount hrule
    · obtain rfl := Option.some.inj (hrule'.symm.trans hrule)
      exact hadded

theorem Under.steps (h : g.Under t) (hsteps : ReflTransGen g.TallyStep t t') : g.Under t' := by
  induction hsteps with
  | refl => exact h
  | tail _ hstep ih => exact ih.step hstep

theorem tally_under (g : Graph) : g.Under g.tally := by
  refine Under.steps ?_ (tally_counted g).steps
  intro id i count rule hcount
  rw [Tally.counts,Tally.getD_start] at hcount
  cases hcount

end Graph

end PhraseGrammar
