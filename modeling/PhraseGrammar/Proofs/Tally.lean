import Mathlib.Algebra.BigOperators.Group.List.Basic
import Mathlib.Algebra.Ring.Nat
import Mathlib.Data.List.GetD
import PhraseGrammar.Count
import PhraseGrammar.Proofs.Graph.Dependence

/-! The depth-first count on groups that no cycle can be reached from. While other groups are still
being counted, such a group never meets one of them, so its entry is complete once it is there. -/
namespace PhraseGrammar

namespace Tally

/-- A later table, which keeps every entry that is there. -/
structure Advances (t t' : Tally) : Prop where
  length : t'.length = t.length
  keeps : ∀ id counts, t.getD id none = some counts → t'.getD id none = some counts

theorem Advances.refl (t : Tally) : Advances t t := ⟨rfl,fun _ _ h => h⟩

theorem Advances.trans {t t' t'' : Tally} (h : Advances t t') (h' : Advances t' t'') :
    Advances t t'' :=
  ⟨h'.length.trans h.length,fun id counts hc => h'.keeps id counts (h.keeps id counts hc)⟩

theorem Advances.visited {t t' : Tally} (h : Advances t t') {id : GroupId}
    (hid : t.getD id none ≠ none) : t'.getD id none ≠ none := by
  obtain ⟨counts,hc⟩ := Option.ne_none_iff_exists'.mp hid
  rw [h.keeps id counts hc]
  exact Option.some_ne_none counts

theorem getD_start (n : Nat) (id : GroupId) : (start n).getD id none = none := by
  rw [start,List.getD_eq_getElem?_getD,List.getElem?_getD_replicate_default_eq]

theorem getD_set_self {t : Tally} {id : GroupId} (h : id < t.length) (entry : Option (List Nat)) :
    (t.set id entry).getD id none = entry := by
  simp [h]

theorem getD_set_of_ne {t : Tally} {id other : GroupId} (h : id ≠ other)
    (entry : Option (List Nat)) : (t.set id entry).getD other none = t.getD other none := by
  simp [h]

theorem Advances.set {t t' : Tally} (h : Advances t t') {id : GroupId}
    (hid : t.getD id none = none) (entry : Option (List Nat)) : Advances t (t'.set id entry) := by
  refine ⟨by simpa using h.length,fun other counts hc => ?_⟩
  have hne : id ≠ other := by
    rintro rfl
    rw [hid] at hc
    cases hc
  rw [getD_set_of_ne hne]
  exact h.keeps other counts hc

/-- The groups below `n` that have no entry yet. -/
def unvisited (t : Tally) (n : Nat) : Finset GroupId :=
  (Finset.range n).filter fun id => t.getD id none = none

theorem Advances.unvisited_subset {t t' : Tally} (h : Advances t t') (n : Nat) :
    t'.unvisited n ⊆ t.unvisited n := by
  intro id hid
  simp only [unvisited,Finset.mem_filter] at hid ⊢
  refine ⟨hid.1,?_⟩
  by_contra hc
  exact h.visited hc hid.2

theorem Advances.unvisited_lt {t t' : Tally} (h : Advances t t') {n : Nat} {id : GroupId}
    (hlt : id < n) (hid : t.getD id none = none) (hid' : t'.getD id none ≠ none) :
    (t'.unvisited n).card < (t.unvisited n).card := by
  apply Finset.card_lt_card
  refine (Finset.ssubset_iff_of_subset (h.unvisited_subset n)).mpr ⟨id,?_,?_⟩
  · simp only [unvisited,Finset.mem_filter,Finset.mem_range]
    exact ⟨hlt,hid⟩
  · simp only [unvisited,Finset.mem_filter,not_and]
    exact fun _ => hid'

end Tally

namespace Graph

open Relation

variable {g : Graph} {N : GroupId → Nat}

/-- The product over the references of a rule. -/
def ruleCount (N : GroupId → Nat) (rule : Rule) : Nat := (rule.references.map N).prod

/-- Complete entries are right for groups without cycles; those on `path` are still being
counted. -/
structure Sound (g : Graph) (N : GroupId → Nat) (path : List GroupId) (t : Tally) : Prop where
  length : t.length = g.size
  right : ∀ id counts, g.CycleFree id → id ∉ path → t.getD id none = some counts →
    counts = (g.group id).rules.map (ruleCount N)

theorem Sound.set {path : List GroupId} {id : GroupId} {t : Tally}
    (h : g.Sound N (id :: path) t) (entry : Option (List Nat)) :
    g.Sound N (id :: path) (t.set id entry) := by
  refine ⟨by simpa using h.length,fun other counts hfree hpath hc => ?_⟩
  have hne : id ≠ other := fun he => hpath (he ▸ List.mem_cons_self)
  rw [Tally.getD_set_of_ne hne] at hc
  exact h.right other counts hfree hpath hc

theorem Sound.push {path : List GroupId} {t : Tally} (h : g.Sound N path t) (id : GroupId) :
    g.Sound N (id :: path) t :=
  ⟨h.length,fun other counts hfree hpath hc =>
    h.right other counts hfree (fun hm => hpath (List.mem_cons_of_mem id hm)) hc⟩

theorem Sound.close {path : List GroupId} {id : GroupId} {t : Tally}
    (h : g.Sound N (id :: path) t)
    (hid : g.CycleFree id → t.getD id none = some ((g.group id).rules.map (ruleCount N))) :
    g.Sound N path t := by
  refine ⟨h.length,fun other counts hfree hpath hc => ?_⟩
  by_cases he : other = id
  · subst he
    rw [hid hfree] at hc
    exact (Option.some.inj hc).symm
  · exact h.right other counts hfree (by simp [he,hpath]) hc

/-- What a visit of `id` leaves. -/
structure Visited (g : Graph) (N : GroupId → Nat) (path : List GroupId) (id : GroupId)
    (t t' : Tally) : Prop where
  advances : t.Advances t'
  sound : g.Sound N path t'
  visited : t'.getD id none ≠ none

/-- A visit keeps the table sound when every group being counted leads to the visited one and at
most `bound` groups are left to visit. -/
def Visits (g : Graph) (N : GroupId → Nat) (bound : Nat) (visit : GroupId → Tally → Tally) : Prop :=
  ∀ path id t, g.Sound N path t → (∀ p ∈ path, ReflTransGen g.DependsOn p id) →
    (t.unvisited g.size).card ≤ bound → id < g.size → g.Visited N path id t (visit id t)

theorem CycleFree.not_mem_path {path : List GroupId} {id r : GroupId} (h : g.CycleFree r)
    (hd : g.DependsOn id r) (hpath : ∀ p ∈ path, ReflTransGen g.DependsOn p id) :
    r ∉ id :: path := by
  intro hmem
  have hback : ReflTransGen g.DependsOn r id := by
    rcases List.mem_cons.mp hmem with rfl | hmem
    · exact .refl
    · exact hpath r hmem
  exact h r .refl (TransGen.tail' hback hd)

section Steps

variable {bound : Nat} {visit : GroupId → Tally → Tally} {path : List GroupId} {id : GroupId}

theorem foldl_multiply (hg : g.WellFormed) (hv : g.Visits N bound visit)
    (hN : ∀ i, g.CycleFree i → ((g.group i).rules.map (ruleCount N)).sum = N i)
    (hpath : ∀ p ∈ path, ReflTransGen g.DependsOn p id) {refs : List GroupId}
    (hrefs : ∀ r ∈ refs, g.DependsOn id r) {t : Tally} (ht : g.Sound N (id :: path) t)
    (hcard : (t.unvisited g.size).card ≤ bound) (c : Nat) :
    t.Advances (refs.foldl (multiply visit) (c,t)).2 ∧
      g.Sound N (id :: path) (refs.foldl (multiply visit) (c,t)).2 ∧
      (g.CycleFree id → (refs.foldl (multiply visit) (c,t)).1 = c * (refs.map N).prod) := by
  induction refs generalizing c t with
  | nil => exact ⟨.refl t,ht,fun _ => by simp⟩
  | cons r refs ih =>
    have hd := hrefs r List.mem_cons_self
    have hreach : ∀ p ∈ id :: path, ReflTransGen g.DependsOn p r := by
      intro p hp
      rcases List.mem_cons.mp hp with rfl | hp
      · exact .single hd
      · exact (hpath p hp).tail hd
    have hr := hv (id :: path) r t ht hreach hcard (hg.lt_size_of_dependsOn hd)
    have hcard' := (Finset.card_le_card (hr.advances.unvisited_subset g.size)).trans hcard
    obtain ⟨hadv,hsound,hprod⟩ := ih (fun r' hr' => hrefs r' (List.mem_cons_of_mem r hr'))
      hr.sound hcard' (c * (visit r t).total r)
    refine ⟨hr.advances.trans hadv,hsound,fun hfree => ?_⟩
    have hfree' := hfree.of_dependsOn hd
    obtain ⟨counts,hcounts⟩ := Option.ne_none_iff_exists'.mp hr.visited
    have htotal : (visit r t).total r = N r := by
      rw [Tally.total,Tally.counts,hcounts,← hN r hfree',
        ← hr.sound.right r counts hfree' (hfree'.not_mem_path hd hpath) hcounts]
      rfl
    rw [List.foldl_cons,multiply]
    exact (hprod hfree).trans (by rw [htotal,List.map_cons,List.prod_cons,Nat.mul_assoc])

theorem foldl_countRule (hg : g.WellFormed) (hv : g.Visits N bound visit)
    (hN : ∀ i, g.CycleFree i → ((g.group i).rules.map (ruleCount N)).sum = N i)
    (hpath : ∀ p ∈ path, ReflTransGen g.DependsOn p id) (hlt : id < g.size) {t₀ : Tally}
    (hid : t₀.getD id none = none) (hcard : (t₀.unvisited g.size).card ≤ bound + 1)
    {rules : List Rule} (hrules : ∀ rule ∈ rules, ∀ r ∈ rule.references, g.DependsOn id r)
    {t : Tally} (hadv : t₀.Advances t) (ht : g.Sound N (id :: path) t) {before : List Nat}
    (hbefore : t.getD id none = some before) :
    t₀.Advances (rules.foldl (countRule visit id) t) ∧
      g.Sound N (id :: path) (rules.foldl (countRule visit id) t) ∧
      ∃ counts, (rules.foldl (countRule visit id) t).getD id none = some (before ++ counts) ∧
        (g.CycleFree id → counts = rules.map (ruleCount N)) := by
  induction rules generalizing t before with
  | nil => exact ⟨hadv,ht,[],by simpa using hbefore,fun _ => rfl⟩
  | cons rule rules ih =>
    have hvisited := Option.ne_none_iff_exists'.mpr ⟨before,hbefore⟩
    have hcard' : (t.unvisited g.size).card ≤ bound :=
      Nat.le_of_lt_succ ((hadv.unvisited_lt hlt hid hvisited).trans_le hcard)
    obtain ⟨hstep,hsound,hprod⟩ := foldl_multiply hg hv hN hpath
      (hrules rule List.mem_cons_self) ht hcard' 1
    have hkept := hstep.keeps id before hbefore
    have hadv' := hadv.trans hstep
    have hcount : countRule visit id t rule =
        (rule.references.foldl (multiply visit) (1,t)).2.set id
          (some (before ++ [(rule.references.foldl (multiply visit) (1,t)).1])) := by
      change (rule.references.foldl (multiply visit) (1,t)).2.set id _ = _
      rw [Tally.counts,hkept]
      rfl
    have hlen : id < (rule.references.foldl (multiply visit) (1,t)).2.length := by
      rw [hsound.length]
      exact hlt
    rw [List.foldl_cons,hcount]
    obtain ⟨hrest,hsound',counts,hcounts,hright⟩ := ih
      (fun rule' hrule' => hrules rule' (List.mem_cons_of_mem rule hrule'))
      ((hadv.trans hstep).set hid _) (hsound.set _) (Tally.getD_set_self hlen _)
    refine ⟨hrest,hsound',_ :: counts,by rw [hcounts,List.append_assoc]; rfl,fun hfree => ?_⟩
    rw [hright hfree,hprod hfree,Nat.one_mul]
    rfl

end Steps

/-- The count keeps its table sound, and its depth always suffices. -/
theorem countGroup_visits (hg : g.WellFormed)
    (hN : ∀ i, g.CycleFree i → ((g.group i).rules.map (ruleCount N)).sum = N i) (depth : Nat) :
    g.Visits N depth (g.countGroup depth) := by
  induction depth with
  | zero =>
    intro path id t ht hpath hcard hlt
    refine ⟨.refl t,ht,fun hid => ?_⟩
    have hmem : id ∈ t.unvisited g.size := by
      simp only [Tally.unvisited,Finset.mem_filter,Finset.mem_range]
      exact ⟨hlt,hid⟩
    rw [Finset.card_eq_zero.mp (Nat.le_zero.mp hcard)] at hmem
    simp at hmem
  | succ depth ih =>
    intro path id t ht hpath hcard hlt
    rw [countGroup]
    split
    · rename_i counts hc
      exact ⟨.refl t,ht,Option.ne_none_iff_exists'.mpr ⟨counts,hc⟩⟩
    · rename_i hid
      have hlen : id < t.length := ht.length ▸ hlt
      have hdeps : ∀ rule ∈ (g.group id).rules, ∀ r ∈ rule.references, g.DependsOn id r :=
        fun rule hrule r hr => hg.dependsOn_iff.mpr ⟨rule,hrule,hr⟩
      obtain ⟨hadv,hsound,counts,hcounts,hright⟩ := foldl_countRule hg ih hN hpath hlt hid hcard
        hdeps ((Tally.Advances.refl t).set hid (some [])) ((ht.push id).set (some []))
        (Tally.getD_set_self hlen _)
      refine ⟨hadv,hsound.close fun hfree => ?_,Option.ne_none_iff_exists'.mpr ⟨_,hcounts⟩⟩
      rw [hright hfree] at hcounts
      exact hcounts

theorem sound_start (g : Graph) (N : GroupId → Nat) : g.Sound N [] (.start g.size) := by
  refine ⟨by simp [Tally.start],fun i counts _ _ hc => ?_⟩
  rw [Tally.getD_start] at hc
  cases hc

theorem foldl_countGroup (hg : g.WellFormed)
    (hN : ∀ i, g.CycleFree i → ((g.group i).rules.map (ruleCount N)).sum = N i)
    {ids : List GroupId} (hids : ∀ i ∈ ids, i < g.size) {t : Tally} (ht : g.Sound N [] t) :
    g.Sound N [] (ids.foldl (fun t id => g.countGroup g.size id t) t) ∧
      t.Advances (ids.foldl (fun t id => g.countGroup g.size id t) t) ∧
      ∀ i ∈ ids, (ids.foldl (fun t id => g.countGroup g.size id t) t).getD i none ≠ none := by
  induction ids generalizing t with
  | nil => exact ⟨ht,.refl t,by simp⟩
  | cons i ids ih =>
    have hcard : (t.unvisited g.size).card ≤ g.size :=
      (Finset.card_filter_le _ _).trans (Finset.card_range _).le
    have hi := countGroup_visits hg hN g.size [] i t ht (by simp) hcard
      (hids i List.mem_cons_self)
    obtain ⟨hsound,hadv,hvisited⟩ := ih (fun j hj => hids j (List.mem_cons_of_mem i hj)) hi.sound
    refine ⟨hsound,hi.advances.trans hadv,fun j hj => ?_⟩
    rcases List.mem_cons.mp hj with rfl | hj
    · exact hadv.visited hi.visited
    · exact hvisited j hj

theorem counts_tally (hg : g.WellFormed)
    (hN : ∀ i, g.CycleFree i → ((g.group i).rules.map (ruleCount N)).sum = N i) {id : GroupId}
    (hlt : id < g.size) (hfree : g.CycleFree id) :
    g.tally.counts id = (g.group id).rules.map (ruleCount N) := by
  obtain ⟨hsound,-,hvisited⟩ := foldl_countGroup hg hN
    (fun i hi => List.mem_range.mp hi) (sound_start g N)
  obtain ⟨counts,hc⟩ := Option.ne_none_iff_exists'.mp (hvisited id (List.mem_range.mpr hlt))
  rw [Tally.counts,tally,hc,← hsound.right id counts hfree (by simp) hc]
  rfl

end Graph

end PhraseGrammar
