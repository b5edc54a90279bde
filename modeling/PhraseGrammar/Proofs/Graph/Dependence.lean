import Mathlib.Data.Finset.Card
import Mathlib.Data.Finset.Range
import Mathlib.Logic.Relation
import PhraseGrammar.Graph.Reachable
import PhraseGrammar.Proofs.Graph.WellFormed

/-! Dependency edges, what can be reached along them, and groups that no cycle can be reached from.
Such groups have a rank that every edge lowers. -/
namespace PhraseGrammar
namespace Graph

open Relation

def DependsOn (g : Graph) (id other : GroupId) : Prop := other ∈ (g.group id).dependencies

/-- No dependency cycle can be reached from the group. -/
def CycleFree (g : Graph) (id : GroupId) : Prop :=
  ∀ other, ReflTransGen g.DependsOn id other → ¬ TransGen g.DependsOn other other

theorem lt_size_of_dependsOn {g : Graph} {id other : GroupId} (h : g.DependsOn id other) :
    id < g.size := by
  by_contra hc
  simp [DependsOn,group_of_size_le (Nat.le_of_not_lt hc),Group.pending] at h

theorem lt_size_of_transGen {g : Graph} {id other : GroupId} (h : TransGen g.DependsOn id other) :
    id < g.size := by
  obtain ⟨next,hnext,-⟩ := TransGen.head'_iff.mp h
  exact lt_size_of_dependsOn hnext

theorem WellFormed.dependsOn_iff {g : Graph} (hg : g.WellFormed) {id other : GroupId} :
    g.DependsOn id other ↔ ∃ rule ∈ (g.group id).rules, other ∈ rule.references := by
  rw [DependsOn,hg.dependencies id,List.mem_eraseDups,List.mem_flatMap]

theorem WellFormed.lt_size_of_mem_references {g : Graph} (hg : g.WellFormed) {id other : GroupId}
    {rule : Rule} (hrule : rule ∈ (g.group id).rules) (hother : other ∈ rule.references) :
    other < g.size := by
  obtain ⟨symbol,-,hs⟩ := forall₂_exists (hg.fits id rule hrule).references hother
  exact lt_size_of_getElem?_names hs

theorem WellFormed.lt_size_of_dependsOn {g : Graph} (hg : g.WellFormed) {id other : GroupId}
    (h : g.DependsOn id other) : other < g.size := by
  obtain ⟨rule,hrule,hother⟩ := hg.dependsOn_iff.mp h
  exact hg.lt_size_of_mem_references hrule hother

theorem WellFormed.lt_size_of_reflTransGen {g : Graph} (hg : g.WellFormed) {i j : GroupId}
    (hi : i < g.size) (h : ReflTransGen g.DependsOn i j) : j < g.size := by
  cases h with
  | refl => exact hi
  | tail _ hd => exact hg.lt_size_of_dependsOn hd

theorem CycleFree.of_dependsOn {g : Graph} {id other : GroupId} (h : g.CycleFree id)
    (hd : g.DependsOn id other) : g.CycleFree other :=
  fun _ hr => h _ (ReflTransGen.head hd hr)

theorem CycleFree.not_back {g : Graph} {id other : GroupId} (h : g.CycleFree id)
    (hd : g.DependsOn id other) : ¬ ReflTransGen g.DependsOn other id :=
  fun hr => h id .refl (TransGen.head' hd hr)

theorem cycleFree_of_increasing {g : Graph} (members : List GroupId) {id : GroupId}
    (hid : id ∈ members)
    (h : ∀ i ∈ members, ∀ j ∈ (g.group i).dependencies, j ∈ members ∧ i < j) :
    g.CycleFree id := by
  intro other hr hcycle
  have hother : other ∈ members := by
    clear hcycle
    induction hr with
    | refl => exact hid
    | tail _ hd ih => exact (h _ ih _ hd).1
  have hlt : ∀ j, TransGen g.DependsOn other j → j ∈ members ∧ other < j := by
    intro j hj
    induction hj with
    | single hd => exact h _ hother _ hd
    | tail _ hd ih =>
      obtain ⟨hmem,hlt⟩ := ih
      obtain ⟨hmem',hlt'⟩ := h _ hmem _ hd
      exact ⟨hmem',hlt.trans hlt'⟩
  exact Nat.lt_irrefl other (hlt other hcycle).2

@[simp] theorem length_sweep (g : Graph) (marks : List Bool) (ids : List GroupId) :
    (g.sweep marks ids).length = marks.length := by
  fun_induction sweep g marks ids with
  | case1 => rfl
  | case2 marks id rest _ ih => simpa using ih
  | case3 marks id rest _ ih => exact ih

theorem sweep_mono {g : Graph} {marks : List Bool} {ids : List GroupId} {i : GroupId}
    (h : marks[i]? = some true) : (g.sweep marks ids)[i]? = some true := by
  fun_induction sweep g marks ids with
  | case1 => exact h
  | case2 marks id rest hid ih =>
    apply ih
    by_cases he : id = i
    · subst he
      simp [hid] at h
    · rwa [List.getElem?_set_ne he]
  | case3 marks id rest _ ih => exact ih h

theorem sweep_mem {g : Graph} {marks : List Bool} {ids : List GroupId} {i : GroupId}
    (hi : i ∈ ids) (hlt : i < marks.length) : (g.sweep marks ids)[i]? = some true := by
  fun_induction sweep g marks ids with
  | case1 => simp at hi
  | case2 marks id rest hid ih =>
    rcases List.mem_cons.mp hi with rfl | hi
    · exact sweep_mono (List.getElem?_set_self hlt)
    · exact ih (List.mem_append_right _ hi) (by simpa using hlt)
  | case3 marks id rest hid ih =>
    rcases List.mem_cons.mp hi with rfl | hi
    · apply sweep_mono
      rw [List.getElem?_eq_getElem hlt] at hid ⊢
      simpa using hid
    · exact ih hi hlt

/-- Everything marked leads only to what is marked or still to visit. -/
def Pending (g : Graph) (marks : List Bool) (ids : List GroupId) : Prop :=
  ∀ i j, marks[i]? = some true → g.DependsOn i j → j < marks.length →
    marks[j]? = some true ∨ j ∈ ids

theorem pending_start (g : Graph) (ids : List GroupId) :
    g.Pending (List.replicate g.size false) ids :=
  fun i j hi => by simp [List.getElem?_replicate] at hi

theorem Pending.visit {g : Graph} {marks : List Bool} {id : GroupId} {ids : List GroupId}
    (h : g.Pending marks (id :: ids)) :
    g.Pending (marks.set id true) ((g.group id).dependencies ++ ids) := by
  intro i j hi hd hj
  rw [List.length_set] at hj
  by_cases he : id = i
  · subst he
    exact .inr (List.mem_append_left _ hd)
  · rw [List.getElem?_set_ne he] at hi
    by_cases he' : id = j
    · subst he'
      exact .inl (List.getElem?_set_self hj)
    · rw [List.getElem?_set_ne he']
      rcases h i j hi hd hj with hm | hm
      · exact .inl hm
      · rcases List.mem_cons.mp hm with hm | hm
        · exact absurd hm.symm he'
        · exact .inr (List.mem_append_right _ hm)

theorem Pending.skip {g : Graph} {marks : List Bool} {id : GroupId} {ids : List GroupId}
    (h : g.Pending marks (id :: ids)) (hid : ¬ marks[id]? = some false) : g.Pending marks ids := by
  intro i j hi hd hj
  rcases h i j hi hd hj with hm | hm
  · exact .inl hm
  · rcases List.mem_cons.mp hm with rfl | hm
    · left
      rw [List.getElem?_eq_getElem hj] at hid ⊢
      simpa using hid
    · exact .inr hm

theorem sweep_closed {g : Graph} {marks : List Bool} {ids : List GroupId}
    (h : g.Pending marks ids) : g.Pending (g.sweep marks ids) [] := by
  fun_induction sweep g marks ids with
  | case1 => exact h
  | case2 marks id rest hid ih => exact ih h.visit
  | case3 marks id rest hid ih => exact ih (h.skip hid)

theorem sweep_sound {g : Graph} {marks : List Bool} {ids : List GroupId} {i : GroupId}
    (h : (g.sweep marks ids)[i]? = some true) :
    marks[i]? = some true ∨ ∃ id ∈ ids, ReflTransGen g.DependsOn id i := by
  fun_induction sweep g marks ids with
  | case1 => exact .inl h
  | case2 marks id rest hid ih =>
    rcases ih h with hm | ⟨next,hnext,hr⟩
    · by_cases he : id = i
      · subst he
        exact .inr ⟨id,by simp,.refl⟩
      · exact .inl (by rwa [List.getElem?_set_ne he] at hm)
    · rcases List.mem_append.mp hnext with hnext | hnext
      · exact .inr ⟨id,by simp,.head hnext hr⟩
      · exact .inr ⟨next,by simp [hnext],hr⟩
  | case3 marks id rest hid ih =>
    rcases ih h with hm | ⟨next,hnext,hr⟩
    · exact .inl hm
    · exact .inr ⟨next,by simp [hnext],hr⟩

theorem getElem?_sweep {g : Graph} {marks : List Bool} {ids : List GroupId}
    (hlen : marks.length = g.size) (h : g.Pending marks ids) {i : GroupId} :
    (g.sweep marks ids)[i]? = some true ↔ i < g.size ∧
      (marks[i]? = some true ∨ ∃ id ∈ ids, ReflTransGen g.DependsOn id i) := by
  constructor
  · intro hi
    have hlt := (List.getElem?_eq_some_iff.mp hi).1
    rw [length_sweep,hlen] at hlt
    exact ⟨hlt,sweep_sound hi⟩
  · rintro ⟨hlt,hm | ⟨id,hid,hr⟩⟩
    · exact sweep_mono hm
    · have hc : g.Pending (g.sweep marks ids) [] := sweep_closed h
      induction hr with
      | refl => exact sweep_mem hid (hlen ▸ hlt)
      | tail _ hd ih =>
        have hm := hc _ _ (ih (lt_size_of_dependsOn hd)) hd (by rwa [length_sweep,hlen])
        simpa using hm

/-- The marked groups are those that a path of dependency edges leads to. -/
theorem getElem?_reachableFrom {g : Graph} {root i : GroupId} :
    (g.reachableFrom root)[i]? = some true ↔ i < g.size ∧ ReflTransGen g.DependsOn root i := by
  rw [reachableFrom,getElem?_sweep List.length_replicate (g.pending_start _)]
  simp [List.getElem?_replicate]

theorem getD_reachableFrom {g : Graph} (hg : g.WellFormed) {root : GroupId} (hroot : root < g.size)
    {i : GroupId} :
    (g.reachableFrom root).getD i false = true ↔ ReflTransGen g.DependsOn root i := by
  rw [getD_eq_true,getElem?_reachableFrom]
  exact ⟨And.right,fun hr => ⟨hg.lt_size_of_reflTransGen hroot hr,hr⟩⟩

/-- How many groups can be reached, the group itself included. -/
def rank (g : Graph) (id : GroupId) : Nat :=
  ((Finset.range g.size).filter fun i => (g.reachableFrom id)[i]? = some true).card

theorem rank_le_size (g : Graph) (id : GroupId) : g.rank id ≤ g.size :=
  (Finset.card_filter_le _ _).trans (Finset.card_range _).le

theorem rank_pos {g : Graph} {id : GroupId} (h : id < g.size) : 0 < g.rank id :=
  Finset.card_pos.mpr ⟨id,by simp [getElem?_reachableFrom,h,ReflTransGen.refl]⟩

theorem CycleFree.rank_lt {g : Graph} {id other : GroupId} (h : g.CycleFree id)
    (hd : g.DependsOn id other) : g.rank other < g.rank id := by
  apply Finset.card_lt_card
  have hlt := Graph.lt_size_of_dependsOn hd
  refine Finset.ssubset_iff_of_subset ?_ |>.mpr ⟨id,?_,?_⟩
  · intro i hi
    simp only [Finset.mem_filter,getElem?_reachableFrom] at hi ⊢
    exact ⟨hi.1,hi.2.1,.head hd hi.2.2⟩
  · simp [getElem?_reachableFrom,hlt,ReflTransGen.refl]
  · simp only [Finset.mem_filter,getElem?_reachableFrom,not_and]
    exact fun _ _ => h.not_back hd

end Graph

end PhraseGrammar
