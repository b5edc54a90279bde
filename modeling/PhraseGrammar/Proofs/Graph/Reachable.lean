import Mathlib.Algebra.BigOperators.Group.Finset.Basic
import Mathlib.Order.Bounds.Defs
import PhraseGrammar.Proofs.Graph.Edits

/-! Reachability with a stack. The group on top is dropped if it has a mark, otherwise it gets one
and its dependencies are pushed, so that a group may lie on the stack many times. The order in which
groups are taken up does not matter to the marks that are left in the end. -/
namespace PhraseGrammar
namespace Graph

open Relation

variable {g : Graph} {marks final final' : List Bool} {ids ids' stack : List GroupId}
  {root : GroupId} {pops pops' : Nat}

theorem Pending.congr (h : g.Pending marks ids) (hmem : ∀ id, id ∈ ids ↔ id ∈ ids') :
    g.Pending marks ids' :=
  fun i j hi hd hj => (h i j hi hd hj).imp_right (hmem j).mp

theorem sweep_congr (hlen : marks.length = g.size) (h : g.Pending marks ids)
    (hmem : ∀ id, id ∈ ids ↔ id ∈ ids') : g.sweep marks ids = g.sweep marks ids' := by
  refine marks_ext (by rw [length_sweep,length_sweep]) fun i => ?_
  rw [getElem?_sweep hlen h,getElem?_sweep hlen (h.congr hmem)]
  simp only [hmem]

/-- How many edges leave the marked groups. -/
def edgesFrom (g : Graph) (marks : List Bool) : Nat :=
  ∑ i ∈ (Finset.range g.size).filter fun i => marks[i]? = some true, (g.group i).dependencies.length

@[simp] theorem edgesFrom_start (g : Graph) : g.edgesFrom (List.replicate g.size false) = 0 := by
  simp [edgesFrom,List.getElem?_replicate]

theorem edgesFrom_set {id : GroupId} (hlt : id < g.size) (hid : marks[id]? = some false) :
    g.edgesFrom (marks.set id true) = (g.group id).dependencies.length + g.edgesFrom marks := by
  have hmarked : ((Finset.range g.size).filter fun i => (marks.set id true)[i]? = some true) =
      insert id ((Finset.range g.size).filter fun i => marks[i]? = some true) := by
    ext i
    by_cases he : id = i
    · subst he
      simp [hlt,(List.getElem?_eq_some_iff.mp hid).1]
    · simp [List.getElem?_set_ne he,Ne.symm he]
  have hfresh : id ∉ (Finset.range g.size).filter fun i => marks[i]? = some true := by
    simp [hid]
  rw [edgesFrom,hmarked,Finset.sum_insert hfresh,edgesFrom]

/-- The loop over a stack, the group on top first: how many groups it takes off until the stack is
empty, and which marks there are then. It stops short at a position that has no mark to look at. -/
inductive Pops (g : Graph) : List Bool → List GroupId → Nat → List Bool → Prop
  | done {marks : List Bool} : Pops g marks [] 0 marks
  | drop {marks final : List Bool} {id : GroupId} {stack : List GroupId} {pops : Nat} :
      marks[id]? = some true → Pops g marks stack pops final →
      Pops g marks (id :: stack) (pops + 1) final
  | visit {marks final : List Bool} {id : GroupId} {stack : List GroupId} {pops : Nat} :
      marks[id]? = some false →
      Pops g (marks.set id true) ((g.group id).dependencies.reverse ++ stack) pops final →
      Pops g marks (id :: stack) (pops + 1) final

theorem Pops.unique (h : g.Pops marks stack pops final) (h' : g.Pops marks stack pops' final') :
    pops = pops' ∧ final = final' := by
  induction h generalizing pops' with
  | done =>
    cases h' with
    | done => exact ⟨rfl,rfl⟩
  | drop hid _ ih =>
    cases h' with
    | drop _ h' =>
      obtain ⟨rfl,rfl⟩ := ih h'
      exact ⟨rfl,rfl⟩
    | visit hid' => cases hid.symm.trans hid'
  | visit hid _ ih =>
    cases h' with
    | drop hid' => cases hid.symm.trans hid'
    | visit _ h' =>
      obtain ⟨rfl,rfl⟩ := ih h'
      exact ⟨rfl,rfl⟩

/-- The loop ends with the marks of the sweep. A visit leaves fewer groups to mark, and a group that
is dropped a smaller stack; each edge from a group that gets a mark puts one group on the stack. -/
theorem exists_pops (hg : g.WellFormed) (hlen : marks.length = g.size)
    (hstack : ∀ id ∈ stack, id < g.size) (h : g.Pending marks stack) :
    ∃ pops, g.Pops marks stack pops (g.sweep marks stack) ∧
      pops + g.edgesFrom marks = stack.length + g.edgesFrom (g.sweep marks stack) := by
  induction hn : marks.count false using Nat.strong_induction_on generalizing marks stack with
  | h n ih =>
    induction stack with
    | nil =>
      rw [sweep]
      exact ⟨0,.done,rfl⟩
    | cons id stack ihstack =>
      obtain ⟨hlt,hstack⟩ := List.forall_mem_cons.mp hstack
      obtain ⟨mark,hid⟩ : ∃ mark, marks[id]? = some mark :=
        ⟨_,List.getElem?_eq_getElem (hlen ▸ hlt)⟩
      cases mark with
      | true =>
        have hskip : ¬ marks[id]? = some false := by simp [hid]
        obtain ⟨pops,hpops,hcount⟩ := ihstack hstack (h.skip hskip)
        rw [sweep,dif_neg hskip]
        refine ⟨pops + 1,.drop hid hpops,?_⟩
        rw [List.length_cons]
        omega
      | false =>
        have hlen' : (marks.set id true).length = g.size := by rw [List.length_set,hlen]
        have hmem (i : GroupId) : i ∈ (g.group id).dependencies ++ stack ↔
            i ∈ (g.group id).dependencies.reverse ++ stack := by simp
        have hpushed : ∀ i ∈ (g.group id).dependencies.reverse ++ stack, i < g.size := by
          intro i hi
          rcases List.mem_append.mp ((hmem i).mpr hi) with hi | hi
          · exact hg.lt_size_of_dependsOn hi
          · exact hstack i hi
        obtain ⟨pops,hpops,hcount⟩ :=
          ih _ (hn ▸ count_set_lt hid) hlen' hpushed (h.visit.congr hmem) rfl
        rw [sweep,dif_pos hid,sweep_congr hlen' h.visit hmem]
        refine ⟨pops + 1,.visit hid hpops,?_⟩
        rw [edgesFrom_set hlt hid,List.length_append,List.length_reverse] at hcount
        rw [List.length_cons]
        omega

/-- The set holds every group that a placeholder in a rule of one of its members names. -/
def Closed (g : Graph) (S : Set GroupId) : Prop :=
  ∀ i ∈ S, ∀ rule ∈ (g.group i).rules, ∀ p ∈ rule.template.placeholders,
    ∃ j ∈ S, g.idOf? p.symbol = some j

theorem WellFormed.dependsOn_iff_symbol (hg : g.WellFormed) {i j : GroupId} : g.DependsOn i j ↔
    ∃ rule ∈ (g.group i).rules, ∃ p ∈ rule.template.placeholders, g.idOf? p.symbol = some j := by
  rw [hg.dependsOn_iff]
  constructor
  · rintro ⟨rule,hrule,hj⟩
    obtain ⟨symbol,hsymbol,hname⟩ := forall₂_exists (hg.fits i rule hrule).references hj
    obtain ⟨p,hp,rfl⟩ := List.mem_map.mp hsymbol
    exact ⟨rule,hrule,p,hp,hg.idOf?_eq_some.mpr hname⟩
  · rintro ⟨rule,hrule,p,hp,hj⟩
    obtain ⟨k,hk⟩ := List.mem_iff_getElem?.mp hp
    obtain ⟨r,hr,hname⟩ := hg.idOf?_symbol hrule hk
    obtain rfl := Option.some.inj (hname.symm.trans hj)
    exact ⟨rule,hrule,List.mem_of_getElem? hr⟩

theorem WellFormed.closed_iff (hg : g.WellFormed) {S : Set GroupId} :
    g.Closed S ↔ ∀ i ∈ S, ∀ j, g.DependsOn i j → j ∈ S := by
  constructor
  · intro h i hi j hd
    obtain ⟨rule,hrule,p,hp,hj⟩ := hg.dependsOn_iff_symbol.mp hd
    obtain ⟨j',hmem,hj'⟩ := h i hi rule hrule p hp
    rwa [Option.some.inj (hj.symm.trans hj')]
  · intro h i hi rule hrule p hp
    obtain ⟨k,hk⟩ := List.mem_iff_getElem?.mp hp
    obtain ⟨j,-,hj⟩ := hg.idOf?_symbol hrule hk
    exact ⟨j,h i hi j (hg.dependsOn_iff_symbol.mpr ⟨rule,hrule,p,hp,hj⟩),hj⟩

theorem WellFormed.isLeast_reachable (hg : g.WellFormed) (root : GroupId) :
    IsLeast {S | root ∈ S ∧ g.Closed S} {i | ReflTransGen g.DependsOn root i} := by
  constructor
  · exact ⟨.refl,hg.closed_iff.mpr fun i hi j hd => hi.tail hd⟩
  · rintro S ⟨hroot,hS⟩ i hi
    induction hi with
    | refl => exact hroot
    | tail _ hd ih => exact hg.closed_iff.mp hS _ ih _ hd

/-- The loop from a root comes to its end: it takes off one group for the root and one for each edge
from a marked group. There is a mark for each group, and those are set that a path leads to, which
are the least set with the root and all groups that placeholders of its members name. -/
theorem reachableFrom_isLeast (hg : g.Reached) (hroot : root < g.size) :
    (∀ pops final, g.Pops (List.replicate g.size false) [root] pops final ↔
      pops = 1 + g.edgesFrom (g.reachableFrom root) ∧ final = g.reachableFrom root) ∧
    (g.reachableFrom root).length = g.size ∧
    (∀ i, (g.reachableFrom root)[i]? = some true ↔ ReflTransGen g.DependsOn root i) ∧
    IsLeast {S | root ∈ S ∧ g.Closed S} {i | (g.reachableFrom root)[i]? = some true} := by
  have hwf := hg.wellFormed
  have hmarked (i : GroupId) :
      (g.reachableFrom root)[i]? = some true ↔ ReflTransGen g.DependsOn root i := by
    rw [getElem?_reachableFrom]
    exact and_iff_right_of_imp (hwf.lt_size_of_reflTransGen hroot)
  obtain ⟨pops,hpops,hcount⟩ := exists_pops hwf List.length_replicate
    (List.forall_mem_singleton.mpr hroot) (g.pending_start [root])
  rw [edgesFrom_start,List.length_singleton,Nat.add_zero] at hcount
  refine ⟨fun pops' final => ⟨fun h => ?_,?_⟩,by simp [reachableFrom],hmarked,?_⟩
  · obtain ⟨rfl,rfl⟩ := hpops.unique h
    exact ⟨hcount,rfl⟩
  · rintro ⟨rfl,rfl⟩
    exact hcount ▸ hpops
  · simp only [hmarked]
    exact hwf.isLeast_reachable root

/-- Three groups that lead to each other and to themselves, and one that leads to them. -/
def carousel : Graph :=
  ((((empty.declare "a" ["#b# #c#","#b#"]).2.declare "b" ["#a#","#c#"]).2.declare "c"
    ["#c#!"]).2.declare "d" ["#a#"]).2

theorem reachableFrom_isLeast_carousel :
    carousel.reachableFrom 0 = [true,true,true,false] ∧
    carousel.edgesFrom [true,true,true,false] = 5 ∧
    carousel.Pops [false,false,false,false] [0] 6 [true,true,true,false] ∧
    IsLeast {S | 0 ∈ S ∧ carousel.Closed S} {0,1,2} := by
  have hsize : carousel.size = 4 := by decide +kernel
  have hreached : carousel.Reached :=
    (((Reached.empty.declare _ _).declare _ _).declare _ _).declare _ _
  have hroot : 0 < carousel.size := hsize ▸ by decide
  obtain ⟨hends,-,-,hleast⟩ := reachableFrom_isLeast hreached hroot
  rw [hsize] at hends
  have ha : (carousel.group 0).dependencies = [1,2] := by decide +kernel
  have hb : (carousel.group 1).dependencies = [0,2] := by decide +kernel
  have hc : (carousel.group 2).dependencies = [2] := by decide +kernel
  have hpops : carousel.Pops [false,false,false,false] [0] 6 [true,true,true,false] := by
    refine .visit rfl ?_
    rw [ha]
    refine .visit rfl ?_
    rw [hc]
    refine .drop rfl (.visit rfl ?_)
    rw [hb]
    exact .drop rfl (.drop rfl .done)
  obtain ⟨hcount,hmarks⟩ := (hends _ _).mp hpops
  rw [← hmarks] at hcount hleast
  refine ⟨hmarks.symm,by omega,hpops,?_⟩
  convert hleast using 1
  ext i
  match i with
  | 0 | 1 | 2 | 3 => simp
  | i + 4 => simp

end Graph

end PhraseGrammar
