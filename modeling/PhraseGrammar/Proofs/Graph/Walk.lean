import PhraseGrammar.Graph.Recursive
import PhraseGrammar.Proofs.Graph.Dependence

/-! Depth-first walks and their runs. The open groups stand on a stack in the order in which they
were opened, and a visit closes its component or leaves it open. A run is given without a bound on
its depth; the bound is never met, as there are no more groups to open than there are. -/
namespace PhraseGrammar
namespace Graph

open Relation

variable {g : Graph}

namespace Walk

theorem mark_eq_of_ne_closed {w : Walk} {id : GroupId} (h : w.mark id ≠ .closed) :
    w.marks[id]? = some (w.mark id) := by
  unfold mark at h ⊢
  rw [List.getD_eq_getElem?_getD] at h ⊢
  cases hm : w.marks[id]? with
  | none => simp [hm] at h
  | some m => rfl

theorem lt_length_of_ne_closed {w : Walk} {id : GroupId} (h : w.mark id ≠ .closed) :
    id < w.marks.length := (List.getElem?_eq_some_iff.mp (mark_eq_of_ne_closed h)).1

theorem mark_openGroup_self {w : Walk} {id : GroupId} (h : w.mark id = .fresh) :
    (w.openGroup id).mark id = .opened w.serial := by
  have hlt : id < w.marks.length := lt_length_of_ne_closed (by simp [h])
  simp [openGroup,mark,hlt]

theorem mark_openGroup_of_ne {w : Walk} {id other : GroupId} (h : id ≠ other) :
    (w.openGroup id).mark other = w.mark other := by
  simp [openGroup,mark,h]

theorem mark_closeComponent (w : Walk) (id : GroupId) (loop : Bool) (i : GroupId) :
    (w.closeComponent id loop).mark i = if i ∈ w.component id then .closed else w.mark i := by
  unfold closeComponent mark
  rw [List.getD_eq_getElem?_getD,List.getD_eq_getElem?_getD,getElem?_foldl_set]
  split
  · cases w.marks[i]? <;> rfl
  · rfl

/-- What holds of the walk between two steps. -/
structure Consistent (g : Graph) (w : Walk) : Prop where
  length_marks : w.marks.length = g.size
  length_recursive : w.recursive.length = g.size
  mem_stack : ∀ id, id ∈ w.stack ↔ ∃ serial, w.mark id = .opened serial
  sorted : w.stack.Pairwise fun a b =>
    ∀ m n, w.mark a = .opened m → w.mark b = .opened n → n < m
  bounded : ∀ id serial, w.mark id = .opened serial → serial < w.serial
  closed : ∀ i j, w.mark i = .closed → g.DependsOn i j → w.mark j = .closed
  recursive : ∀ i, w.recursive[i]? = some true ↔
    w.mark i = .closed ∧ TransGen g.DependsOn i i

theorem Consistent.nodup {w : Walk} (h : w.Consistent g) : w.stack.Nodup := by
  refine h.sorted.imp_of_mem fun ha hb hab he => ?_
  subst he
  obtain ⟨serial,hs⟩ := (h.mem_stack _).mp ha
  exact Nat.lt_irrefl _ (hab serial serial hs hs)

theorem Consistent.closed_of_reflTransGen {w : Walk} (h : w.Consistent g) {i j : GroupId}
    (hi : w.mark i = .closed) (hr : ReflTransGen g.DependsOn i j) : w.mark j = .closed := by
  induction hr with
  | refl => exact hi
  | tail _ hd ih => exact h.closed _ _ ih hd

theorem consistent_start (g : Graph) : (start g.size).Consistent g := by
  have hmark (id : GroupId) (h : id < g.size) : (start g.size).mark id = .fresh := by
    simp [start,mark,h]
  have hout (id : GroupId) (h : ¬ id < g.size) : (start g.size).mark id = .closed := by
    simp [start,mark,Nat.le_of_not_lt h]
  have hopened (id : GroupId) (serial : Nat) : (start g.size).mark id ≠ .opened serial := by
    by_cases h : id < g.size
    · simp [hmark id h]
    · simp [hout id h]
  have hclosed {id : GroupId} (h : (start g.size).mark id = .closed) : ¬ id < g.size := by
    intro hlt
    simp [hmark id hlt] at h
  constructor
  · simp [start]
  · simp [start]
  · intro id
    simp only [hopened,exists_false,iff_false]
    simp [start]
  · exact .nil
  · exact fun id serial h => absurd h (hopened id serial)
  · exact fun i j hi hd => absurd (lt_size_of_dependsOn hd) (hclosed hi)
  · intro i
    constructor
    · intro h
      simp [start,List.getElem?_replicate] at h
    · exact fun h => absurd (lt_size_of_transGen h.2) (hclosed h.1)

theorem Consistent.openGroup {w : Walk} (h : w.Consistent g) {id : GroupId}
    (hid : w.mark id = .fresh) : (w.openGroup id).Consistent g := by
  have hne {other : GroupId} (ho : w.mark other ≠ .fresh) : id ≠ other := by
    rintro rfl
    exact ho hid
  have hself := mark_openGroup_self hid
  constructor
  · simpa [Walk.openGroup] using h.length_marks
  · exact h.length_recursive
  · intro other
    by_cases he : id = other
    · subst he
      exact ⟨fun _ => ⟨_,hself⟩,fun _ => List.mem_cons_self⟩
    · rw [mark_openGroup_of_ne he,← h.mem_stack]
      simp [Walk.openGroup,Ne.symm he]
  · refine List.pairwise_cons.mpr ⟨fun other hother m n hm hn => ?_,?_⟩
    · obtain ⟨serial,hs⟩ := (h.mem_stack other).mp hother
      rw [mark_openGroup_of_ne (hne (by simp [hs])),hs] at hn
      rw [hself] at hm
      obtain rfl := Mark.opened.inj hm
      obtain rfl := Mark.opened.inj hn
      exact h.bounded other _ hs
    · refine h.sorted.imp_of_mem fun ha hb hab m n hm hn => ?_
      obtain ⟨_,hsa⟩ := (h.mem_stack _).mp ha
      obtain ⟨_,hsb⟩ := (h.mem_stack _).mp hb
      rw [mark_openGroup_of_ne (hne (by simp [hsa]))] at hm
      rw [mark_openGroup_of_ne (hne (by simp [hsb]))] at hn
      exact hab m n hm hn
  · intro other serial hs
    by_cases he : id = other
    · subst he
      rw [hself] at hs
      obtain rfl := Mark.opened.inj hs
      exact Nat.lt_succ_self _
    · rw [mark_openGroup_of_ne he] at hs
      exact Nat.lt_succ_of_lt (h.bounded other serial hs)
  · intro i j hi hd
    have hi' : id ≠ i := by
      rintro rfl
      simp [hself] at hi
    rw [mark_openGroup_of_ne hi'] at hi
    have hj := h.closed i j hi hd
    rw [mark_openGroup_of_ne (hne (by simp [hj])),hj]
  · intro i
    rw [show (w.openGroup id).recursive = w.recursive from rfl,h.recursive]
    by_cases he : id = i
    · subst he
      simp [hself,hid]
    · rw [mark_openGroup_of_ne he]

end Walk

/-- What a visit of `id` ends with, once its dependencies have been followed: the component is
closed if nothing opened before `id` was seen. -/
def settle (g : Graph) (id : GroupId) (serial : Nat) (state : Nat × Walk) : Walk :=
  if state.1 = serial then state.2.closeComponent id ((g.group id).dependencies.contains id)
  else state.2

/-- A complete run over dependencies, from one state to another; `visited` are the groups visited
on the way, in the order in which they are opened. -/
inductive Follows (g : Graph) : List GroupId → Nat × Walk → Nat × Walk → List GroupId → Prop
  | nil (state : Nat × Walk) : Follows g [] state state []
  | fresh {id : GroupId} {ids : List GroupId} {low : Nat} {w : Walk} {inner last : Nat × Walk}
    {visited visited' : List GroupId} (hm : w.mark id = .fresh)
    (hin : Follows g (g.group id).dependencies (w.serial,w.openGroup id) inner visited)
    (hrest : Follows g ids (min low inner.1,g.settle id w.serial inner) last visited') :
    Follows g (id :: ids) (low,w) last (id :: visited ++ visited')
  | opened {id : GroupId} {ids : List GroupId} {low serial : Nat} {w : Walk} {last : Nat × Walk}
    {visited : List GroupId} (hm : w.mark id = .opened serial)
    (hrest : Follows g ids (min low serial,w) last visited) :
    Follows g (id :: ids) (low,w) last visited
  | closed {id : GroupId} {ids : List GroupId} {low : Nat} {w : Walk} {last : Nat × Walk}
    {visited : List GroupId} (hm : w.mark id = .closed)
    (hrest : Follows g ids (low,w) last visited) : Follows g (id :: ids) (low,w) last visited

namespace Walk

/-- The groups that have not been visited. -/
def fresh (w : Walk) : Finset GroupId :=
  (Finset.range w.marks.length).filter fun id => w.mark id = .fresh

theorem mem_fresh {w : Walk} {id : GroupId} : id ∈ w.fresh ↔ w.mark id = .fresh := by
  simp only [fresh,Finset.mem_filter,Finset.mem_range,and_iff_right_iff_imp]
  exact fun h => lt_length_of_ne_closed (by simp [h])

theorem fresh_settle_subset (g : Graph) (id : GroupId) (serial : Nat) (state : Nat × Walk) :
    (g.settle id serial state).fresh ⊆ state.2.fresh := by
  intro i hi
  rw [mem_fresh] at hi ⊢
  unfold settle at hi
  split at hi
  · rw [mark_closeComponent] at hi
    split at hi
    · cases hi
    · exact hi
  · exact hi

theorem fresh_openGroup_ssubset {w : Walk} {id : GroupId} (h : w.mark id = .fresh) :
    (w.openGroup id).fresh ⊂ w.fresh := by
  refine (Finset.ssubset_iff_of_subset fun i hi => ?_).mpr ⟨id,mem_fresh.mpr h,?_⟩
  · rw [mem_fresh] at hi ⊢
    by_cases he : id = i
    · exact he ▸ h
    · rwa [mark_openGroup_of_ne he] at hi
  · rw [mem_fresh,mark_openGroup_self h]
    simp

end Walk

theorem Follows.fresh_subset {ids : List GroupId} {first last : Nat × Walk}
    {visited : List GroupId} (h : g.Follows ids first last visited) :
    last.2.fresh ⊆ first.2.fresh := by
  induction h with
  | nil => exact Finset.Subset.refl _
  | fresh hm _ _ ihin ihrest =>
    exact (ihrest.trans (Walk.fresh_settle_subset ..)).trans
      (ihin.trans (Walk.fresh_openGroup_ssubset hm).subset)
  | opened _ _ ih => exact ih
  | closed _ _ ih => exact ih

theorem visit_succ (depth : Nat) (id : GroupId) (w : Walk) (inner : Nat × Walk)
    (h : (g.group id).dependencies.foldl (follow (g.visit depth)) (w.serial,w.openGroup id) =
      inner) : g.visit (depth + 1) id w = (inner.1,g.settle id w.serial inner) := by
  subst h
  simp only [visit,settle]
  split <;> rfl

theorem exists_follows_of_visit (depth : Nat)
    (hvisit : ∀ id w, w.mark id = .fresh → w.fresh.card ≤ depth → ∃ inner visited,
      g.visit depth id w = (inner.1,g.settle id w.serial inner) ∧
      g.Follows (g.group id).dependencies (w.serial,w.openGroup id) inner visited)
    (ids : List GroupId) (low : Nat) (w : Walk) (h : w.fresh.card ≤ depth) :
    ∃ visited, g.Follows ids (low,w) (ids.foldl (follow (g.visit depth)) (low,w)) visited := by
  induction ids generalizing low w with
  | nil => exact ⟨[],.nil _⟩
  | cons id ids ih =>
    rw [List.foldl_cons]
    cases hm : w.mark id with
    | fresh =>
      obtain ⟨inner,visited,he,hin⟩ := hvisit id w hm h
      have hsub := (Walk.fresh_settle_subset g id w.serial inner).trans hin.fresh_subset
      have hcard := (Finset.card_le_card
        (hsub.trans (Walk.fresh_openGroup_ssubset hm).subset)).trans h
      obtain ⟨visited',hrest⟩ := ih (min low inner.1) _ hcard
      refine ⟨id :: visited ++ visited',.fresh hm hin ?_⟩
      simpa [follow,hm,he] using hrest
    | opened serial =>
      obtain ⟨visited,hrest⟩ := ih (min low serial) w h
      exact ⟨visited,.opened hm (by simpa [follow,hm] using hrest)⟩
    | closed =>
      obtain ⟨visited,hrest⟩ := ih low w h
      exact ⟨visited,.closed hm (by simpa [follow,hm] using hrest)⟩

/-- A depth of as many groups as are fresh is never used up. -/
theorem exists_follows (depth : Nat) (ids : List GroupId) (low : Nat) (w : Walk)
    (h : w.fresh.card ≤ depth) :
    ∃ visited, g.Follows ids (low,w) (ids.foldl (follow (g.visit depth)) (low,w)) visited := by
  induction depth generalizing ids low w with
  | zero =>
    refine exists_follows_of_visit 0 (fun id w' hm hcard => ?_) ids low w h
    have hmem := Walk.mem_fresh.mpr hm
    rw [Finset.card_eq_zero.mp (Nat.le_zero.mp hcard)] at hmem
    simp at hmem
  | succ depth ih =>
    refine exists_follows_of_visit (depth + 1) (fun id w' hm hcard => ?_) ids low w h
    have hlt := Finset.card_lt_card (Walk.fresh_openGroup_ssubset hm)
    obtain ⟨visited,hin⟩ := ih (g.group id).dependencies w'.serial (w'.openGroup id) (by omega)
    exact ⟨_,visited,visit_succ depth id w' _ rfl,hin⟩

end Graph

end PhraseGrammar
