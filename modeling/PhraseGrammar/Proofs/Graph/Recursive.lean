import PhraseGrammar.Proofs.Graph.Spread

/-! The depth-first walk finds exactly the groups on dependency cycles. No group is open before the
whole run, so it leaves none open, and what has been closed is flagged where it is on a cycle. -/
namespace PhraseGrammar
namespace Graph

open Relation

variable {g : Graph}

/-- What a run over `ids` does to a walk whose open groups lead to all of them. -/
structure Explored (g : Graph) (ids : List GroupId) (first last : Nat × Walk)
    (visited : List GroupId) : Prop where
  spread : g.Spread first.2 last.2 last.1 visited
  le : last.1 ≤ first.1
  seen : last.1 = first.1 ∨ ∃ x ∈ first.2.stack, first.2.mark x = .opened last.1 ∧
    ∃ d ∈ ids, ReflTransGen g.DependsOn d x
  settled : ∀ d ∈ ids, Settled last.2 last.1 d

theorem Explored.followed {w : Walk} {id : GroupId} {inner : Nat × Walk}
    {visited : List GroupId} (hc : w.Consistent g) (hm : w.mark id = .fresh)
    (hreach : ∀ x ∈ w.stack, ReflTransGen g.DependsOn x id)
    (h : g.Explored (g.group id).dependencies (w.serial,w.openGroup id) inner visited) :
    g.Followed w id inner.1 inner.2 visited where
  consistent := hc
  fresh := hm
  reach := hreach
  spread := h.spread
  settled := h.settled
  le := h.le
  seen := by
    rcases h.seen with he | ⟨x,hx,hs,d,hd,hr⟩
    · exact .inl he
    · rcases List.mem_cons.mp hx with rfl | hx
      · rw [Walk.mark_openGroup_self hm] at hs
        exact .inl (Mark.opened.inj hs).symm
      · have hne : id ≠ x := by
          rintro rfl
          obtain ⟨serial,hopen⟩ := (hc.mem_stack id).mp hx
          simp [hm] at hopen
        rw [Walk.mark_openGroup_of_ne hne] at hs
        exact .inr ⟨x,hx,hs,.head hd hr⟩

theorem Explored.fresh {id : GroupId} {ids : List GroupId} {low : Nat} {w : Walk}
    {inner last : Nat × Walk} {visited visited' : List GroupId}
    (hid : g.Followed w id inner.1 inner.2 visited) (hlow : low ≤ w.serial)
    (hrest : g.Explored ids (min low inner.1,g.settle id w.serial inner) last visited') :
    g.Explored (id :: ids) (low,w) last (id :: visited ++ visited') := by
  obtain ⟨hspread,hsettled⟩ := hid.settle_spread
  have hle : last.1 ≤ low := hrest.le.trans (Nat.min_le_left _ _)
  have hin : last.1 ≤ inner.1 := hrest.le.trans (Nat.min_le_right _ _)
  refine ⟨hspread.trans hrest.spread hin,hle,?_,?_⟩
  · rcases hrest.seen with he | ⟨x,hx,hs,d,hd,hr⟩
    · rcases Nat.le_total low inner.1 with hmin | hmin
      · exact .inl (he.trans (Nat.min_eq_left hmin))
      · have he : last.1 = inner.1 := he.trans (Nat.min_eq_right hmin)
        rcases hid.seen with hserial | ⟨x,hx,hs,hr⟩
        · exact .inl (Nat.le_antisymm hle (hlow.trans (he.trans hserial).ge))
        · exact .inr ⟨x,hx,he ▸ hs,id,List.mem_cons_self,hr⟩
    · by_cases hf : w.mark x = .fresh
      · have hlater := hspread.later x _ hf hs
        exact .inl (Nat.le_antisymm hle (hlow.trans hlater))
      · rw [hspread.marks x hf] at hs
        have hx := (hid.consistent.mem_stack x).mpr ⟨_,hs⟩
        exact .inr ⟨x,hx,hs,d,List.mem_cons_of_mem _ hd,hr⟩
  · intro d hd
    rcases List.mem_cons.mp hd with rfl | hd
    · exact hsettled.mono hrest.spread.marks hin
    · exact hrest.settled d hd

theorem Explored.opened {id : GroupId} {ids : List GroupId} {low serial : Nat} {w : Walk}
    {last : Nat × Walk} {visited : List GroupId} (hc : w.Consistent g)
    (hm : w.mark id = .opened serial)
    (hrest : g.Explored ids (min low serial,w) last visited) :
    g.Explored (id :: ids) (low,w) last visited := by
  have hserial : last.1 ≤ serial := hrest.le.trans (Nat.min_le_right _ _)
  refine ⟨hrest.spread,hrest.le.trans (Nat.min_le_left _ _),?_,?_⟩
  · rcases hrest.seen with he | ⟨x,hx,hs,d,hd,hr⟩
    · rcases Nat.le_total low serial with hmin | hmin
      · exact .inl (he.trans (Nat.min_eq_left hmin))
      · have he : last.1 = serial := he.trans (Nat.min_eq_right hmin)
        have hid := (hc.mem_stack id).mpr ⟨serial,hm⟩
        exact .inr ⟨id,hid,he ▸ hm,id,List.mem_cons_self,.refl⟩
    · exact .inr ⟨x,hx,hs,d,List.mem_cons_of_mem _ hd,hr⟩
  · intro d hd
    rcases List.mem_cons.mp hd with rfl | hd
    · exact .inr ⟨serial,(hrest.spread.marks d (by simp [hm])).trans hm,hserial⟩
    · exact hrest.settled d hd

theorem Explored.closed {id : GroupId} {ids : List GroupId} {low : Nat} {w : Walk}
    {last : Nat × Walk} {visited : List GroupId} (hm : w.mark id = .closed)
    (hrest : g.Explored ids (low,w) last visited) :
    g.Explored (id :: ids) (low,w) last visited := by
  refine ⟨hrest.spread,hrest.le,?_,?_⟩
  · rcases hrest.seen with he | ⟨x,hx,hs,d,hd,hr⟩
    · exact .inl he
    · exact .inr ⟨x,hx,hs,d,List.mem_cons_of_mem _ hd,hr⟩
  · intro d hd
    rcases List.mem_cons.mp hd with rfl | hd
    · exact .inl ((hrest.spread.marks d (by simp [hm])).trans hm)
    · exact hrest.settled d hd

theorem Follows.explored {ids : List GroupId} {first last : Nat × Walk} {visited : List GroupId}
    (h : g.Follows ids first last visited) (hc : first.2.Consistent g)
    (hreach : ∀ x ∈ first.2.stack, ∀ d ∈ ids, ReflTransGen g.DependsOn x d)
    (hle : first.1 ≤ first.2.serial) : g.Explored ids first last visited := by
  induction h with
  | nil state => exact ⟨.refl hc _,Nat.le_refl _,.inl rfl,by simp⟩
  | fresh hm _ _ ihin ihrest =>
    have hid := fun x hx => hreach x hx _ List.mem_cons_self
    have hinner := ihin (hc.openGroup hm) (fun x hx d hd => by
      rcases List.mem_cons.mp hx with rfl | hx
      · exact .single hd
      · exact (hid x hx).tail hd) (Nat.le_succ _)
    have hfollowed := hinner.followed hc hm hid
    have hspread := hfollowed.settle_spread.1
    refine .fresh hfollowed hle (ihrest hspread.consistent (fun x hx d hd => ?_) ?_)
    · obtain ⟨y,hy,hr⟩ := hspread.back x hx
      exact hr.trans (hreach y hy d (List.mem_cons_of_mem _ hd))
    · exact (Nat.min_le_left _ _).trans (hle.trans hspread.serial)
  | opened hm _ ih =>
    have hreach' := fun x hx d hd => hreach x hx d (List.mem_cons_of_mem _ hd)
    exact .opened hc hm (ih hc hreach' ((Nat.min_le_left _ _).trans hle))
  | closed hm _ ih =>
    exact .closed hm (ih hc (fun x hx d hd => hreach x hx d (List.mem_cons_of_mem _ hd)) hle)

theorem foldl_follow_snd (ids : List GroupId) (low : Nat) (w : Walk) :
    (ids.foldl (follow (g.visit g.size)) (low,w)).2 = ids.foldl g.walkFrom w := by
  induction ids generalizing low w with
  | nil => rfl
  | cons id ids ih =>
    rw [List.foldl_cons,List.foldl_cons,← Prod.mk.eta (p:=follow _ _ _),ih]
    congr 1
    cases hm : w.mark id <;> simp [follow,walkFrom,hm]

theorem card_fresh_start (g : Graph) : (Walk.start g.size).fresh.card ≤ g.size := by
  refine (Finset.card_filter_le _ _).trans ?_
  simp [Walk.start]

theorem exists_run (g : Graph) : ∃ low final visited,
    g.Follows (List.range g.size) (0,.start g.size) (low,final) visited ∧
      final = (List.range g.size).foldl g.walkFrom (.start g.size) := by
  obtain ⟨visited,hrun⟩ :=
    exists_follows (g:=g) g.size (List.range g.size) 0 (.start g.size) (card_fresh_start g)
  exact ⟨_,_,visited,hrun,foldl_follow_snd _ 0 _⟩

theorem getElem?_recursiveGroups {i : GroupId} :
    g.recursiveGroups[i]? = some true ↔ TransGen g.DependsOn i i := by
  obtain ⟨low,final,visited,hrun,hfinal⟩ := exists_run g
  have hdone := hrun.explored (Walk.consistent_start g) (by simp [Walk.start]) (Nat.le_refl 0)
  rw [recursiveGroups,← hfinal,hdone.spread.consistent.recursive,and_iff_right_iff_imp]
  intro hcycle
  rcases hdone.settled i (List.mem_range.mpr (lt_size_of_transGen hcycle)) with
    hclosed | ⟨serial,hs,-⟩
  · exact hclosed
  · have hmem := (hdone.spread.consistent.mem_stack i).mpr ⟨serial,hs⟩
    obtain ⟨x,hx,-⟩ := hdone.spread.back i hmem
    simp [Walk.start] at hx

theorem exists_flag {i : GroupId} (hi : i < g.size) :
    ∃ flag, g.recursiveGroups[i]? = some flag := by
  obtain ⟨low,final,visited,hrun,hfinal⟩ := exists_run g
  have hdone := hrun.explored (Walk.consistent_start g) (by simp [Walk.start]) (Nat.le_refl 0)
  rw [recursiveGroups,← hfinal]
  exact ⟨_,List.getElem?_eq_getElem (hdone.spread.consistent.length_recursive ▸ hi)⟩

/-- The flags are exact, and the walk that computes them is a complete run, whatever the graph: its
depth is never used up, and it visits each group once. -/
theorem recursiveGroups_exact (g : Graph) :
    (∀ i < g.size, ∃ flag, g.recursiveGroups[i]? = some flag ∧
      (flag = true ↔ TransGen g.DependsOn i i) ∧
      (flag = true ↔ ∃ j, g.DependsOn i j ∧ (g.reachableFrom j)[i]? = some true)) ∧
    ∃ low final visited, g.Follows (List.range g.size) (0,.start g.size) (low,final) visited ∧
      final = (List.range g.size).foldl g.walkFrom (.start g.size) ∧
      visited.Perm (List.range g.size) := by
  obtain ⟨low,final,visited,hrun,hfinal⟩ := exists_run g
  have hdone := hrun.explored (Walk.consistent_start g) (by simp [Walk.start]) (Nat.le_refl 0)
  have hfresh {i : GroupId} : (Walk.start g.size).mark i = .fresh ↔ i < g.size := by
    by_cases hi : i < g.size <;> simp [Walk.start,Walk.mark,hi]
  -- No group was open before the run, so none that it leaves open has one to lead to.
  have hclosed {i : GroupId} (hi : i < g.size) : final.mark i = .closed := by
    rcases hdone.settled i (List.mem_range.mpr hi) with hc | ⟨serial,hs,-⟩
    · exact hc
    · have hmem := (hdone.spread.consistent.mem_stack i).mpr ⟨serial,hs⟩
      obtain ⟨x,hx,-⟩ := hdone.spread.back i hmem
      simp [Walk.start] at hx
  have hlength := hdone.spread.consistent.length_recursive
  refine ⟨fun i hi => ?_,low,final,visited,hrun,hfinal,?_⟩
  · obtain ⟨flag,hget⟩ : ∃ flag, final.recursive[i]? = some flag :=
      ⟨_,List.getElem?_eq_getElem (hlength ▸ hi)⟩
    have hexact : flag = true ↔ TransGen g.DependsOn i i := by
      have h := hdone.spread.consistent.recursive i
      rw [hget,Option.some_inj] at h
      simpa [hclosed hi] using h
    rw [recursiveGroups,← hfinal]
    refine ⟨_,hget,hexact,hexact.trans ?_⟩
    simp [TransGen.head'_iff,getElem?_reachableFrom,hi]
  · refine (List.perm_ext_iff_of_nodup hdone.spread.nodup List.nodup_range).mpr fun i => ?_
    rw [hdone.spread.mem_visited,hfresh,List.mem_range]
    exact ⟨And.left,fun hi => ⟨hi,by simp [hclosed hi]⟩⟩

end Graph

end PhraseGrammar
