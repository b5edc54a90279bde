import PhraseGrammar.Proofs.Graph.Walk

/-! What a walk keeps. Among the open groups each leads to all that were opened after it and, once
its dependencies have been followed, to one that was opened before. A visit that has seen none
opened before closes a component, whose groups lead to each other and to complete ones. -/
namespace PhraseGrammar
namespace Graph

open Relation

variable {g : Graph}

/-- The group is complete, or open with a serial number from `low` on. -/
def Settled (w : Walk) (low : Nat) (id : GroupId) : Prop :=
  w.mark id = .closed ∨ ∃ serial, w.mark id = .opened serial ∧ low ≤ serial

/-- How visits extend a walk: the groups that they leave open lead to groups that were open before,
which all lead to them, and their dependencies have been followed. -/
structure Spread (g : Graph) (w w' : Walk) (low : Nat) (visited : List GroupId) : Prop where
  consistent : w'.Consistent g
  marks : ∀ i, w.mark i ≠ .fresh → w'.mark i = w.mark i
  serial : w.serial ≤ w'.serial
  stack : ∃ new, w'.stack = new ++ w.stack
  back : ∀ m ∈ w'.stack, ∃ x ∈ w.stack, ReflTransGen g.DependsOn m x
  forth : ∀ x ∈ w.stack, ∀ m ∈ w'.stack, w.mark m = .fresh → ReflTransGen g.DependsOn x m
  later : ∀ m serial, w.mark m = .fresh → w'.mark m = .opened serial → w.serial ≤ serial
  settled : ∀ m ∈ w'.stack, w.mark m = .fresh → ∀ j, g.DependsOn m j → Settled w' low j
  nodup : visited.Nodup
  mem_visited : ∀ i, i ∈ visited ↔ w.mark i = .fresh ∧ w'.mark i ≠ .fresh

theorem Settled.mono {w w' : Walk} {low low' : Nat} {id : GroupId} (h : Settled w low id)
    (hm : ∀ i, w.mark i ≠ .fresh → w'.mark i = w.mark i) (hlow : low' ≤ low) :
    Settled w' low' id := by
  rcases h with h | ⟨serial,h,hle⟩
  · exact .inl ((hm id (by simp [h])).trans h)
  · exact .inr ⟨serial,(hm id (by simp [h])).trans h,hlow.trans hle⟩

theorem Spread.refl {w : Walk} (h : w.Consistent g) (low : Nat) : g.Spread w w low [] where
  consistent := h
  marks _ _ := rfl
  serial := Nat.le_refl _
  stack := ⟨[],rfl⟩
  back m hm := ⟨m,hm,.refl⟩
  forth x hx m hm hf := by
    obtain ⟨serial,hs⟩ := (h.mem_stack m).mp hm
    simp [hf] at hs
  later m serial hf hs := by simp [hf] at hs
  settled m hm hf := by
    obtain ⟨serial,hs⟩ := (h.mem_stack m).mp hm
    simp [hf] at hs
  nodup := .nil
  mem_visited i := by simp

theorem Spread.trans {w w' w'' : Walk} {low low' : Nat} {visited visited' : List GroupId}
    (h : g.Spread w w' low visited) (h' : g.Spread w' w'' low' visited')
    (hlow : low' ≤ low) : g.Spread w w'' low' (visited ++ visited') := by
  have hkeep {i : GroupId} (hi : w.mark i ≠ .fresh) : w'.mark i ≠ .fresh := by
    rwa [h.marks i hi]
  have hopen {m : GroupId} (hm : m ∈ w.stack) : m ∈ w'.stack := by
    obtain ⟨new,hnew⟩ := h.stack
    simp [hnew,hm]
  refine ⟨h'.consistent,fun i hi => (h'.marks i (hkeep hi)).trans (h.marks i hi),
    h.serial.trans h'.serial,?_,?_,?_,?_,?_,?_,?_⟩
  · obtain ⟨new,hnew⟩ := h.stack
    obtain ⟨new',hnew'⟩ := h'.stack
    exact ⟨new' ++ new,by rw [hnew',hnew,List.append_assoc]⟩
  · intro m hm
    obtain ⟨y,hy,hmy⟩ := h'.back m hm
    obtain ⟨x,hx,hyx⟩ := h.back y hy
    exact ⟨x,hx,hmy.trans hyx⟩
  · intro x hx m hm hf
    by_cases hf' : w'.mark m = .fresh
    · exact h'.forth x (hopen hx) m hm hf'
    · obtain ⟨serial,hs⟩ := (h'.consistent.mem_stack m).mp hm
      rw [h'.marks m hf'] at hs
      exact h.forth x hx m ((h.consistent.mem_stack m).mpr ⟨serial,hs⟩) hf
  · intro m serial hf hs
    by_cases hf' : w'.mark m = .fresh
    · exact h.serial.trans (h'.later m serial hf' hs)
    · rw [h'.marks m hf'] at hs
      exact h.later m serial hf hs
  · intro m hm hf j hd
    by_cases hf' : w'.mark m = .fresh
    · exact h'.settled m hm hf' j hd
    · obtain ⟨serial,hs⟩ := (h'.consistent.mem_stack m).mp hm
      rw [h'.marks m hf'] at hs
      exact (h.settled m ((h.consistent.mem_stack m).mpr ⟨serial,hs⟩) hf j hd).mono h'.marks hlow
  · refine List.nodup_append.mpr ⟨h.nodup,h'.nodup,fun a ha b hb he => ?_⟩
    subst he
    exact ((h.mem_visited a).mp ha).2 ((h'.mem_visited a).mp hb).1
  · intro i
    rw [List.mem_append,h.mem_visited,h'.mem_visited]
    constructor
    · rintro (⟨hf,hf'⟩ | ⟨hf',hf''⟩)
      · exact ⟨hf,by rwa [h'.marks i hf']⟩
      · refine ⟨?_,hf''⟩
        by_contra hf
        exact hkeep hf hf'
    · rintro ⟨hf,hf''⟩
      by_cases hf' : w'.mark i = .fresh
      · exact .inr ⟨hf',hf''⟩
      · exact .inl ⟨hf,hf'⟩

theorem getElem?_recursive_closeComponent (w : Walk) (id : GroupId) (loop : Bool) (i : GroupId) :
    (w.closeComponent id loop).recursive[i]? = some true ↔ w.recursive[i]? = some true ∨
      i ∈ w.component id ∧ i < w.recursive.length ∧
        (1 < (w.component id).length ∨ loop = true) := by
  simp only [Walk.closeComponent]
  split
  · rename_i hc
    have hc : 1 < (w.component id).length ∨ loop = true := by simpa using hc
    rw [getElem?_foldl_set]
    by_cases hi : i ∈ w.component id
    · by_cases hlt : i < w.recursive.length <;> simp [hi,hlt,hc]
    · simp [hi]
  · rename_i hc
    have hc : ¬ (1 < (w.component id).length ∨ loop = true) := by simpa using hc
    simp [hc]

section Close

variable {w after : Walk} {id : GroupId} {visited : List GroupId}

/-- What is known of a visit once the dependencies of `id` have been followed. -/
structure Followed (g : Graph) (w : Walk) (id : GroupId) (low : Nat) (after : Walk)
    (visited : List GroupId) : Prop where
  consistent : w.Consistent g
  fresh : w.mark id = .fresh
  reach : ∀ x ∈ w.stack, ReflTransGen g.DependsOn x id
  spread : g.Spread (w.openGroup id) after low visited
  settled : ∀ d, g.DependsOn id d → Settled after low d
  le : low ≤ w.serial
  seen : low = w.serial ∨ ∃ x ∈ w.stack, w.mark x = .opened low ∧ ReflTransGen g.DependsOn id x

namespace Followed

variable {low : Nat}

theorem mark_self (h : g.Followed w id low after visited) : after.mark id = .opened w.serial := by
  have hself := Walk.mark_openGroup_self h.fresh
  rw [h.spread.marks id (by simp [hself]),hself]

theorem mark_eq (h : g.Followed w id low after visited) {i : GroupId} (hi : w.mark i ≠ .fresh) :
    after.mark i = w.mark i := by
  have hne : id ≠ i := by
    rintro rfl
    exact hi h.fresh
  have he := Walk.mark_openGroup_of_ne (w:=w) hne
  rw [h.spread.marks i (by rwa [he]),he]

theorem fresh_openGroup (h : g.Followed w id low after visited) {i : GroupId} :
    (w.openGroup id).mark i = .fresh ↔ i ≠ id ∧ w.mark i = .fresh := by
  by_cases he : id = i
  · subst he
    simp [Walk.mark_openGroup_self h.fresh]
  · simp [Walk.mark_openGroup_of_ne he,Ne.symm he]

theorem mem_stack_iff (h : g.Followed w id low after visited) {i : GroupId}
    (hi : i ∈ after.stack) : i ∈ w.stack ↔ w.mark i ≠ .fresh := by
  constructor
  · intro hw
    obtain ⟨serial,hs⟩ := (h.consistent.mem_stack i).mp hw
    simp [hs]
  · intro hf
    obtain ⟨serial,hs⟩ := (h.spread.consistent.mem_stack i).mp hi
    rw [h.mark_eq hf] at hs
    exact (h.consistent.mem_stack i).mpr ⟨serial,hs⟩

theorem stack_eq (h : g.Followed w id low after visited) : ∃ new,
    after.stack = new ++ id :: w.stack ∧ after.component id = new ++ [id] ∧
      ∀ loop, (after.closeComponent id loop).stack = w.stack := by
  obtain ⟨new,hnew⟩ := h.spread.stack
  have hstack : after.stack = new ++ id :: w.stack := hnew
  have hnodup := h.spread.consistent.nodup
  rw [hstack] at hnodup
  have hid : id ∉ new := fun hmem =>
    (List.nodup_append.mp hnodup).2.2 id hmem id List.mem_cons_self rfl
  have hsplit := @split_at _ _ id new w.stack hid
  refine ⟨new,hstack,?_,fun loop => ?_⟩
  · rw [Walk.component,hstack,hsplit.1]
  · rw [Walk.closeComponent,hstack,hsplit.2]

theorem mem_component (h : g.Followed w id low after visited) {i : GroupId} :
    i ∈ after.component id ↔ i ∈ after.stack ∧ w.mark i = .fresh := by
  obtain ⟨new,hstack,hcomponent,-⟩ := h.stack_eq
  have hnodup := h.spread.consistent.nodup
  rw [hstack] at hnodup
  constructor
  · intro hi
    have hmem : i ∈ after.stack := by
      rw [hcomponent] at hi
      rw [hstack]
      simp only [List.mem_append,List.mem_cons,List.not_mem_nil,or_false] at hi ⊢
      tauto
    refine ⟨hmem,?_⟩
    by_contra hf
    have hw := (h.mem_stack_iff hmem).mpr hf
    rw [← List.singleton_append,← List.append_assoc,← hcomponent] at hnodup
    exact (List.nodup_append.mp hnodup).2.2 i hi i hw rfl
  · rintro ⟨hmem,hf⟩
    have hw : i ∉ w.stack := fun hw => (h.mem_stack_iff hmem).mp hw hf
    rw [hstack] at hmem
    rw [hcomponent]
    simp only [List.mem_append,List.mem_cons,List.not_mem_nil,or_false] at hmem ⊢
    tauto

theorem connected (h : g.Followed w id low after visited) {i : GroupId}
    (hi : i ∈ after.component id) :
    ReflTransGen g.DependsOn i id ∧ ReflTransGen g.DependsOn id i := by
  obtain ⟨hmem,hf⟩ := h.mem_component.mp hi
  constructor
  · obtain ⟨x,hx,hr⟩ := h.spread.back i hmem
    rcases List.mem_cons.mp hx with rfl | hx
    · exact hr
    · exact hr.trans (h.reach x hx)
  · by_cases he : i = id
    · exact he ▸ .refl
    · exact h.spread.forth id List.mem_cons_self i hmem (h.fresh_openGroup.mpr ⟨he,hf⟩)

theorem settled_of_mem_component (h : g.Followed w id low after visited) {i j : GroupId}
    (hi : i ∈ after.component id) (hd : g.DependsOn i j) : Settled after low j := by
  obtain ⟨hmem,hf⟩ := h.mem_component.mp hi
  by_cases he : i = id
  · exact h.settled j (he ▸ hd)
  · exact h.spread.settled i hmem (h.fresh_openGroup.mpr ⟨he,hf⟩) j hd

theorem self_mem_component (h : g.Followed w id low after visited) : id ∈ after.component id :=
  h.mem_component.mpr ⟨(h.spread.consistent.mem_stack id).mpr ⟨_,h.mark_self⟩,h.fresh⟩

/-- A complete component leads to itself and to what was complete before. -/
theorem closed_or_mem (h : g.Followed w id w.serial after visited) {i j : GroupId}
    (hi : i ∈ after.component id) (hd : g.DependsOn i j) :
    after.mark j = .closed ∨ j ∈ after.component id := by
  rcases h.settled_of_mem_component hi hd with hc | ⟨serial,hs,hle⟩
  · exact .inl hc
  · refine .inr (h.mem_component.mpr ⟨(h.spread.consistent.mem_stack j).mpr ⟨serial,hs⟩,?_⟩)
    by_contra hf
    rw [h.mark_eq hf] at hs
    exact absurd (h.consistent.bounded j serial hs) (Nat.not_lt.mpr hle)

theorem transGen_iff (h : g.Followed w id w.serial after visited) {i : GroupId}
    (hi : i ∈ after.component id) : TransGen g.DependsOn i i ↔
      1 < (after.component id).length ∨ (g.group id).dependencies.contains id = true := by
  have hround {a b : GroupId} (ha : a ∈ after.component id) (hb : b ∈ after.component id)
      (hne : a ≠ b) : TransGen g.DependsOn a a := by
    have hab := (h.connected ha).1.trans (h.connected hb).2
    have hba := (h.connected hb).1.trans (h.connected ha).2
    rcases reflTransGen_iff_eq_or_transGen.mp hab with he | hab
    · exact absurd he.symm hne
    · exact hab.trans_left hba
  obtain ⟨new,hstack,hcomponent,-⟩ := h.stack_eq
  constructor
  · intro hcycle
    by_contra hc
    obtain ⟨hlen,hloop⟩ := not_or.mp hc
    have hnew : new = [] := by
      rw [hcomponent,List.length_append,List.length_singleton] at hlen
      exact List.length_eq_zero_iff.mp (by omega)
    have hself {j : GroupId} (hj : j ∈ after.component id) : j = id := by
      simpa [hcomponent,hnew] using hj
    rw [hself hi] at hcycle
    obtain ⟨j,hd,hr⟩ := TransGen.head'_iff.mp hcycle
    rcases h.closed_or_mem h.self_mem_component hd with hj | hj
    · have hid := h.spread.consistent.closed_of_reflTransGen hj hr
      simp [h.mark_self] at hid
    · exact hloop (List.contains_iff_mem.mpr (hself hj ▸ hd))
  · rintro (hlen | hloop)
    · obtain ⟨m,hm,hne⟩ : ∃ m ∈ after.component id, i ≠ m := by
        have hnodup : (after.component id).Nodup := by
          have hn := h.spread.consistent.nodup
          rw [hstack,← List.singleton_append,← List.append_assoc,← hcomponent] at hn
          exact hn.of_append_left
        by_contra hall
        push Not at hall
        have hsub : after.component id ⊆ [i] := fun m hm => by simp [hall m hm]
        exact absurd (hnodup.subperm hsub).length_le (by simpa using hlen)
      exact hround hi hm hne
    · have hd : g.DependsOn id id := List.contains_iff_mem.mp hloop
      exact ((TransGen.single hd).trans_right (h.connected hi).1).trans_left (h.connected hi).2

theorem mark_closeComponent_eq_fresh (h : g.Followed w id low after visited) (loop : Bool)
    {i : GroupId} : (after.closeComponent id loop).mark i = .fresh ↔ after.mark i = .fresh := by
  rw [Walk.mark_closeComponent]
  split
  · rename_i hi
    obtain ⟨serial,hs⟩ := (h.spread.consistent.mem_stack i).mp (h.mem_component.mp hi).1
    simp [hs]
  · rfl

theorem mark_closeComponent_of_ne_fresh (h : g.Followed w id low after visited) (loop : Bool)
    {i : GroupId} (hi : w.mark i ≠ .fresh) :
    (after.closeComponent id loop).mark i = w.mark i := by
  rw [Walk.mark_closeComponent,if_neg fun hc => hi (h.mem_component.mp hc).2,h.mark_eq hi]

theorem mem_visited (h : g.Followed w id low after visited) {i : GroupId} :
    i ∈ id :: visited ↔ w.mark i = .fresh ∧ after.mark i ≠ .fresh := by
  rw [List.mem_cons,h.spread.mem_visited,h.fresh_openGroup]
  by_cases he : i = id
  · subst he
    simp [h.fresh,h.mark_self]
  · simp [he]

theorem nodup_visited (h : g.Followed w id low after visited) : (id :: visited).Nodup := by
  refine List.nodup_cons.mpr ⟨fun hmem => ?_,h.spread.nodup⟩
  exact (h.fresh_openGroup.mp ((h.spread.mem_visited id).mp hmem).1).1 rfl

theorem serial_le (h : g.Followed w id low after visited) : w.serial ≤ after.serial :=
  (Nat.le_succ _).trans h.spread.serial

theorem consistent_closeComponent (h : g.Followed w id w.serial after visited) :
    (after.closeComponent id ((g.group id).dependencies.contains id)).Consistent g := by
  have hafter := h.spread.consistent
  obtain ⟨new,-,-,hstack⟩ := h.stack_eq
  have hopened {i : GroupId} {loop : Bool} (hi : i ∈ w.stack) :
      (after.closeComponent id loop).mark i = w.mark i := by
    obtain ⟨serial,hs⟩ := (h.consistent.mem_stack i).mp hi
    exact h.mark_closeComponent_of_ne_fresh loop (by simp [hs])
  constructor
  · simpa [Walk.closeComponent,length_foldl_set] using hafter.length_marks
  · rw [Walk.closeComponent,← hafter.length_recursive]
    dsimp only
    split
    · rw [length_foldl_set]
    · rfl
  · intro i
    rw [hstack]
    constructor
    · intro hi
      rw [hopened hi]
      exact (h.consistent.mem_stack i).mp hi
    · rintro ⟨serial,hs⟩
      rw [Walk.mark_closeComponent] at hs
      split at hs
      · cases hs
      · rename_i hi
        have hmem := (hafter.mem_stack i).mpr ⟨serial,hs⟩
        exact (h.mem_stack_iff hmem).mpr fun hf => hi (h.mem_component.mpr ⟨hmem,hf⟩)
  · rw [hstack]
    refine h.consistent.sorted.imp_of_mem fun ha hb hab => ?_
    rwa [hopened ha,hopened hb]
  · intro i serial hs
    rw [Walk.mark_closeComponent] at hs
    split at hs
    · cases hs
    · exact hafter.bounded i serial hs
  · intro i j hi hd
    rw [Walk.mark_closeComponent] at hi ⊢
    split
    · rfl
    · rename_i hj
      split at hi
      · rename_i hmem
        exact (h.closed_or_mem hmem hd).resolve_right hj
      · exact hafter.closed i j hi hd
  · intro i
    rw [getElem?_recursive_closeComponent,hafter.recursive,hafter.length_recursive,
      Walk.mark_closeComponent]
    by_cases hi : i ∈ after.component id
    · rw [if_pos hi,← h.transGen_iff hi]
      constructor
      · rintro (⟨-,hc⟩ | ⟨-,-,hc⟩) <;> exact ⟨rfl,hc⟩
      · exact fun hc => .inr ⟨hi,lt_size_of_transGen hc.2,hc.2⟩
    · simp [hi]

theorem spread_closed (h : g.Followed w id w.serial after visited) :
    g.Spread w (after.closeComponent id ((g.group id).dependencies.contains id)) w.serial
      (id :: visited) := by
  obtain ⟨new,-,-,hstack⟩ := h.stack_eq
  have hold {m : GroupId} {loop : Bool} (hm : m ∈ (after.closeComponent id loop).stack) :
      w.mark m ≠ .fresh := by
    rw [hstack] at hm
    obtain ⟨serial,hs⟩ := (h.consistent.mem_stack m).mp hm
    simp [hs]
  constructor
  · exact h.consistent_closeComponent
  · exact fun i hi => h.mark_closeComponent_of_ne_fresh _ hi
  · exact h.serial_le
  · exact ⟨[],hstack _⟩
  · intro m hm
    rw [hstack] at hm
    exact ⟨m,hm,.refl⟩
  · exact fun x _ m hm hf => absurd hf (hold hm)
  · intro m serial hf hs
    have hm := (h.consistent_closeComponent.mem_stack m).mpr ⟨serial,hs⟩
    exact absurd hf (hold hm)
  · exact fun m hm hf => absurd hf (hold hm)
  · exact h.nodup_visited
  · intro i
    rw [h.mem_visited,Ne,Ne,h.mark_closeComponent_eq_fresh]

/-- The visit when a group opened before `id` has been seen: `id` stays open. -/
theorem spread_opened (h : g.Followed w id low after visited) (hlow : low ≠ w.serial) :
    g.Spread w after low (id :: visited) := by
  obtain ⟨new,hstack,-,-⟩ := h.stack_eq
  constructor
  · exact h.spread.consistent
  · exact fun i hi => h.mark_eq hi
  · exact h.serial_le
  · exact ⟨new ++ [id],by simp [hstack]⟩
  · intro m hm
    obtain ⟨x,hx,hr⟩ := h.spread.back m hm
    rcases List.mem_cons.mp hx with rfl | hx
    · obtain ⟨y,hy,-,hback⟩ := h.seen.resolve_left hlow
      exact ⟨y,hy,hr.trans hback⟩
    · exact ⟨x,hx,hr⟩
  · intro x hx m hm hf
    exact (h.reach x hx).trans (h.connected (h.mem_component.mpr ⟨hm,hf⟩)).2
  · intro m serial hf hs
    by_cases he : m = id
    · rw [he,h.mark_self] at hs
      exact (Mark.opened.inj hs).le
    · have hle := h.spread.later m serial (h.fresh_openGroup.mpr ⟨he,hf⟩) hs
      exact (Nat.le_succ _).trans hle
  · exact fun m hm hf j hd => h.settled_of_mem_component (h.mem_component.mpr ⟨hm,hf⟩) hd
  · exact h.nodup_visited
  · exact fun i => h.mem_visited

theorem settle_spread (h : g.Followed w id low after visited) :
    g.Spread w (g.settle id w.serial (low,after)) low (id :: visited) ∧
      Settled (g.settle id w.serial (low,after)) low id := by
  by_cases hlow : low = w.serial
  · subst hlow
    rw [settle,if_pos rfl]
    refine ⟨h.spread_closed,.inl ?_⟩
    rw [Walk.mark_closeComponent,if_pos h.self_mem_component]
  · rw [settle,if_neg hlow]
    exact ⟨h.spread_opened hlow,.inr ⟨w.serial,h.mark_self,h.le⟩⟩

end Followed

end Close

end Graph

end PhraseGrammar
