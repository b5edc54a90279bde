import Mathlib.Data.List.Flatten
import Mathlib.Data.List.Forall2
import Mathlib.Data.List.Induction
import Mathlib.Data.List.Nodup

/-! Lists: related elements one to one, first occurrences, separators, and parts that are put
together. An index of a list leads from its elements to their positions. -/
namespace PhraseGrammar

variable {α β γ : Type}

theorem forall₂_getElem? {R : α → β → Prop} {xs : List α} {ys : List β}
    (h : List.Forall₂ R xs ys) (i : Nat) : xs[i]? = none ∧ ys[i]? = none ∨
      ∃ x y, xs[i]? = some x ∧ ys[i]? = some y ∧ R x y := by
  induction h generalizing i with
  | nil => exact .inl ⟨rfl,rfl⟩
  | cons hxy _ ih =>
    cases i with
    | zero => exact .inr ⟨_,_,rfl,rfl,hxy⟩
    | succ i => exact ih i

theorem forall₂_exists {R : α → β → Prop} {xs : List α} {ys : List β}
    (h : List.Forall₂ R xs ys) {x : α} (hx : x ∈ xs) : ∃ y ∈ ys, R x y := by
  obtain ⟨i,hi⟩ := List.mem_iff_getElem?.mp hx
  rcases forall₂_getElem? h i with ⟨hn,-⟩ | ⟨x',y,hx',hy,hxy⟩
  · simp [hi] at hn
  · obtain rfl := Option.some.inj (hi.symm.trans hx')
    exact ⟨y,List.mem_of_getElem? hy,hxy⟩

theorem forall₂_mem {R : α → β → Prop} {xs : List α} {ys : List β}
    (h : List.Forall₂ R xs ys) : List.Forall₂ (fun x y => x ∈ xs ∧ y ∈ ys ∧ R x y) xs ys := by
  induction h with
  | nil => exact .nil
  | cons hxy _ ih =>
    refine .cons ⟨List.mem_cons_self,List.mem_cons_self,hxy⟩ (ih.imp fun x y hr => ?_)
    exact ⟨List.mem_cons_of_mem _ hr.1,List.mem_cons_of_mem _ hr.2.1,hr.2.2⟩

theorem map_eq_map_of_forall₂ {R : α → β → Prop} {xs : List α} {ys : List β}
    {f : α → γ} {f' : β → γ} (h : List.Forall₂ R xs ys)
    (hf : ∀ x ∈ xs, ∀ y ∈ ys, R x y → f x = f' y) : xs.map f = ys.map f' := by
  rw [← List.forall₂_eq_eq_eq,List.forall₂_map_left_iff,List.forall₂_map_right_iff]
  exact (forall₂_mem h).imp fun x y hr => hf x hr.1 y hr.2.1 hr.2.2

theorem forall₂_of_map_eq {f : α → γ} {f' : β → γ} {xs : List α} {ys : List β}
    (h : xs.map f = ys.map f') : List.Forall₂ (fun x y => f x = f' y) xs ys := by
  rwa [← List.forall₂_eq_eq_eq,List.forall₂_map_left_iff,List.forall₂_map_right_iff] at h

theorem exists_forall₂ {R : α → β → Prop} {xs : List α}
    (h : ∀ x ∈ xs, ∃ y, R x y) : ∃ ys, List.Forall₂ R xs ys := by
  induction xs with
  | nil => exact ⟨[],.nil⟩
  | cons x xs ih =>
    obtain ⟨⟨y,hxy⟩,hxs⟩ := List.forall_mem_cons.mp h
    obtain ⟨ys,hys⟩ := ih hxs
    exact ⟨y :: ys,.cons hxy hys⟩

theorem exists_between {R : α → β → Prop} {S : β → γ → Prop} {xs : List α}
    {zs : List γ} (h : List.Forall₂ (fun x z => ∃ y, R x y ∧ S y z) xs zs) :
    ∃ ys, List.Forall₂ R xs ys ∧ List.Forall₂ S ys zs := by
  induction h with
  | nil => exact ⟨[],.nil,.nil⟩
  | cons hy _ ih =>
    obtain ⟨y,hxy,hyz⟩ := hy
    obtain ⟨ys,hR,hS⟩ := ih
    exact ⟨y :: ys,.cons hxy hR,.cons hyz hS⟩

theorem mapM_eq_some {f : α → Option β} {xs : List α} {ys : List β} :
    xs.mapM f = some ys ↔ List.Forall₂ (fun x y => f x = some y) xs ys := by
  induction xs generalizing ys with
  | nil => simp [eq_comm]
  | cons x xs ih =>
    simp only [List.mapM_cons,Option.bind_eq_bind,Option.bind_eq_some_iff,pure,
      Option.some.injEq,List.forall₂_cons_left_iff,ih]
    constructor
    · rintro ⟨y,hy,ys,hys,rfl⟩
      exact ⟨y,ys,hy,hys,rfl⟩
    · rintro ⟨y,ys,hy,hys,rfl⟩
      exact ⟨y,hy,ys,hys,rfl⟩

theorem exists_mapM_eq_some {f : α → Option β} {xs : List α}
    (h : ∀ x ∈ xs, ∃ y, f x = some y) : ∃ ys, xs.mapM f = some ys := by
  induction xs with
  | nil => exact ⟨[],rfl⟩
  | cons x xs ih =>
    obtain ⟨⟨y,hy⟩,hxs⟩ := List.forall_mem_cons.mp h
    obtain ⟨ys,hys⟩ := ih hxs
    exact ⟨y :: ys,by simp [List.mapM_cons,hy,hys]⟩

/-- Puts an element at the end unless the list has it. -/
def note [BEq α] (xs : List α) (x : α) : List α := if xs.contains x then xs else xs ++ [x]

theorem eraseDups_concat [BEq α] [LawfulBEq α] (xs : List α) (x : α) :
    (xs ++ [x]).eraseDups = note xs.eraseDups x := by
  rw [List.eraseDups_append,note]
  by_cases hx : x ∈ xs
  · simp [List.removeAll,hx]
  · simp [List.removeAll,hx,List.eraseDups_cons]

theorem foldl_note [BEq α] [LawfulBEq α] (xs : List α) : xs.foldl note [] = xs.eraseDups := by
  induction xs using List.reverseRecOn with
  | nil => rfl
  | append_singleton xs x ih => rw [List.foldl_concat,ih,eraseDups_concat]

theorem nodup_eraseDups [BEq α] [LawfulBEq α] (xs : List α) : xs.eraseDups.Nodup := by
  induction xs using List.reverseRecOn with
  | nil => exact List.nodup_nil
  | append_singleton xs x ih =>
    rw [eraseDups_concat,note]
    split
    · exact ih
    · rename_i hx
      rw [← List.concat_eq_append]
      exact ih.concat (mt List.contains_iff_mem.mpr hx)

theorem find?_eraseDups [BEq α] [LawfulBEq α] (p : α → Bool) (xs : List α) :
    xs.eraseDups.find? p = xs.find? p := by
  induction xs using List.reverseRecOn with
  | nil => rfl
  | append_singleton xs x ih =>
    rw [eraseDups_concat,note,List.find?_append]
    split
    · rename_i hx
      rw [ih]
      cases hfind : xs.find? p with
      | some found => rfl
      | none =>
        have hxs := List.mem_eraseDups.mp (List.contains_iff_mem.mp hx)
        rw [Option.none_or,List.find?_cons_of_neg (List.find?_eq_none.mp hfind x hxs)]
        rfl
    · rw [List.find?_append,ih]

theorem idxOf?_eq_some_of_nodup [BEq α] [LawfulBEq α] {xs : List α} (hxs : xs.Nodup) {x : α}
    {i : Nat} : xs.idxOf? x = some i ↔ xs[i]? = some x := by
  constructor
  · intro h
    obtain ⟨hlt,he,-⟩ := List.idxOf?_eq_some_iff.mp h
    rw [List.getElem?_eq_getElem hlt,he]
  · intro h
    obtain ⟨hlt,he⟩ := List.getElem?_eq_some_iff.mp h
    refine List.idxOf?_eq_some_iff.mpr ⟨hlt,he,fun j hj hother => ?_⟩
    have := hxs.getElem_inj_iff.mp (hother.trans he.symm)
    omega

/-- The index has exactly the positions of the elements. -/
def Indexes [BEq α] [Hashable α] (index : Std.HashMap α Nat) (xs : List α) : Prop :=
  ∀ (x : α) (i : Nat), index[x]? = some i ↔ xs[i]? = some x

theorem Indexes.nodup [BEq α] [Hashable α] {index : Std.HashMap α Nat} {xs : List α}
    (h : Indexes index xs) : xs.Nodup := by
  refine List.nodup_iff_getElem?_ne_getElem?.mpr fun i j hij hj he => ?_
  have hx := List.getElem?_eq_getElem hj
  have hi := (h _ i).mpr (he.trans hx)
  rw [(h _ j).mpr hx,Option.some_inj] at hi
  omega

theorem Indexes.getElem?_eq [BEq α] [LawfulBEq α] [Hashable α] {index : Std.HashMap α Nat}
    {xs : List α} (h : Indexes index xs) (x : α) : index[x]? = xs.idxOf? x :=
  Option.ext fun i => (h x i).trans (idxOf?_eq_some_of_nodup h.nodup).symm

theorem Indexes.concat [BEq α] [LawfulBEq α] [Hashable α] {index : Std.HashMap α Nat}
    {xs : List α} (h : Indexes index xs) {x : α} (hx : x ∉ xs) :
    Indexes (index.insert x xs.length) (xs ++ [x]) := by
  intro other i
  rw [Std.HashMap.getElem?_insert]
  by_cases he : x = other
  · subst he
    rw [if_pos (beq_self_eq_true x),Option.some.injEq]
    constructor
    · rintro rfl
      exact List.getElem?_concat_length
    · intro hi
      by_contra hne
      apply hx
      rw [List.getElem?_append] at hi
      split at hi
      · exact List.mem_of_getElem? hi
      · have hlt := (List.getElem?_eq_some_iff.mp hi).1
        rw [List.length_singleton] at hlt
        omega
  · rw [if_neg (by simpa using he),h other i,List.getElem?_append]
    split
    · rfl
    · rename_i hlt
      have hnone : xs[i]? = none := List.getElem?_eq_none (Nat.le_of_not_lt hlt)
      rw [hnone,List.getElem?_singleton]
      split <;> simp [he]

theorem find?_eq {xs : List α} {p : α → Bool} {found : Option α} (hall : ∀ a, a ∈ xs)
    (h : ∀ a, p a = true ↔ found = some a) : xs.find? p = found := by
  cases hfind : xs.find? p with
  | some a => exact ((h a).mp (List.find?_some hfind)).symm
  | none =>
    refine (Option.eq_none_iff_forall_ne_some.mpr fun a ha => ?_).symm
    exact List.find?_eq_none.mp hfind a (hall a) ((h a).mpr ha)

theorem lookup_eq_some_iff_mem [BEq α] [LawfulBEq α] {entries : List (α × β)}
    (hnodup : (entries.map Prod.fst).Nodup) {key : α} {value : β} :
    entries.lookup key = some value ↔ (key,value) ∈ entries := by
  constructor
  · intro h
    obtain ⟨before,after,rfl,-⟩ := List.lookup_eq_some_iff.mp h
    simp
  · intro h
    obtain ⟨before,after,rfl⟩ := List.append_of_mem h
    rw [List.map_append,List.nodup_append] at hnodup
    refine List.lookup_eq_some_iff.mpr ⟨before,after,rfl,fun e he => ?_⟩
    have hne := hnodup.2.2 e.1 (List.mem_map_of_mem he) key (by simp)
    simpa using hne.symm

theorem count_concat [DecidableEq α] (xs : List α) (last x : α) :
    (xs ++ [last]).count x = xs.count x + if last = x then 1 else 0 := by
  simp [List.count_append,List.count_singleton]

theorem zipIdx_pairwise (xs : List α) (k : Nat) :
    (xs.zipIdx k).Pairwise fun a b => a.2 < b.2 := by
  induction xs generalizing k with
  | nil => simp
  | cons x xs ih =>
    rw [List.zipIdx_cons,List.pairwise_cons]
    exact ⟨fun p hp => List.le_snd_of_mem_zipIdx hp,ih (k + 1)⟩

theorem getElem?_of_drop {xs ys : List α} {n : Nat} {x : α}
    (h : xs.drop n = x :: ys) : xs[n]? = some x ∧ xs.drop (n + 1) = ys := by
  constructor
  · rw [← List.head?_drop,h]
    rfl
  · rw [← List.drop_drop,h]
    rfl

theorem marks_ext {marks marks' : List Bool} (hlen : marks.length = marks'.length)
    (h : ∀ i : Nat, marks[i]? = some true ↔ marks'[i]? = some true) : marks = marks' := by
  refine List.ext_getElem hlen fun i hi hi' => Bool.eq_iff_iff.mpr ?_
  have hmark := h i
  rwa [List.getElem?_eq_getElem hi,List.getElem?_eq_getElem hi',Option.some_inj,Option.some_inj]
    at hmark

theorem getD_eq_true {marks : List Bool} {i : Nat} :
    marks.getD i false = true ↔ marks[i]? = some true := by
  rw [List.getD_eq_getElem?_getD]
  cases marks[i]? <;> simp

theorem map_mono {x y : Option α} {f : α → β} (h : ∀ a, x = some a → y = some a)
    {b : β} (hx : x.map f = some b) : y.map f = some b := by
  obtain ⟨a,ha,rfl⟩ := Option.map_eq_some_iff.mp hx
  rw [h a ha,Option.map_some]

theorem foldlM_mono {f f' : β → α → Option β}
    (h : ∀ b a b', f b a = some b' → f' b a = some b') {xs : List α} {b b' : β}
    (hfold : xs.foldlM f b = some b') : xs.foldlM f' b = some b' := by
  induction xs generalizing b with
  | nil => exact hfold
  | cons x xs ih =>
    rw [List.foldlM_cons] at hfold ⊢
    obtain ⟨next,hnext,hrest⟩ := Option.bind_eq_some_iff.mp hfold
    exact Option.bind_eq_some_iff.mpr ⟨next,h b x next hnext,ih hrest⟩

theorem getElem?_foldl_set (ids : List Nat) (value : α) (xs : List α)
    (i : Nat) : (ids.foldl (fun xs id => xs.set id value) xs)[i]? =
      if i ∈ ids then xs[i]?.map fun _ => value else xs[i]? := by
  induction ids generalizing xs with
  | nil => simp
  | cons id ids ih =>
    rw [List.foldl_cons,ih,List.getElem?_set]
    by_cases he : id = i
    · subst he
      by_cases hlt : id < xs.length <;> simp [hlt]
    · simp [he,Ne.symm he]

theorem length_foldl_set (ids : List Nat) (value : α) (xs : List α) :
    (ids.foldl (fun xs id => xs.set id value) xs).length = xs.length := by
  induction ids generalizing xs with
  | nil => rfl
  | cons id ids ih => rw [List.foldl_cons,ih,List.length_set]

theorem split_at [DecidableEq α] {x : α} {xs rest : List α} (h : x ∉ xs) :
    (xs ++ x :: rest).takeWhile (· != x) = xs ∧
      ((xs ++ x :: rest).dropWhile (· != x)).drop 1 = rest := by
  induction xs with
  | nil => simp
  | cons y xs ih =>
    obtain ⟨hy,hxs⟩ := not_or.mp (mt List.mem_cons.mpr h)
    simpa [Ne.symm hy] using ih hxs

theorem append_inj_of_forall {p : α → Prop} {xs ys xs' ys' : List α}
    (hx : ∀ a ∈ xs, p a) (hy : ∀ a ∈ ys, p a) (hx' : ∀ a ∈ xs', ¬ p a) (hy' : ∀ a ∈ ys', ¬ p a)
    (h : xs ++ xs' = ys ++ ys') : xs = ys ∧ xs' = ys' := by
  induction xs generalizing ys with
  | nil =>
    cases ys with
    | nil => exact ⟨rfl,h⟩
    | cons y ys =>
      obtain rfl : xs' = y :: (ys ++ ys') := h
      exact absurd (hy y List.mem_cons_self) (hx' y List.mem_cons_self)
  | cons x xs ih =>
    cases ys with
    | nil =>
      obtain rfl : x :: (xs ++ xs') = ys' := h
      exact absurd (hx x List.mem_cons_self) (hy' x List.mem_cons_self)
    | cons y ys =>
      obtain ⟨rfl,hrest⟩ := List.cons.inj h
      obtain ⟨rfl,he⟩ := ih (List.forall_mem_cons.mp hx).2 (List.forall_mem_cons.mp hy).2 hrest
      exact ⟨rfl,he⟩

theorem append_cons_inj [BEq α] [LawfulBEq α] {a : α} {xs ys xs' ys' : List α}
    (hx : a ∉ xs) (hy : a ∉ ys) (h : xs ++ a :: xs' = ys ++ a :: ys') : xs = ys ∧ xs' = ys' := by
  have hsplit := congrArg (List.splitOn a) h
  rw [List.splitOn_append_cons_self_of_not_mem hx,List.splitOn_append_cons_self_of_not_mem hy,
    List.cons.injEq] at hsplit
  obtain rfl := hsplit.1
  exact ⟨rfl,by simpa using h⟩

theorem length_splitOn [BEq α] [LawfulBEq α] (sep : α) (xs : List α) :
    (xs.splitOn sep).length = xs.count sep + 1 := by
  induction xs with
  | nil => rfl
  | cons x xs ih =>
    rw [List.splitOn_cons_eq_if_modifyHead,List.count_cons]
    split <;> simp [ih]

theorem not_mem_of_mem_splitOn [BEq α] [LawfulBEq α] {sep : α} {xs piece : List α}
    (h : piece ∈ xs.splitOn sep) : sep ∉ piece := by
  induction xs generalizing piece with
  | nil =>
    obtain rfl := List.mem_singleton.mp h
    exact List.not_mem_nil
  | cons x xs ih =>
    rw [List.splitOn_cons_eq_if_modifyHead] at h
    split at h
    · rcases List.mem_cons.mp h with rfl | h
      · exact List.not_mem_nil
      · exact ih h
    · rename_i hx
      have hne : sep ≠ x := fun he => hx (he ▸ beq_self_eq_true sep)
      cases hs : xs.splitOn sep with
      | nil => exact absurd hs (List.splitOn_ne_nil sep xs)
      | cons first rest =>
        rw [hs] at ih h
        rcases List.mem_cons.mp h with rfl | h
        · exact List.not_mem_cons_of_ne_of_not_mem hne (ih List.mem_cons_self)
        · exact ih (List.mem_cons_of_mem _ h)

theorem splitOn_append_left [BEq α] [LawfulBEq α] {sep : α} {lead : List α}
    (h : sep ∉ lead) (text : List α) :
    (lead ++ text).splitOn sep = (text.splitOn sep).modifyHead (lead ++ ·) := by
  induction lead with
  | nil =>
    cases hs : text.splitOn sep with
    | nil => simp [hs]
    | cons piece pieces => simp [hs]
  | cons c lead ih =>
    have hc : (c == sep) = false := beq_eq_false_iff_ne.mpr fun he => h (he ▸ List.mem_cons_self)
    have hlead := ih fun hm => h (List.mem_cons_of_mem c hm)
    rw [List.cons_append,List.splitOn_cons_eq_if_modifyHead,hc,hlead]
    cases hs : text.splitOn sep with
    | nil => simp
    | cons piece pieces => simp

theorem splitOn_flatMap_cons [BEq α] [LawfulBEq α] {sep : α} {first : List α}
    {rest : List (List α)} (hfirst : sep ∉ first) (hrest : ∀ part ∈ rest, sep ∉ part) :
    (first ++ rest.flatMap (sep :: ·)).splitOn sep = first :: rest := by
  induction rest generalizing first with
  | nil => rw [List.flatMap_nil,List.append_nil,List.splitOn_eq_singleton hfirst]
  | cons part rest ih =>
    obtain ⟨hpart,hrest⟩ := List.forall_mem_cons.mp hrest
    rw [List.flatMap_cons,List.cons_append,List.splitOn_append_cons_self_of_not_mem hfirst,
      ih hpart hrest]

theorem splitOn_flatMap_concat [BEq α] [LawfulBEq α] {sep : α} {f : β → List α} {xs : List β}
    (h : ∀ x ∈ xs, sep ∉ f x) :
    (xs.flatMap fun x => f x ++ [sep]).splitOn sep = xs.map f ++ [[]] := by
  induction xs with
  | nil => rfl
  | cons x xs ih =>
    obtain ⟨hx,hxs⟩ := List.forall_mem_cons.mp h
    rw [List.flatMap_cons,List.append_assoc,List.singleton_append,
      List.splitOn_append_cons_self_of_not_mem hx,ih hxs]
    rfl

@[simp] theorem flatMap_fun_nil (xs : List α) :
    xs.flatMap (fun _ => ([] : List β)) = [] :=
  List.flatMap_eq_nil_iff.mpr fun _ _ => rfl

theorem flatMap_ite (p : α → Bool) (f : α → List β) (xs : List α) :
    (xs.flatMap fun x => if p x then f x else []) = (xs.filter p).flatMap f := by
  induction xs with
  | nil => rfl
  | cons x xs ih =>
    rw [List.flatMap_cons,ih,List.filter_cons]
    split
    · rw [List.flatMap_cons]
    · rfl

theorem nodup_flatMap_of_disjoint {xs : List α} {f : α → List β} (hxs : xs.Nodup)
    (hf : ∀ a ∈ xs, (f a).Nodup) (hdisjoint : ∀ a ∈ xs, ∀ b ∈ xs, ∀ c ∈ f a, c ∈ f b → a = b) :
    (xs.flatMap f).Nodup :=
  List.nodup_flatMap.mpr
    ⟨hf,hxs.imp_of_mem fun ha hb hne c hca hcb => hne (hdisjoint _ ha _ hb c hca hcb)⟩

/-- Where the parts of a list have keys of their own, the key of a part picks it out. -/
theorem filter_flatMap_of_key {κ : Type} [DecidableEq κ] {f : α → List β} {key : β → κ}
    {name : α → κ} {xs : List α} (hkey : ∀ x ∈ xs, ∀ y ∈ f x, key y = name x)
    (hnodup : (xs.map name).Nodup) {x : α} (hx : x ∈ xs) :
    (xs.flatMap f).filter (fun y => key y = name x) = f x := by
  induction xs with
  | nil => cases hx
  | cons first xs ih =>
    obtain ⟨hfirst,hothers⟩ := List.forall_mem_cons.mp hkey
    obtain ⟨hnew,hnodup⟩ := List.nodup_cons.mp hnodup
    rw [List.flatMap_cons,List.filter_append]
    rcases List.mem_cons.mp hx with rfl | hx
    · have hrest : (xs.flatMap f).filter (fun y => key y = name x) = [] := by
        refine List.filter_eq_nil_iff.mpr fun y hy he => ?_
        obtain ⟨other,hother,hy⟩ := List.mem_flatMap.mp hy
        have he : name other = name x := (hothers other hother y hy).symm.trans (of_decide_eq_true he)
        exact hnew (he ▸ List.mem_map_of_mem hother)
      rw [hrest,List.append_nil]
      exact List.filter_eq_self.mpr fun y hy => decide_eq_true (hfirst y hy)
    · have hnone : (f first).filter (fun y => key y = name x) = [] := by
        refine List.filter_eq_nil_iff.mpr fun y hy he => ?_
        have he : name first = name x := (hfirst y hy).symm.trans (of_decide_eq_true he)
        exact hnew (he ▸ List.mem_map_of_mem hx)
      rw [hnone,List.nil_append]
      exact ih hothers hnodup hx

theorem flatMap_perm {R : α → β → Prop} (hR : Relator.BiUnique R) {f : α → List γ}
    {f' : β → List γ} {xs : List α} {ys : List β} (hxs : xs.Nodup) (hys : ys.Nodup)
    (hright : ∀ x ∈ xs, ∃ y, y ∈ ys ∧ R x y ∧ f x = f' y) (hleft : ∀ y ∈ ys, ∃ x ∈ xs, R x y) :
    (xs.flatMap f).Perm (ys.flatMap f') := by
  obtain ⟨zs,hzs⟩ := exists_forall₂ hright
  have hrelated : List.Forall₂ R xs zs := hzs.imp fun _ _ h => h.2.1
  have hmem : ∀ y, y ∈ zs ↔ y ∈ ys := by
    intro y
    constructor
    · intro hy
      obtain ⟨x,-,hxy⟩ := forall₂_exists hzs.flip hy
      exact hxy.1
    · intro hy
      obtain ⟨x,hx,hxy⟩ := hleft y hy
      obtain ⟨z,hz,hxz⟩ := forall₂_exists hrelated hx
      exact hR.2 hxy hxz ▸ hz
  have hperm : zs.Perm ys :=
    (List.perm_ext_iff_of_nodup ((List.rel_nodup hR hrelated).mp hxs) hys).mpr hmem
  have hparts : xs.flatMap f = zs.flatMap f' := by
    rw [List.flatMap_def,List.flatMap_def,map_eq_map_of_forall₂ hzs fun _ _ _ _ h => h.2.2]
  exact hparts ▸ hperm.flatMap_right f'

theorem take_flatMap_congr {f f' : α → List β} {cap : Nat}
    (h : ∀ x, (f x).take cap = (f' x).take cap) (xs : List α) :
    (xs.flatMap f).take cap = (xs.flatMap f').take cap := by
  induction xs generalizing cap with
  | nil => rfl
  | cons x xs ih =>
    have hlen : min cap (f x).length = min cap (f' x).length := by
      simpa using congrArg List.length (h x)
    simp only [List.flatMap_cons,List.take_append,h x]
    congr 1
    by_cases hc : cap ≤ (f x).length
    · rw [show cap - (f x).length = 0 by omega,show cap - (f' x).length = 0 by omega]
      simp
    · rw [show (f' x).length = (f x).length by omega]
      apply ih
      intro y
      have hy := congrArg (List.take (cap - (f x).length)) (h y)
      simpa [List.take_take] using hy

/-- Where every element is extended in the same number of ways, elements past the cap do not
matter. -/
theorem take_flatMap_take {f : α → List β} {k : Nat} (h : ∀ x, (f x).length = k) (cap : Nat)
    (xs : List α) : ((xs.take cap).flatMap f).take cap = (xs.flatMap f).take cap := by
  have hgen : ∀ n, cap ≤ n → ((xs.take n).flatMap f).take cap = (xs.flatMap f).take cap := by
    induction xs generalizing cap with
    | nil => simp
    | cons x xs ih =>
      intro n hn
      cases n with
      | zero => simp [Nat.le_zero.mp hn]
      | succ n =>
        simp only [List.take_succ_cons,List.flatMap_cons,List.take_append,h x]
        congr 1
        cases k with
        | zero =>
          have hnil (ys : List α) : ys.flatMap f = [] :=
            List.flatMap_eq_nil_iff.mpr fun y _ => List.length_eq_zero_iff.mp (h y)
          simp [hnil]
        | succ k => exact ih (cap - (k + 1)) n (by omega)
  exact hgen cap (Nat.le_refl cap)

theorem map_range_zip (f : α → β) (xs : List α) :
    ((List.range xs.length).zip xs).map (fun p => f p.2) = xs.map f := by
  have hsnd : ((List.range xs.length).zip xs).map Prod.snd = xs :=
    List.map_snd_zip (List.length_range ▸ Nat.le_refl _)
  calc ((List.range xs.length).zip xs).map (fun p => f p.2)
      = (((List.range xs.length).zip xs).map Prod.snd).map f := by rw [List.map_map]; rfl
    _ = xs.map f := by rw [hsnd]

/-- Parts that carry the positions they belong to can be told apart. -/
theorem numbered_inj (tag : Nat → β → γ)
    (htag : ∀ i j b c, tag i b = tag j c → i = j ∧ b = c) {f : α → List β} {xs ys : List α}
    (hlen : xs.length = ys.length)
    (h : ((List.range xs.length).zip xs).flatMap (fun p => (f p.2).map (tag p.1)) =
      ((List.range ys.length).zip ys).flatMap fun p => (f p.2).map (tag p.1)) :
    xs.map f = ys.map f := by
  rw [List.range_eq_range',List.range_eq_range'] at h
  -- A tail is numbered from a later position than the list, so the first position is arbitrary.
  generalize 0 = k at h
  induction xs generalizing ys k with
  | nil =>
    obtain rfl := List.length_eq_zero_iff.mp hlen.symm
    rfl
  | cons x xs ih =>
    cases ys with
    | nil => cases hlen
    | cons y ys =>
      have hlater (zs : List α) : ∀ c ∈ ((List.range' (k + 1) zs.length).zip zs).flatMap
          (fun p => (f p.2).map (tag p.1)), ¬ ∃ b, c = tag k b := by
        simp only [List.mem_flatMap,List.mem_map]
        rintro c ⟨p,hp,b,-,rfl⟩ ⟨b',he⟩
        have hmem := List.mem_range'_1.mp (List.of_mem_zip hp).1
        have := (htag _ _ _ _ he).1
        omega
      have hhere (z : α) : ∀ c ∈ (f z).map (tag k), ∃ b, c = tag k b := by
        simp only [List.mem_map]
        rintro c ⟨b,-,rfl⟩
        exact ⟨b,rfl⟩
      obtain ⟨hfirst,hrest⟩ := append_inj_of_forall (hhere x) (hhere y) (hlater xs) (hlater ys) h
      have hinj : Function.Injective (tag k) := fun b c he => (htag k k b c he).2
      rw [List.map_cons,List.map_cons,List.map_injective_iff.mpr hinj hfirst,
        ih (Nat.succ.inj hlen) (k + 1) hrest]

end PhraseGrammar
