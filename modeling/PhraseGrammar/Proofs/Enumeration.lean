import PhraseGrammar.Enumeration
import PhraseGrammar.Proofs.Derivation

/-! Enumeration lists the texts of the first derivations, in the order of their scripts. Cutting
partial texts at the cap loses nothing, because every one of them is extended in as many ways. -/
namespace PhraseGrammar

namespace Graph

variable {σ : Type} {g : Graph} {limit : Option Nat}

theorem combine_eq_take {enter : GroupId → Outcome (List String)}
    {all : GroupId → List Derivation} {cap : Nat}
    (h : ∀ id options, enter id = .done options → options = ((all id).map Prod.snd).take cap)
    {segments : List Segment} {ids : List GroupId} {texts out : List String}
    (hlen : texts.length ≤ cap) (hc : combine enter cap segments ids texts = .done out) :
    out = (texts.flatMap fun t => (fills all segments ids).map fun d => t ++ d.2).take cap := by
  induction segments generalizing ids texts with
  | nil =>
    rw [combine,Outcome.done.injEq] at hc
    subst hc
    simp [fills,List.take_of_length_le hlen]
  | cons segment segments ih =>
    cases segment with
    | literal lead =>
      rw [combine] at hc
      rw [ih (by simpa using hlen) hc]
      simp [fills,List.flatMap_map,Function.comp_def,String.append_assoc]
    | placeholder p =>
      cases ids with
      | nil => cases hc
      | cons id ids =>
        rw [combine] at hc
        rcases he : enter id with options | e | _ <;> simp only [he,Outcome.bind] at hc
        · rw [products_eq_take] at hc
          rw [ih (List.length_take_le _ _) hc,h id options he]
          have hk : ∀ t : String, ((fills all segments ids).map fun d => t ++ d.2).length =
              (fills all segments ids).length := by simp
          rw [take_flatMap_take hk,List.flatMap_assoc]
          apply take_flatMap_congr
          intro t
          rw [List.map_take,List.map_take,take_flatMap_take hk]
          simp [fills,List.flatMap_map,List.map_flatMap,Function.comp_def,String.append_assoc]
        all_goals cases hc

theorem gather_eq_take {list : Nat → Rule → Outcome (List String)} {full : Rule → List String}
    (h : ∀ cap rule texts, 0 < cap → list cap rule = .done texts → texts = (full rule).take cap)
    {cap : Nat} {rules : List Rule} {out : List String} (hg : gather list cap rules = .done out) :
    out = (rules.flatMap full).take cap := by
  induction rules generalizing cap out with
  | nil =>
    rw [gather,Outcome.done.injEq] at hg
    simp [← hg]
  | cons rule rules ih =>
    rw [gather] at hg
    split at hg
    · rename_i hcap
      rw [Outcome.done.injEq] at hg
      simp [← hg,hcap]
    · rename_i hcap
      rcases hl : list cap rule with texts | e | _ <;> simp only [hl,Outcome.bind] at hg
      · rcases hr : gather list (cap - texts.length) rules with rest | e | _ <;>
          simp only [hr,Outcome.map,Outcome.done.injEq,reduceCtorEq] at hg
        have htexts := h cap rule texts (Nat.pos_of_ne_zero hcap) hl
        have hlen : cap - texts.length = cap - (full rule).length := by
          rw [htexts,List.length_take]
          omega
        rw [← hg,List.flatMap_cons,List.take_append,← htexts,ih hr,hlen]
      all_goals cases hg

theorem map_snd_derivations_succ {levels depth : Nat} {id : GroupId}
    (h : exceeded? limit depth = none) :
    (g.derivations limit (levels + 1) depth id).map Prod.snd =
      (g.group id).rules.flatMap fun rule =>
        (ruleFills (g.derivations limit levels (depth + 1)) rule).map Prod.snd := by
  rw [derivations,h]
  simp only [List.map_flatMap,List.map_map,Function.comp_def]
  rw [← List.flatMap_map Prod.fst fun rule =>
    (ruleFills (g.derivations limit levels (depth + 1)) rule).map Prod.snd,List.zipIdx_map_fst]

/-- A finished enumeration lists the texts of the first derivations. -/
theorem enumerateGroup_eq_take {levels depth cap : Nat} {id : GroupId} {texts : List String}
    (h : g.enumerateGroup limit levels depth cap id = .done texts) :
    texts = ((g.derivations limit levels depth id).map Prod.snd).take cap := by
  induction levels generalizing depth cap id texts with
  | zero => cases h
  | succ levels ih =>
    rw [enumerateGroup] at h
    rcases hl : exceeded? limit depth with _ | n <;> simp only [hl] at h
    · rw [map_snd_derivations_succ hl]
      refine gather_eq_take (fun cap rule texts hcap hc => ?_) h
      rw [combine_eq_take (fun id options => ih) hcap hc]
      simp [ruleFills]
    · cases h

theorem combine_mono {enter enter' : GroupId → Outcome (List String)} {cap : Nat}
    (h : ∀ id, enter id ≠ .unfinished → enter' id = enter id) {segments : List Segment}
    {ids : List GroupId} {texts : List String}
    (hc : combine enter cap segments ids texts ≠ .unfinished) :
    combine enter' cap segments ids texts = combine enter cap segments ids texts := by
  induction segments generalizing ids texts with
  | nil => rfl
  | cons segment segments ih =>
    cases segment with
    | literal text => exact ih hc
    | placeholder p =>
      cases ids with
      | nil => rfl
      | cons id ids =>
        rw [combine] at hc
        have he : enter id ≠ .unfinished := by
          intro he
          simp [he] at hc
        rw [combine,combine,h id he]
        cases hid : enter id with
        | done options =>
          rw [hid] at hc
          exact ih hc
        | failed e => rfl
        | unfinished => rfl

theorem gather_mono {list list' : Nat → Rule → Outcome (List String)}
    (h : ∀ cap rule, list cap rule ≠ .unfinished → list' cap rule = list cap rule)
    {cap : Nat} {rules : List Rule} (hg : gather list cap rules ≠ .unfinished) :
    gather list' cap rules = gather list cap rules := by
  induction rules generalizing cap with
  | nil => rfl
  | cons rule rules ih =>
    rw [gather] at hg
    rw [gather,gather]
    split
    · rfl
    · rename_i hcap
      rw [if_neg hcap] at hg
      have hl : list cap rule ≠ .unfinished := by
        intro hl
        simp [hl] at hg
      rw [h cap rule hl]
      cases hr : list cap rule with
      | done texts =>
        have hrest : gather list (cap - texts.length) rules ≠ .unfinished := by
          intro he
          simp [hr,he] at hg
        simp [ih hrest]
      | failed e => rfl
      | unfinished => rfl

theorem enumerateGroup_succ {levels depth cap : Nat} {id : GroupId}
    (h : g.enumerateGroup limit levels depth cap id ≠ .unfinished) :
    g.enumerateGroup limit (levels + 1) depth cap id =
      g.enumerateGroup limit levels depth cap id := by
  induction levels generalizing depth cap id with
  | zero => exact absurd rfl h
  | succ levels ih =>
    rw [enumerateGroup] at h
    rw [enumerateGroup,enumerateGroup]
    cases hl : exceeded? limit depth with
    | some n => rfl
    | none =>
      simp only [hl] at h
      exact gather_mono (fun cap rule => combine_mono fun id => ih) h

theorem enumerateGroup_mono {levels levels' depth cap : Nat} {id : GroupId}
    (h : g.enumerateGroup limit levels depth cap id ≠ .unfinished) (hle : levels ≤ levels') :
    g.enumerateGroup limit levels' depth cap id = g.enumerateGroup limit levels depth cap id := by
  induction hle with
  | refl => rfl
  | step _ ih => exact (enumerateGroup_succ (ih ▸ h)).trans ih

theorem derivations_sublist_of_length_lt {levels depth cap : Nat} {id : GroupId}
    {texts : List String} (h : g.enumerateGroup limit levels depth cap id = .done texts)
    (hlt : texts.length < cap) (levels' : Nat) :
    List.Sublist (g.derivations limit levels' depth id) (g.derivations limit levels depth id) := by
  have hmax := (enumerateGroup_mono (by simp [h]) (Nat.le_max_left levels levels')).trans h
  have hlen := congrArg List.length (enumerateGroup_eq_take h)
  have hlenMax := congrArg List.length (enumerateGroup_eq_take hmax)
  simp only [List.length_take,List.length_map] at hlen hlenMax
  have hsub : List.Sublist (g.derivations limit levels depth id)
      (g.derivations limit (max levels levels') depth id) :=
    derivations_sublist (Nat.le_max_left levels levels') depth id
  rw [hsub.eq_of_length (by omega)]
  exact derivations_sublist (Nat.le_max_right levels levels') depth id

/-- Enumeration lists what expansion can produce: its texts belong to strictly increasing scripts,
and short of the cap there is no other script and no other text under any strategy. -/
theorem enumerate_lists_expansions {levels cap : Nat} {symbol : String} {texts : List String}
    (h : g.enumerate limit levels symbol cap = .done texts) :
    texts.length ≤ cap ∧ ∃ scripts : List (List Nat),
      scripts.Pairwise (· < ·) ∧ List.Forall₂ (g.Yields limit symbol) scripts texts ∧
      (texts.length < cap →
        (∀ script text, g.Yields limit symbol script text → script ∈ scripts) ∧
        ∀ {σ : Type} (strategy : Strategy σ) (levels' : Nat) (s s' : σ) (text : String),
          g.expand limit levels' strategy symbol s = (.done text,s') → text ∈ texts) := by
  rw [enumerate] at h
  rcases hid : g.idOf? symbol with _ | id <;> simp only [hid] at h
  · cases h
  · have htake := enumerateGroup_eq_take h
    have hlen : texts.length ≤ cap := by
      rw [htake]
      exact List.length_take_le _ _
    refine ⟨hlen,((g.derivations limit levels 0 id).take cap).map Prod.fst,?_,?_,fun hlt => ?_⟩
    · rw [List.pairwise_map]
      exact (derivations_pairwise levels 0 id).take.imp Before.lt
    · rw [htake,← List.map_take,List.forall₂_map_left_iff,List.forall₂_map_right_iff,
        List.forall₂_same]
      exact fun d hd => yields_iff.mpr ⟨id,hid,levels,List.mem_of_mem_take hd⟩
    · have hall : (g.derivations limit levels 0 id).take cap = g.derivations limit levels 0 id := by
        apply List.take_of_length_le
        have hl := congrArg List.length htake
        simp only [List.length_take,List.length_map] at hl
        omega
      have hmem {levels' : Nat} {d : Derivation} (hd : d ∈ g.derivations limit levels' 0 id) :
          d ∈ g.derivations limit levels 0 id :=
        (derivations_sublist_of_length_lt h hlt levels').subset hd
      constructor
      · intro script text hy
        obtain ⟨id',hid',levels',hd⟩ := yields_iff.mp hy
        obtain rfl : id = id' := Option.some.inj (hid.symm.trans hid')
        rw [hall]
        exact List.mem_map_of_mem (hmem hd)
      · intro σ strategy levels' s s' text hx
        rw [expand,hid] at hx
        obtain ⟨used,hd⟩ := exists_derivation_of_expandGroup hx
        rw [htake,← List.map_take,hall]
        exact List.mem_map_of_mem (hmem hd)

/-- The second rule of `a` mentions a group that has no rules. -/
def vanishing : Graph :=
  ((empty.declare "a" ["x","#c##gone#","#c.capitalize##c#"]).2.declare "c" ["u","v"]).2

theorem enumerate_lists_expansions_vanishing :
    vanishing.enumerate none 2 "a" 6 = .done ["x","Uu","Uv","Vu","Vv"] ∧
    ∃ scripts : List (List Nat), scripts.Pairwise (· < ·) ∧
      List.Forall₂ (vanishing.Yields none "a") scripts ["x","Uu","Uv","Vu","Vv"] ∧
      ∀ script text, vanishing.Yields none "a" script text → script ∈ scripts := by
  have h : vanishing.enumerate none 2 "a" 6 = .done ["x","Uu","Uv","Vu","Vv"] := by
    decide +kernel
  obtain ⟨-,scripts,hpairwise,hyields,hall⟩ := enumerate_lists_expansions h
  exact ⟨h,scripts,hpairwise,hyields,(hall (by decide)).1⟩

end Graph

end PhraseGrammar
