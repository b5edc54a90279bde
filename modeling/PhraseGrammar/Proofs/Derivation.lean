import Mathlib.Data.List.Lex
import PhraseGrammar.Expansion
import PhraseGrammar.Proofs.Lists

/-! Choice scripts: the rules taken in one expansion, in the order in which the strategy is asked.
The scripts under which an expansion succeeds are listed in lexicographic order, level by level,
and the list is compared with the expansion itself. -/
namespace PhraseGrammar

/-- Answers from a script. The script is lost when it has run out or when its next answer is not
below the number of alternatives. -/
def Strategy.script : Strategy (Option (List Nat)) :=
  ⟨fun state alternatives =>
    match state with
    | some (answer :: rest) => if answer < alternatives then (answer,some rest) else (0,none)
    | _ => (0,none)⟩

@[simp] theorem Strategy.script_choose_none (n : Nat) :
    Strategy.script.choose none n = (0,none) := rfl
@[simp] theorem Strategy.script_choose_cons (answer n : Nat) (rest : List Nat) :
    Strategy.script.choose (some (answer :: rest)) n =
      if answer < n then (answer,some rest) else (0,none) := rfl

/-- One script comes before another and is no beginning of it. -/
inductive Before : List Nat → List Nat → Prop
  | head {a b : Nat} (h : a < b) (r s : List Nat) : Before (a :: r) (b :: s)
  | cons {r s : List Nat} (a : Nat) (h : Before r s) : Before (a :: r) (a :: s)

theorem Before.lt {r s : List Nat} (h : Before r s) : r < s := by
  induction h with
  | head h => exact List.Lex.rel h
  | cons a _ ih => exact List.Lex.cons ih

theorem Before.ne {r s : List Nat} (h : Before r s) : r ≠ s := by
  induction h with
  | head h => simp [Nat.ne_of_lt h]
  | cons a _ ih => simpa using ih

theorem Before.append {r s : List Nat} (h : Before r s) (u v : List Nat) :
    Before (r ++ u) (s ++ v) := by
  induction h with
  | head h r s => exact .head h _ _
  | cons a _ ih => exact .cons a ih

theorem Before.append_left {u v : List Nat} (r : List Nat) (h : Before u v) :
    Before (r ++ u) (r ++ v) := by
  induction r with
  | nil => exact h
  | cons a r ih => exact .cons a ih

abbrev Derivation := List Nat × String

namespace Graph

variable {σ : Type} {g : Graph} {limit : Option Nat}

/-- The derivations of segments from those of the groups that the placeholders enter. -/
def fills (all : GroupId → List Derivation) : List Segment → List GroupId → List Derivation
  | [], _ => [([],"")]
  | .literal text :: segments, ids => (fills all segments ids).map fun d => (d.1,text ++ d.2)
  | .placeholder _ :: _, [] => []
  | .placeholder p :: segments, id :: ids =>
    (all id).flatMap fun d =>
      (fills all segments ids).map fun e => (d.1 ++ e.1,p.applyModifiers d.2 ++ e.2)

def ruleFills (all : GroupId → List Derivation) (rule : Rule) : List Derivation :=
  fills all rule.template.segments rule.references

/-- The derivations of a group that nest at most `levels` levels. -/
def derivations (g : Graph) (limit : Option Nat) : (levels depth : Nat) → GroupId → List Derivation
  | 0, _, _ => []
  | levels + 1, depth, id =>
    match exceeded? limit depth with
    | some _ => []
    | none =>
      (g.group id).rules.zipIdx.flatMap fun (rule,i) =>
        (ruleFills (g.derivations limit levels (depth + 1)) rule).map fun d => (i :: d.1,d.2)

theorem mem_derivations_succ {levels depth : Nat} {id : GroupId} {script : List Nat}
    {text : String} :
    (script,text) ∈ g.derivations limit (levels + 1) depth id ↔
      exceeded? limit depth = none ∧ ∃ i rule rest, (g.group id).rules[i]? = some rule ∧
        script = i :: rest ∧
        (rest,text) ∈ ruleFills (g.derivations limit levels (depth + 1)) rule := by
  rw [derivations]
  cases exceeded? limit depth with
  | some n => simp
  | none =>
    simp only [List.mem_flatMap,List.mem_map,Prod.mk.injEq,true_and,Prod.exists]
    constructor
    · rintro ⟨rule,i,hi,rest,text',hmem,rfl,rfl⟩
      exact ⟨i,rule,rest,List.mk_mem_zipIdx_iff_getElem?.mp hi,rfl,hmem⟩
    · rintro ⟨i,rule,rest,hi,rfl,hmem⟩
      exact ⟨rule,i,List.mk_mem_zipIdx_iff_getElem?.mpr hi,rest,text,hmem,rfl,rfl⟩

theorem fills_pairwise {all : GroupId → List Derivation}
    (h : ∀ id, (all id).Pairwise fun a b => Before a.1 b.1) (segments : List Segment)
    (ids : List GroupId) : (fills all segments ids).Pairwise fun a b => Before a.1 b.1 := by
  induction segments generalizing ids with
  | nil => simp [fills]
  | cons segment segments ih =>
    cases segment with
    | literal text => simpa [fills,List.pairwise_map] using ih ids
    | placeholder p =>
      cases ids with
      | nil => simp [fills]
      | cons id ids =>
        simp only [fills,List.pairwise_flatMap,List.pairwise_map,List.mem_map]
        constructor
        · exact fun d _ => (ih ids).imp fun h => h.append_left d.1
        · refine (h id).imp fun hab x hx y hy => ?_
          obtain ⟨u,-,rfl⟩ := hx
          obtain ⟨v,-,rfl⟩ := hy
          exact hab.append _ _

theorem derivations_pairwise (levels depth : Nat) (id : GroupId) :
    (g.derivations limit levels depth id).Pairwise fun a b => Before a.1 b.1 := by
  induction levels generalizing depth id with
  | zero => simp [derivations]
  | succ levels ih =>
    rw [derivations]
    cases exceeded? limit depth with
    | some n => simp
    | none =>
      simp only [List.pairwise_flatMap,List.pairwise_map,List.mem_map]
      constructor
      · exact fun p _ => (fills_pairwise (ih (depth + 1)) _ _).imp fun h => h.cons _
      · refine (zipIdx_pairwise _ 0).imp fun hab x hx y hy => ?_
        obtain ⟨u,-,rfl⟩ := hx
        obtain ⟨v,-,rfl⟩ := hy
        exact .head hab _ _

theorem nodup_scripts (levels depth : Nat) (id : GroupId) :
    ((g.derivations limit levels depth id).map Prod.fst).Nodup :=
  List.pairwise_map.mpr ((derivations_pairwise levels depth id).imp Before.ne)

theorem fills_sublist {all all' : GroupId → List Derivation}
    (h : ∀ id, List.Sublist (all id) (all' id)) (segments : List Segment) (ids : List GroupId) :
    List.Sublist (fills all segments ids) (fills all' segments ids) := by
  induction segments generalizing ids with
  | nil => exact .refl _
  | cons segment segments ih =>
    cases segment with
    | literal text => exact (ih ids).map _
    | placeholder p =>
      cases ids with
      | nil => exact .refl _
      | cons id ids =>
        exact (List.Sublist.flatMap_right _ fun d _ => (ih ids).map _).trans
          ((h id).flatMap _)

theorem derivations_sublist_succ (levels depth : Nat) (id : GroupId) :
    List.Sublist (g.derivations limit levels depth id)
      (g.derivations limit (levels + 1) depth id) := by
  induction levels generalizing depth id with
  | zero => exact List.nil_sublist _
  | succ levels ih =>
    rw [derivations,derivations]
    cases exceeded? limit depth with
    | some n => exact .refl _
    | none =>
      exact List.Sublist.flatMap_right _ fun p _ =>
        (fills_sublist (ih (depth + 1)) _ _).map _

theorem derivations_sublist {levels levels' : Nat} (h : levels ≤ levels') (depth : Nat)
    (id : GroupId) : List.Sublist (g.derivations limit levels depth id)
      (g.derivations limit levels' depth id) := by
  induction h with
  | refl => exact .refl _
  | step _ ih => exact ih.trans (derivations_sublist_succ _ depth id)

theorem fill_script_none {enter : GroupId → Option (List Nat) → Outcome String × Option (List Nat)}
    (h : ∀ id, (enter id none).2 = none) (segments : List Segment) (ids : List GroupId) :
    (fill enter segments ids none).2 = none := by
  induction segments generalizing ids with
  | nil => rfl
  | cons segment segments ih =>
    cases segment with
    | literal text => exact ih ids
    | placeholder p =>
      cases ids with
      | nil => rfl
      | cons id ids =>
        have hs := h id
        rw [fill]
        revert hs
        rcases enter id none with ⟨text | e | _,s⟩ <;> rintro rfl
        · exact ih ids
        · rfl
        · rfl

/-- Filling under a script succeeds exactly by using up a derivation from the script's front. -/
theorem fill_script_iff
    {enter : GroupId → Option (List Nat) → Outcome String × Option (List Nat)}
    {all : GroupId → List Derivation} (hnone : ∀ id, (enter id none).2 = none)
    (henter : ∀ id script text rest, enter id (some script) = (.done text,some rest) ↔
      ∃ used, script = used ++ rest ∧ (used,text) ∈ all id)
    (segments : List Segment) (ids : List GroupId) (script : List Nat) (text : String)
    (rest : List Nat) :
    fill enter segments ids (some script) = (.done text,some rest) ↔
      ∃ used, script = used ++ rest ∧ (used,text) ∈ fills all segments ids := by
  induction segments generalizing ids script text with
  | nil =>
    simp only [fill,fills,Prod.mk.injEq,Outcome.done.injEq,Option.some.injEq,List.mem_singleton]
    constructor
    · rintro ⟨rfl,rfl⟩
      exact ⟨[],rfl,rfl,rfl⟩
    · rintro ⟨used,rfl,rfl,rfl⟩
      exact ⟨rfl,rfl⟩
  | cons segment segments ih =>
    cases segment with
    | literal lead =>
      simp only [fill,fills,List.mem_map,Prod.mk.injEq]
      constructor
      · rintro ⟨ho,hs⟩
        rcases hf : fill enter segments ids (some script) with ⟨text' | e | _,s⟩ <;>
          simp only [hf,Outcome.map,Outcome.done.injEq,reduceCtorEq] at ho hs
        subst ho hs
        obtain ⟨used,hused,hmem⟩ := (ih ids script text').mp hf
        exact ⟨used,hused,_,hmem,rfl,rfl⟩
      · rintro ⟨used,rfl,d,hmem,rfl,rfl⟩
        have hf := (ih ids (d.1 ++ rest) d.2).mpr ⟨d.1,rfl,hmem⟩
        simp [hf]
    | placeholder p =>
      cases ids with
      | nil => simp [fill,fills]
      | cons id ids =>
        simp only [fills,List.mem_flatMap,List.mem_map,Prod.mk.injEq]
        constructor
        · intro h
          rw [fill] at h
          rcases he : enter id (some script) with ⟨text' | e | _,_ | s⟩ <;> simp only [he] at h
          · have hn := fill_script_none hnone segments ids
            rw [(Prod.mk.inj h).2] at hn
            cases hn
          · obtain ⟨first,rfl,hfirst⟩ := (henter id script text' s).mp he
            rcases hf : fill enter segments ids (some s) with ⟨text'' | e | _,s'⟩ <;>
              simp only [hf,Outcome.map,Prod.mk.injEq,Outcome.done.injEq,reduceCtorEq,
                false_and] at h
            obtain ⟨rfl,rfl⟩ := h
            obtain ⟨second,rfl,hsecond⟩ := (ih ids s text'').mp hf
            exact ⟨first ++ second,by simp,_,hfirst,_,hsecond,rfl,rfl⟩
          all_goals cases (Prod.mk.inj h).1
        · rintro ⟨used,rfl,d,hd,e,he,rfl,rfl⟩
          have h1 := (henter id (d.1 ++ (e.1 ++ rest)) d.2 (e.1 ++ rest)).mpr ⟨d.1,rfl,hd⟩
          have h2 := (ih ids (e.1 ++ rest) e.2).mpr ⟨e.1,rfl,he⟩
          rw [fill,List.append_assoc,h1]
          simp [h2]

theorem expandGroup_script_none (levels depth : Nat) (id : GroupId) :
    (g.expandGroup limit .script levels depth id none).2 = none := by
  induction levels generalizing depth id with
  | zero => rfl
  | succ levels ih =>
    rw [expandGroup]
    cases exceeded? limit depth with
    | some n => rfl
    | none =>
      simp only [Strategy.script_choose_none]
      split
      · rfl
      · split
        · rfl
        · exact fill_script_none (ih (depth + 1)) _ _

theorem expandGroup_script_lost {levels depth : Nat} {id : GroupId} {state : Option (List Nat)}
    (h : (Strategy.script.choose state (g.group id).rules.length).2 = none) (text : String)
    (rest : List Nat) :
    g.expandGroup limit .script levels depth id state ≠ (.done text,some rest) := by
  intro he
  cases levels with
  | zero => cases (Prod.mk.inj he).1
  | succ levels =>
    rw [expandGroup] at he
    rcases hl : exceeded? limit depth with _ | n
    · simp only [hl] at he
      split at he
      · cases (Prod.mk.inj he).1
      · rw [h] at he
        split at he
        · cases (Prod.mk.inj he).1
        · rename_i rule _
          have hs : (fill (g.expandGroup limit .script levels (depth + 1)) rule.template.segments
              rule.references none).2 = none :=
            fill_script_none (expandGroup_script_none levels (depth + 1)) _ _
          rw [(Prod.mk.inj he).2] at hs
          cases hs
    · simp [hl] at he

theorem expandGroup_script_iff (levels depth : Nat) (id : GroupId) (script : List Nat)
    (text : String) (rest : List Nat) :
    g.expandGroup limit .script levels depth id (some script) = (.done text,some rest) ↔
      ∃ used, script = used ++ rest ∧ (used,text) ∈ g.derivations limit levels depth id := by
  induction levels generalizing depth id script text rest with
  | zero => simp [expandGroup,derivations]
  | succ levels ih =>
    have hfill := fill_script_iff (expandGroup_script_none levels (depth + 1)) (ih (depth + 1))
    simp only [mem_derivations_succ]
    cases script with
    | nil =>
      refine iff_of_false (expandGroup_script_lost rfl text rest) ?_
      rintro ⟨used,hused,-,i,rule,tail,-,rfl,-⟩
      simp at hused
    | cons answer script =>
      by_cases hlt : answer < (g.group id).rules.length
      · have hne : (g.group id).rules ≠ [] := by
          intro he
          simp [he] at hlt
        rw [expandGroup]
        cases exceeded? limit depth with
        | some n => simp
        | none =>
          simp only [Strategy.script_choose_cons,List.isEmpty_iff,hne,if_false,if_pos hlt,
            Nat.mod_eq_of_lt hlt,List.getElem?_eq_getElem hlt,true_and]
          rw [hfill]
          constructor
          · rintro ⟨used,rfl,hmem⟩
            exact ⟨answer :: used,rfl,answer,_,used,List.getElem?_eq_getElem hlt,rfl,hmem⟩
          · rintro ⟨used,hused,i,rule,tail,hi,rfl,hmem⟩
            obtain ⟨rfl,rfl⟩ := List.cons.inj hused
            rw [List.getElem?_eq_getElem hlt,Option.some.injEq] at hi
            exact ⟨tail,rfl,hi ▸ hmem⟩
      · refine iff_of_false (expandGroup_script_lost (by simp [hlt]) text rest) ?_
        rintro ⟨used,hused,-,i,rule,tail,hi,rfl,-⟩
        obtain ⟨rfl,rfl⟩ := List.cons.inj hused
        exact hlt (List.getElem?_eq_some_iff.mp hi).1

/-- The expansion succeeds with the text when the strategy answers by the script, and it asks for
as many answers as the script has. -/
def Yields (g : Graph) (limit : Option Nat) (symbol : String) (script : List Nat) (text : String) :
    Prop :=
  ∃ levels, g.expand limit levels .script symbol (some script) = (.done text,some [])

theorem yields_iff {symbol : String} {script : List Nat} {text : String} :
    g.Yields limit symbol script text ↔ ∃ id, g.idOf? symbol = some id ∧
      ∃ levels, (script,text) ∈ g.derivations limit levels 0 id := by
  unfold Yields expand
  cases g.idOf? symbol with
  | none => simp
  | some id => simp [expandGroup_script_iff]

theorem exists_fills_of_fill {enter : GroupId → σ → Outcome String × σ}
    {all : GroupId → List Derivation}
    (h : ∀ id s text s', enter id s = (.done text,s') → ∃ used, (used,text) ∈ all id)
    {segments : List Segment} {ids : List GroupId} {s s' : σ} {text : String}
    (hf : fill enter segments ids s = (.done text,s')) :
    ∃ used, (used,text) ∈ fills all segments ids := by
  induction segments generalizing ids s text with
  | nil =>
    obtain ⟨ht,-⟩ := Prod.mk.inj hf
    exact ⟨[],by simp [fills,Outcome.done.inj ht]⟩
  | cons segment segments ih =>
    cases segment with
    | literal lead =>
      rw [fill] at hf
      rcases hr : fill enter segments ids s with ⟨last | e | _,t⟩ <;>
        simp only [hr,Outcome.map,Prod.mk.injEq,Outcome.done.injEq,reduceCtorEq,false_and] at hf
      obtain ⟨used,hmem⟩ := ih (hr.trans (by rw [hf.2]))
      refine ⟨used,List.mem_map.mpr ⟨_,hmem,?_⟩⟩
      rw [← hf.1]
    | placeholder p =>
      cases ids with
      | nil => cases (Prod.mk.inj hf).1
      | cons id ids =>
        rw [fill] at hf
        rcases he : enter id s with ⟨filled | e | _,t⟩ <;> simp only [he] at hf
        · obtain ⟨first,hfirst⟩ := h id s filled t he
          rcases hr : fill enter segments ids t with ⟨last | e | _,t'⟩ <;>
            simp only [hr,Outcome.map,Prod.mk.injEq,Outcome.done.injEq,reduceCtorEq,
              false_and] at hf
          obtain ⟨second,hsecond⟩ := ih (hr.trans (by rw [hf.2]))
          refine ⟨first ++ second,?_⟩
          simp only [fills,List.mem_flatMap,List.mem_map,Prod.mk.injEq]
          exact ⟨_,hfirst,_,hsecond,rfl,hf.1⟩
        all_goals cases (Prod.mk.inj hf).1

theorem exists_derivation_of_expandGroup {strategy : Strategy σ} {levels depth : Nat}
    {id : GroupId} {s s' : σ} {text : String}
    (h : g.expandGroup limit strategy levels depth id s = (.done text,s')) :
    ∃ used, (used,text) ∈ g.derivations limit levels depth id := by
  induction levels generalizing depth id s s' text with
  | zero => cases (Prod.mk.inj h).1
  | succ levels ih =>
    rw [expandGroup] at h
    rcases hl : exceeded? limit depth with _ | n <;> simp only [hl] at h
    · split at h
      · cases (Prod.mk.inj h).1
      · split at h
        · cases (Prod.mk.inj h).1
        · rename_i rule hrule
          obtain ⟨used,hmem⟩ := exists_fills_of_fill (fun id s text s' he => ih he) h
          exact ⟨_,mem_derivations_succ.mpr ⟨hl,_,rule,used,hrule,rfl,hmem⟩⟩
    · cases (Prod.mk.inj h).1

end Graph

end PhraseGrammar
