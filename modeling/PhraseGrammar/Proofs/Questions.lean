import Mathlib.Data.Nat.ModEq
import PhraseGrammar.Proofs.Bisimulation
import PhraseGrammar.Proofs.Graph.Edits
import PhraseGrammar.Proofs.Safety

/-! What an expansion asks its strategy. Groups wait to be entered, and the one that was met first
comes next: entering it asks for one of its rules and puts the groups of that rule in front of those
that waited before. Of an answer only the remainder matters, so a strategy can be exchanged for
every other one that answers the same up to multiples. Whatever it answers, no rule and no group is
looked for outside its table. -/
namespace PhraseGrammar

namespace Strategy

variable {σ τ : Type}

/-- The state once the questions have been asked. -/
def after (strategy : Strategy σ) : σ → List Nat → σ
  | s, [] => s
  | s, alternatives :: asked => strategy.after (strategy.choose s alternatives).2 asked

/-- Asked the same questions, the strategies give answers that differ by multiples of the
alternatives. -/
def Congruent (strategy : Strategy σ) (strategy' : Strategy τ) : σ → τ → List Nat → Prop
  | _, _, [] => True
  | s, t, alternatives :: asked =>
    (strategy.choose s alternatives).1 ≡ (strategy'.choose t alternatives).1 [MOD alternatives] ∧
      Congruent strategy strategy' (strategy.choose s alternatives).2
        (strategy'.choose t alternatives).2 asked

variable {strategy : Strategy σ} {strategy' : Strategy τ}

theorem after_append (s : σ) (asked later : List Nat) :
    strategy.after s (asked ++ later) = strategy.after (strategy.after s asked) later := by
  induction asked generalizing s with
  | nil => rfl
  | cons alternatives asked ih => exact ih _

theorem congruent_append {s : σ} {t : τ} {asked later : List Nat} :
    strategy.Congruent strategy' s t (asked ++ later) ↔ strategy.Congruent strategy' s t asked ∧
      strategy.Congruent strategy' (strategy.after s asked) (strategy'.after t asked) later := by
  induction asked generalizing s t with
  | nil => simp [Congruent,after]
  | cons alternatives asked ih => simp only [List.cons_append,Congruent,after,ih,and_assoc]

theorem congruent_refl (strategy : Strategy σ) (s : σ) (asked : List Nat) :
    strategy.Congruent strategy s s asked := by
  induction asked generalizing s with
  | nil => trivial
  | cons alternatives asked ih => exact ⟨rfl,ih _⟩

theorem after_recording (s : σ) (before asked : List Nat) :
    strategy.recording.after (s,before) asked = (strategy.after s asked,before ++ asked) := by
  induction asked generalizing s before with
  | nil => simp [after]
  | cons alternatives asked ih =>
    rw [after,after,List.append_cons]
    exact ih _ _

theorem congruent_recording {s : σ} {t : τ} {before asked : List Nat} :
    strategy.Congruent strategy'.recording s (t,before) asked ↔
      strategy.Congruent strategy' s t asked := by
  induction asked generalizing s t before with
  | nil => exact Iff.rfl
  | cons alternatives asked ih => exact and_congr Iff.rfl ih

end Strategy

namespace Graph

open Relation

variable {σ : Type} {g : Graph} {limit : Option Nat} {strategy : Strategy σ}

/-- How many rules a strategy chooses from. -/
def alternatives (g : Graph) (id : GroupId) : Nat := (g.group id).rules.length

/-- The groups that are entered one after another, each with the rule that the strategy takes, and
those that wait before and after it. A group waits with its depth. -/
inductive Enters (g : Graph) (limit : Option Nat) (strategy : Strategy σ) :
    σ → List (GroupId × Nat) → List GroupId → List (GroupId × Nat) → Prop
  | stay (s : σ) (waiting : List (GroupId × Nat)) : Enters g limit strategy s waiting [] waiting
  | enter {s : σ} {id depth : Nat} {waiting left : List (GroupId × Nat)} {entered : List GroupId}
    {rule : Rule} (hroom : exceeded? limit depth = none)
    (hrule : (g.group id).rules[(strategy.choose s (g.alternatives id)).1 % g.alternatives id]? =
      some rule)
    (h : Enters g limit strategy (strategy.choose s (g.alternatives id)).2
      (rule.references.map (·,depth + 1) ++ waiting) entered left) :
    Enters g limit strategy s ((id,depth) :: waiting) (id :: entered) left

/-- Why no further group is entered: none waits, or the next one has no rules or lies past the
limit. A run may also be left unfinished anywhere before its end. -/
inductive Ends (g : Graph) (limit : Option Nat) : Outcome String → List (GroupId × Nat) → Prop
  | done (text : String) : Ends g limit (.done text) []
  | empty {id depth : Nat} (hroom : exceeded? limit depth = none)
    (hrules : (g.group id).rules = []) (waiting : List (GroupId × Nat)) :
    Ends g limit (.failed (.emptyGroup (g.group id).name)) ((id,depth) :: waiting)
  | cut {id depth n : Nat} (hpast : exceeded? limit depth = some n)
    (waiting : List (GroupId × Nat)) :
    Ends g limit (.failed (.depthLimit (g.group id).name n)) ((id,depth) :: waiting)
  | unfinished (next : GroupId × Nat) (waiting : List (GroupId × Nat)) :
    Ends g limit .unfinished (next :: waiting)

theorem Enters.append {s : σ} {waiting left : List (GroupId × Nat)} {entered : List GroupId}
    (h : g.Enters limit strategy s waiting entered left) (rest : List (GroupId × Nat)) :
    g.Enters limit strategy s (waiting ++ rest) entered (left ++ rest) := by
  induction h with
  | stay s waiting => exact .stay s _
  | enter hroom hrule _ ih => exact .enter hroom hrule (by rwa [List.append_assoc] at ih)

theorem Enters.trans {s : σ} {waiting between left : List (GroupId × Nat)}
    {entered later : List GroupId} (h : g.Enters limit strategy s waiting entered between)
    (hlater : g.Enters limit strategy (strategy.after s (entered.map g.alternatives)) between later
      left) : g.Enters limit strategy s waiting (entered ++ later) left := by
  induction h with
  | stay s waiting => exact hlater
  | enter hroom hrule _ ih => exact .enter hroom hrule (ih hlater)

theorem Enters.alternatives_pos {s : σ} {waiting left : List (GroupId × Nat)}
    {entered : List GroupId} (h : g.Enters limit strategy s waiting entered left) :
    ∀ id ∈ entered, 0 < g.alternatives id := by
  induction h with
  | stay s waiting => simp
  | enter hroom hrule _ ih =>
    refine List.forall_mem_cons.mpr ⟨?_,ih⟩
    exact List.length_pos_of_mem (List.mem_of_getElem? hrule)

theorem Ends.map {o : Outcome String} {left : List (GroupId × Nat)} (h : g.Ends limit o left)
    (f : String → String) : g.Ends limit (o.map f) left := by
  cases h with
  | done text => exact .done (f text)
  | empty hroom hrules waiting => exact .empty hroom hrules waiting
  | cut hpast waiting => exact .cut hpast waiting
  | unfinished next waiting => exact .unfinished next waiting

/-- How the run comes out and which groups it enters, under this strategy and under every other one
that answers alike. -/
def Leads (g : Graph) (limit : Option Nat) (strategy : Strategy σ) (s : σ)
    (waiting : List (GroupId × Nat))
    (run : (τ : Type) → Strategy τ → τ → Outcome String × τ) : Prop :=
  ∃ o entered left, g.Ends limit o left ∧ ∀ (τ : Type) (strategy' : Strategy τ) (t : τ),
    strategy.Congruent strategy' s t (entered.map g.alternatives) →
      g.Enters limit strategy' t waiting entered left ∧
      run τ strategy' t = (o,strategy'.after t (entered.map g.alternatives))

/-- The groups of the placeholders are entered from left to right, each with all that it leads to
before the next. -/
theorem leads_fill {enter : (τ : Type) → Strategy τ → GroupId → τ → Outcome String × τ}
    {depth : Nat}
    (henter : ∀ id s, g.Leads limit strategy s [(id,depth)] fun τ strategy' => enter τ strategy' id)
    {segments : List Segment} {ids : List GroupId}
    (hlen : ids.length = (segments.filterMap Segment.placeholder?).length) (s : σ) :
    g.Leads limit strategy s (ids.map (·,depth)) fun τ strategy' =>
      fill (enter τ strategy') segments ids := by
  induction segments generalizing ids s with
  | nil =>
    obtain rfl := List.eq_nil_of_length_eq_zero hlen
    exact ⟨_,[],[],.done "",fun τ strategy' t _ => ⟨.stay t [],rfl⟩⟩
  | cons segment segments ih =>
    cases segment with
    | literal text =>
      obtain ⟨o,entered,left,hends,hrun⟩ := ih hlen s
      refine ⟨_,entered,left,hends.map (text ++ ·),fun τ strategy' t hc => ?_⟩
      obtain ⟨henters,he⟩ := hrun τ strategy' t hc
      exact ⟨henters,by simp only [fill,he]⟩
    | placeholder p =>
      cases ids with
      | nil => simp [Segment.placeholder?] at hlen
      | cons id ids =>
        obtain ⟨o,entered,left,hends,hrun⟩ := henter id s
        have hstuck (hends' : g.Ends limit o (left ++ ids.map (·,depth)))
            (ho : ∀ text, o ≠ .done text) :
            g.Leads limit strategy s ((id :: ids).map (·,depth)) fun τ strategy' =>
              fill (enter τ strategy') (.placeholder p :: segments) (id :: ids) := by
          refine ⟨o,entered,_,hends',fun τ strategy' t hc => ?_⟩
          obtain ⟨henters,he⟩ := hrun τ strategy' t hc
          refine ⟨henters.append _,?_⟩
          simp only [fill,he]
          cases o with
          | done text => exact absurd rfl (ho text)
          | failed e => rfl
          | unfinished => rfl
        cases hends with
        | done text =>
          have hlen' : ids.length = (segments.filterMap Segment.placeholder?).length := by
            simpa [Segment.placeholder?] using hlen
          obtain ⟨o,later,left,hends,hrest⟩ :=
            ih hlen' (strategy.after s (entered.map g.alternatives))
          refine ⟨_,entered ++ later,left,hends.map (p.applyModifiers text ++ ·),
            fun τ strategy' t hc => ?_⟩
          rw [List.map_append,Strategy.congruent_append] at hc
          obtain ⟨henters,he⟩ := hrun τ strategy' t hc.1
          obtain ⟨hlater,he'⟩ := hrest τ strategy' _ hc.2
          refine ⟨(henters.append _).trans hlater,?_⟩
          simp only [fill,he,he',List.map_append,Strategy.after_append]
        | empty hroom hrules waiting => exact hstuck (.empty hroom hrules _) (by simp)
        | cut hpast waiting => exact hstuck (.cut hpast _) (by simp)
        | unfinished next waiting => exact hstuck (.unfinished next _) (by simp)

theorem leads_expandGroup (hg : g.WellFormed) (limit : Option Nat) (strategy : Strategy σ)
    (levels depth : Nat) (id : GroupId) (s : σ) :
    g.Leads limit strategy s [(id,depth)] fun _ strategy' =>
      g.expandGroup limit strategy' levels depth id := by
  induction levels generalizing depth id s with
  | zero => exact ⟨_,[],_,.unfinished (id,depth) [],fun τ strategy' t _ => ⟨.stay t _,rfl⟩⟩
  | succ levels ih =>
    cases hroom : exceeded? limit depth with
    | some n =>
      refine ⟨_,[],[(id,depth)],.cut hroom [],fun τ strategy' t _ => ⟨.stay t _,?_⟩⟩
      simp [expandGroup,hroom,Strategy.after]
    | none =>
      by_cases hempty : (g.group id).rules = []
      · refine ⟨_,[],_,.empty hroom hempty [],fun τ strategy' t _ => ⟨.stay t _,?_⟩⟩
        simp [expandGroup,hroom,hempty,Strategy.after]
      · obtain ⟨rule,hrule⟩ := exists_rule_of_choose hempty
          (strategy.choose s (g.group id).rules.length).1
        obtain ⟨o,entered,left,hends,hrun⟩ := leads_fill (ih (depth + 1))
          (hg.length_references (List.mem_of_getElem? hrule))
          (strategy.choose s (g.group id).rules.length).2
        refine ⟨o,id :: entered,left,hends,fun τ strategy' t hc => ?_⟩
        obtain ⟨hanswer,hrest⟩ := hc
        have hrule' : (g.group id).rules[(strategy'.choose t (g.group id).rules.length).1 %
            (g.group id).rules.length]? = some rule :=
          (congrArg ((g.group id).rules[·]?) hanswer).symm.trans hrule
        obtain ⟨henters,he⟩ := hrun τ strategy' _ hrest
        refine ⟨.enter hroom hrule' (by rwa [List.append_nil]),?_⟩
        exact (expandGroup_enter hroom hrule').trans he

/-- Expansion that comes to the end `crash` where a group or a rule is looked for at a position
outside its table. -/
def expandGroupChecked (g : Graph) (crash : Error) (limit : Option Nat) (strategy : Strategy σ) :
    (levels depth : Nat) → GroupId → σ → Outcome String × σ
  | 0, _, _, s => (.unfinished,s)
  | levels + 1, depth, id, s =>
    match g.groups[id]? with
    | none => (.failed crash,s)
    | some group =>
      match exceeded? limit depth with
      | some limit => (.failed (.depthLimit group.name limit),s)
      | none =>
        if group.rules.isEmpty then (.failed (.emptyGroup group.name),s)
        else
          let (answer,s) := strategy.choose s group.rules.length
          match group.rules[answer % group.rules.length]? with
          | none => (.failed crash,s)
          | some rule =>
            fill (g.expandGroupChecked crash limit strategy levels (depth + 1))
              rule.template.segments rule.references s

def expandChecked (g : Graph) (crash : Error) (limit : Option Nat) (levels : Nat)
    (strategy : Strategy σ) (symbol : String) (s : σ) : Outcome String × σ :=
  match g.idOf? symbol with
  | none => (.failed (.unknownGroup symbol),s)
  | some id => g.expandGroupChecked crash limit strategy levels 0 id s

theorem expandGroupChecked_eq (hg : g.WellFormed) (crash : Error) (limit : Option Nat)
    (strategy : Strategy σ) {levels depth : Nat} {id : GroupId} (hid : id < g.size) (s : σ) :
    g.expandGroupChecked crash limit strategy levels depth id s =
      g.expandGroup limit strategy levels depth id s := by
  induction levels generalizing depth id s with
  | zero => rfl
  | succ levels ih =>
    rw [expandGroupChecked,expandGroup,getElem?_groups hid]
    dsimp only
    cases exceeded? limit depth with
    | some n => rfl
    | none =>
      dsimp only
      split
      · rfl
      · rename_i hne
        obtain ⟨rule,hrule⟩ := exists_rule_of_choose (by simpa using hne)
          (strategy.choose s (g.group id).rules.length).1
        have hids : List.Forall₂ (fun i j => i = j ∧ i < g.size) rule.references rule.references :=
          List.forall₂_same.mpr fun r hr =>
            ⟨rfl,hg.lt_size_of_mem_references (List.mem_of_getElem? hrule) hr⟩
        simp only [hrule]
        exact Bisimulation.fill_eq (fun i j hij s => hij.1 ▸ ih hij.2 s) hids _

theorem MayFail.named (hg : g.WellFormed) {id : GroupId} (hid : id < g.size) {e : Error}
    (h : g.MayFail limit id e) :
    ∃ other name, ReflTransGen g.DependsOn id other ∧ g.names[other]? = some name ∧
      (e = .emptyGroup name ∧ (g.group other).rules = [] ∨
        ∃ n, e = .depthLimit name n ∧ limit = some n) := by
  have hname {other : GroupId} (hr : ReflTransGen g.DependsOn id other) :
      g.names[other]? = some (g.group other).name :=
    getElem?_names.mpr ⟨hg.lt_size_of_reflTransGen hid hr,rfl⟩
  cases h with
  | empty hr hrules => exact ⟨_,_,hr,hname hr,.inl ⟨rfl,hrules⟩⟩
  | cut hr hlimit => exact ⟨_,_,hr,hname hr,.inr ⟨_,rfl,hlimit⟩⟩

/-- Whatever a strategy answers, an expansion looks at no position outside a table and asks for the
rules of the groups in the order in which they are entered. It may meet a name without a group, a
group without rules or the limit, and nothing else goes wrong. Another strategy whose answers are
the same up to multiples is asked the same and leads to the same. -/
theorem expand_safe (hg : g.Reached) (limit : Option Nat) (levels : Nat) (strategy : Strategy σ)
    (symbol : String) (s : σ) :
    ∃ o s' asked, g.expand limit levels strategy.recording symbol (s,[]) = (o,s',asked) ∧
      (∀ crash, g.expandChecked crash limit levels strategy symbol s = (o,s')) ∧
      (∀ {τ : Type} (strategy' : Strategy τ) (t : τ), strategy.Congruent strategy' s t asked →
        ∃ t', g.expand limit levels strategy' symbol t = (o,t') ∧
          g.expand limit levels strategy'.recording symbol (t,[]) = (o,t',asked)) ∧
      (∀ name, o ≠ .failed (.unresolvedGroup name)) ∧
      (g.idOf? symbol = none → o = .failed (.unknownGroup symbol) ∧ asked = []) ∧
      ∀ id, g.idOf? symbol = some id →
        (∃ entered left, g.Enters limit strategy s [(id,0)] entered left ∧ g.Ends limit o left ∧
          asked = entered.map g.alternatives ∧ ∀ n ∈ asked, 1 ≤ n) ∧
        ∀ e, o = .failed e → ∃ other name,
          ReflTransGen g.DependsOn id other ∧ g.names[other]? = some name ∧
          (e = .emptyGroup name ∧ (g.group other).rules = [] ∨
            ∃ n, e = .depthLimit name n ∧ limit = some n) := by
  have hwf := hg.wellFormed
  simp only [expand,expandChecked]
  cases hsymbol : g.idOf? symbol with
  | none => simp
  | some id =>
    have hid : id < g.size := lt_size_of_idOf? hsymbol
    obtain ⟨o,entered,left,hends,hrun⟩ := leads_expandGroup hwf limit strategy levels 0 id s
    have hrecording {τ : Type} (strategy' : Strategy τ) (t : τ)
        (hc : strategy.Congruent strategy' s t (entered.map g.alternatives)) :
        g.expandGroup limit strategy'.recording levels 0 id (t,[]) =
          (o,strategy'.after t (entered.map g.alternatives),entered.map g.alternatives) := by
      have hrun' := (hrun _ strategy'.recording (t,[]) (Strategy.congruent_recording.mpr hc)).2
      rwa [Strategy.after_recording,List.nil_append] at hrun'
    have hself := Strategy.congruent_refl strategy s (entered.map g.alternatives)
    obtain ⟨henters,he⟩ := hrun σ strategy s hself
    have hfails (e : Error) (ho : o = .failed e) := (mayFail_of_expandGroup hwf
      (he.trans (by rw [ho]))).named hwf hid
    refine ⟨o,_,_,hrecording strategy s hself,?_,?_,?_,by simp,?_⟩
    · exact fun crash => (expandGroupChecked_eq hwf crash limit strategy hid s).trans he
    · exact fun strategy' t hc => ⟨_,(hrun _ strategy' t hc).2,hrecording strategy' t hc⟩
    · intro name ho
      obtain ⟨other,_,-,-,⟨h,-⟩ | ⟨n,h,-⟩⟩ := hfails _ ho <;> cases h
    · rintro _ ⟨⟩
      refine ⟨⟨entered,left,henters,hends,rfl,?_⟩,hfails⟩
      exact List.forall_mem_map.mpr henters.alternatives_pos

/-- A declaration has failed here, and two groups still wait for their rules. -/
def stalled : Graph :=
  empty.edits [.declare "a" ["#c#-#c.capitalize#","x"],.declare "b" ["#d#","#"],
    .declare "c" ["#a#","y","#b#"]]

theorem expand_safe_stalled :
    stalled.Reached ∧
    (∀ crash, stalled.expandChecked crash none 3 (Strategy.scripted [4,7,5]) "a" 0 =
      (.failed (.emptyGroup "b"),3)) ∧
    (∃ t', stalled.expand none 3 (Strategy.scripted [0,1,2]) "a" 0 =
        (.failed (.emptyGroup "b"),t') ∧
      stalled.expand none 3 (Strategy.scripted [0,1,2]).recording "a" (0,[]) =
        (.failed (.emptyGroup "b"),t',[2,3,3])) ∧
    ∃ entered left, stalled.Enters none (Strategy.scripted [4,7,5]) 0 [(0,0)] entered left ∧
      [2,3,3] = entered.map stalled.alternatives := by
  have hreached : stalled.Reached := Reached.empty.edits _
  have hrun : stalled.expand none 3 (Strategy.scripted [4,7,5]).recording "a" (0,[]) =
      (.failed (.emptyGroup "b"),3,[2,3,3]) := by decide +kernel
  have halike :
      (Strategy.scripted [4,7,5]).Congruent (Strategy.scripted [0,1,2]) 0 0 [2,3,3] :=
    ⟨rfl,rfl,rfl,trivial⟩
  obtain ⟨o,s',asked,ho,hchecked,hother,-,-,hentered⟩ :=
    expand_safe hreached none 3 (Strategy.scripted [4,7,5]) "a" 0
  obtain ⟨rfl,rfl,rfl⟩ : o = .failed (.emptyGroup "b") ∧ s' = 3 ∧ asked = [2,3,3] := by
    simpa using ho.symm.trans hrun
  obtain ⟨⟨entered,left,henters,-,hasked,-⟩,-⟩ := hentered 0 (by decide +kernel)
  exact ⟨hreached,hchecked,hother _ 0 halike,entered,left,henters,hasked⟩

end Graph
end PhraseGrammar
