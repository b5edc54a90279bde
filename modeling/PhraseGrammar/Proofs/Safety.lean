import PhraseGrammar.Proofs.Count

/-! What an expansion can fail with, whatever the strategy answers, and where it cannot fail. A
failure comes from one group that the expansion entered; without cycles and without groups that
have no rules there is none, and the levels entered stay within the rank. -/
namespace PhraseGrammar

namespace Graph

open Relation

variable {σ : Type} {g : Graph} {limit : Option Nat} {strategy : Strategy σ}

theorem mem_of_exceeded? {depth n : Nat} (h : exceeded? limit depth = some n) :
    limit = some n ∧ n < depth := by
  simpa [exceeded?,Option.filter_eq_some_iff] using h

theorem exceeded?_eq_none {depth : Nat} :
    exceeded? limit depth = none ↔ ∀ n, limit = some n → depth ≤ n := by
  simp [exceeded?,Option.filter_eq_none_iff]

theorem exists_rule_of_choose {rules : List Rule} (hne : rules ≠ []) (answer : Nat) :
    ∃ rule, rules[answer % rules.length]? = some rule :=
  ⟨_,List.getElem?_eq_getElem (Nat.mod_lt _ (List.length_pos_iff.mpr hne))⟩

theorem expandGroup_enter {levels depth : Nat} {id : GroupId} {s : σ} {rule : Rule}
    (hroom : exceeded? limit depth = none)
    (hrule : (g.group id).rules[(strategy.choose s (g.group id).rules.length).1 %
      (g.group id).rules.length]? = some rule) :
    g.expandGroup limit strategy (levels + 1) depth id s =
      fill (g.expandGroup limit strategy levels (depth + 1)) rule.template.segments
        rule.references (strategy.choose s (g.group id).rules.length).2 := by
  have hne : ¬ (g.group id).rules.isEmpty = true := by
    intro hempty
    rw [List.isEmpty_iff.mp hempty] at hrule
    cases hrule
  simp only [expandGroup,hroom,if_neg hne,hrule]

/-- An expansion is cut, meets a group without rules, or goes on with one of the rules. -/
theorem expandGroup_cases (limit : Option Nat) (strategy : Strategy σ) (levels depth : Nat)
    (id : GroupId) (s : σ) :
    (∃ n, limit = some n ∧ g.expandGroup limit strategy (levels + 1) depth id s =
      (.failed (.depthLimit (g.group id).name n),s)) ∨
    ((g.group id).rules = [] ∧ g.expandGroup limit strategy (levels + 1) depth id s =
      (.failed (.emptyGroup (g.group id).name),s)) ∨
    ∃ rule ∈ (g.group id).rules, g.expandGroup limit strategy (levels + 1) depth id s =
      fill (g.expandGroup limit strategy levels (depth + 1)) rule.template.segments
        rule.references (strategy.choose s (g.group id).rules.length).2 := by
  rcases hl : exceeded? limit depth with _ | n
  · by_cases hempty : (g.group id).rules = []
    · exact .inr (.inl ⟨hempty,by simp [expandGroup,hl,hempty]⟩)
    · obtain ⟨rule,hrule⟩ := exists_rule_of_choose hempty
        (strategy.choose s (g.group id).rules.length).1
      exact .inr (.inr ⟨rule,List.mem_of_getElem? hrule,expandGroup_enter hl hrule⟩)
  · exact .inl ⟨n,(mem_of_exceeded? hl).1,by simp [expandGroup,hl]⟩

/-- What an expansion of the group may fail with. -/
inductive MayFail (g : Graph) (limit : Option Nat) (id : GroupId) : Error → Prop
  | empty {other : GroupId} (hr : ReflTransGen g.DependsOn id other)
    (hrules : (g.group other).rules = []) :
    g.MayFail limit id (.emptyGroup (g.group other).name)
  | cut {other n : Nat} (hr : ReflTransGen g.DependsOn id other) (hlimit : limit = some n) :
    g.MayFail limit id (.depthLimit (g.group other).name n)

theorem MayFail.of_dependsOn {id r : GroupId} {e : Error} (h : g.MayFail limit r e)
    (hd : g.DependsOn id r) : g.MayFail limit id e := by
  cases h with
  | empty hr hrules => exact .empty (.head hd hr) hrules
  | cut hr hlimit => exact .cut (.head hd hr) hlimit

theorem failed_of_fill {enter : GroupId → σ → Outcome String × σ} {segments : List Segment}
    {ids : List GroupId} (hlen : ids.length = (segments.filterMap Segment.placeholder?).length)
    {s s' : σ} {e : Error} (h : fill enter segments ids s = (.failed e,s')) :
    ∃ id ∈ ids, ∃ t t', enter id t = (.failed e,t') := by
  induction segments generalizing ids s with
  | nil => cases (Prod.mk.inj h).1
  | cons segment segments ih =>
    cases segment with
    | literal text =>
      rw [fill] at h
      rcases hr : fill enter segments ids s with ⟨last | e' | _,t⟩ <;>
        simp only [hr,Outcome.map,Prod.mk.injEq,Outcome.failed.injEq,reduceCtorEq,false_and] at h
      exact ih hlen (hr.trans (by rw [h.1,h.2]))
    | placeholder p =>
      cases ids with
      | nil => simp [Segment.placeholder?] at hlen
      | cons id ids =>
        rw [fill] at h
        rcases he : enter id s with ⟨text | e' | _,t⟩ <;> simp only [he] at h
        · rcases hr : fill enter segments ids t with ⟨last | e' | _,t'⟩ <;>
            simp only [hr,Outcome.map,Prod.mk.injEq,Outcome.failed.injEq,reduceCtorEq,
              false_and] at h
          obtain ⟨r,hmem,hfail⟩ := ih (by simpa [Segment.placeholder?] using hlen)
            (hr.trans (by rw [h.1,h.2]))
          exact ⟨r,List.mem_cons_of_mem id hmem,hfail⟩
        · rw [(Outcome.failed.inj (Prod.mk.inj h).1)] at he
          exact ⟨id,List.mem_cons_self,s,t,he⟩
        · cases (Prod.mk.inj h).1

theorem mayFail_of_expandGroup (hg : g.WellFormed) {levels depth : Nat} {id : GroupId} {s s' : σ}
    {e : Error} (h : g.expandGroup limit strategy levels depth id s = (.failed e,s')) :
    g.MayFail limit id e := by
  induction levels generalizing depth id s s' with
  | zero => cases (Prod.mk.inj h).1
  | succ levels ih =>
    rcases expandGroup_cases limit strategy levels depth id s with
      ⟨n,hlimit,he⟩ | ⟨hempty,he⟩ | ⟨rule,hrule,he⟩
    · rw [he] at h
      obtain rfl := Outcome.failed.inj (Prod.mk.inj h).1
      exact .cut .refl hlimit
    · rw [he] at h
      obtain rfl := Outcome.failed.inj (Prod.mk.inj h).1
      exact .empty .refl hempty
    · rw [he] at h
      obtain ⟨r,hr,t,t',hfail⟩ := failed_of_fill (hg.length_references hrule) h
      exact (ih hfail).of_dependsOn (hg.dependsOn_of_mem hrule hr)

theorem fill_done {E : (GroupId → σ → Outcome String × σ) → Prop} {segments : List Segment}
    {ids : List GroupId} (hlen : ids.length = (segments.filterMap Segment.placeholder?).length)
    (h : ∀ id ∈ ids, ∀ s, ∃ text s', ∀ enter, E enter → enter id s = (.done text,s')) (s : σ) :
    ∃ text s', ∀ enter, E enter → fill enter segments ids s = (.done text,s') := by
  induction segments generalizing ids s with
  | nil => exact ⟨"",s,fun _ _ => rfl⟩
  | cons segment segments ih =>
    cases segment with
    | literal lead =>
      obtain ⟨text,s',hrest⟩ := ih hlen h s
      refine ⟨lead ++ text,s',fun enter he => ?_⟩
      rw [fill,hrest enter he]
      rfl
    | placeholder p =>
      cases ids with
      | nil => simp [Segment.placeholder?] at hlen
      | cons id ids =>
        obtain ⟨first,t,hfirst⟩ := h id List.mem_cons_self s
        obtain ⟨text,s',hrest⟩ := ih (by simpa [Segment.placeholder?] using hlen)
          (fun r hr => h r (List.mem_cons_of_mem id hr)) t
        refine ⟨p.applyModifiers first ++ text,s',fun enter he => ?_⟩
        simp only [fill,hfirst enter he,hrest enter he,Outcome.map_done]

/-- Entering groups with so many levels left and a limit so far off that neither is met within the
given number of levels. -/
def LeavesRoom (g : Graph) (strategy : Strategy σ) (room : Nat)
    (enter : GroupId → σ → Outcome String × σ) : Prop :=
  ∃ limit levels depth, room ≤ levels ∧ (∀ n, limit = some n → depth + room ≤ n + 1) ∧
    enter = g.expandGroup limit strategy levels depth

theorem LeavesRoom.mono {room room' : Nat} {enter : GroupId → σ → Outcome String × σ}
    (h : g.LeavesRoom strategy room enter) (hle : room' ≤ room) :
    g.LeavesRoom strategy room' enter := by
  obtain ⟨limit,levels,depth,hlevels,hlimit,he⟩ := h
  refine ⟨limit,levels,depth,hle.trans hlevels,fun n hn => ?_,he⟩
  exact (Nat.add_le_add_left hle depth).trans (hlimit n hn)

theorem LeavesRoom.fill {room : Nat} {enter : GroupId → σ → Outcome String × σ}
    (h : g.LeavesRoom strategy (room + 1) enter) :
    ∃ inner, g.LeavesRoom strategy room inner ∧ ∀ (id : GroupId) (s : σ) (rule : Rule),
      (g.group id).rules[(strategy.choose s (g.group id).rules.length).1 %
        (g.group id).rules.length]? = some rule →
      enter id s = Graph.fill inner rule.template.segments rule.references
        (strategy.choose s (g.group id).rules.length).2 := by
  obtain ⟨limit,levels,depth,hlevels,hlimit,rfl⟩ := h
  obtain ⟨levels,rfl⟩ := Nat.exists_eq_add_one.mpr (Nat.zero_lt_of_lt hlevels)
  have hroom : exceeded? limit depth = none := by
    refine exceeded?_eq_none.mpr fun n hn => ?_
    have hle := hlimit n hn
    omega
  refine ⟨_,⟨limit,levels,depth + 1,Nat.le_of_succ_le_succ hlevels,fun n hn => ?_,rfl⟩,?_⟩
  · have hle := hlimit n hn
    omega
  · exact fun id s rule hrule => expandGroup_enter hroom hrule

/-- Where no cycle and no group without rules can be reached, every strategy gets a text, and always
the same one as long as there is room for the rank. -/
theorem expandGroup_done (hg : g.WellFormed) {id : GroupId} (hfree : g.CycleFree id)
    (hrules : ∀ other, ReflTransGen g.DependsOn id other → (g.group other).rules ≠ [])
    (strategy : Strategy σ) (s : σ) :
    ∃ text s', ∀ enter, g.LeavesRoom strategy (g.rank id) enter →
      enter id s = (.done text,s') := by
  induction hn : g.rank id using Nat.strong_induction_on generalizing id s with
  | _ n ih =>
    have hne := hrules id .refl
    have hlt : id < g.size := by
      by_contra hge
      exact hne (by rw [group_of_size_le (Nat.le_of_not_lt hge)]; rfl)
    obtain ⟨room,rfl⟩ : ∃ room, n = room + 1 := Nat.exists_eq_add_one.mpr (hn ▸ rank_pos hlt)
    obtain ⟨rule,hrule⟩ := exists_rule_of_choose hne
      (strategy.choose s (g.group id).rules.length).1
    have hmem := List.mem_of_getElem? hrule
    have hrefs : ∀ r ∈ rule.references, ∀ t, ∃ text t', ∀ enter,
        g.LeavesRoom strategy room enter → enter r t = (.done text,t') := by
      intro r hr t
      have hd := hg.dependsOn_of_mem hmem hr
      have hrank : g.rank r < room + 1 := hn ▸ hfree.rank_lt hd
      obtain ⟨text,t',hdone⟩ := ih _ hrank (hfree.of_dependsOn hd)
        (fun other hother => hrules other (.head hd hother)) t rfl
      exact ⟨text,t',fun enter he => hdone enter (he.mono (Nat.le_of_lt_succ hrank))⟩
    obtain ⟨text,s',hfill⟩ := fill_done (hg.length_references hmem) hrefs
      (strategy.choose s (g.group id).rules.length).2
    refine ⟨text,s',fun enter he => ?_⟩
    obtain ⟨inner,hinner,henter⟩ := he.fill
    rw [henter id s rule hrule]
    exact hfill inner hinner

end Graph

end PhraseGrammar
