import PhraseGrammar.Proofs.Safety

/-! Groups that an expansion enters, and how deep. Noting them changes nothing else about a run.
Under a limit all of them lie within it, except for the last one of a run that is cut. -/
namespace PhraseGrammar
namespace Graph

variable {σ : Type} {g : Graph} {limit : Option Nat} {d : Nat}

theorem exceeded?_of_lt {depth : Nat} (h : d < depth) : exceeded? (some d) depth = some d := by
  simp [exceeded?,h]

theorem exceeded?_of_le {depth : Nat} (hlimit : ∀ n ∈ limit, d ≤ n) (h : depth ≤ d) :
    exceeded? limit depth = none :=
  exceeded?_eq_none.mpr fun n hn => h.trans (hlimit n hn)

/-- Expansion that also notes each group it enters, and how deep. -/
def expandGroupNoting (g : Graph) (limit : Option Nat) (strategy : Strategy σ) :
    (levels depth : Nat) → GroupId → σ × List (GroupId × Nat) →
      Outcome String × σ × List (GroupId × Nat)
  | 0, _, _, s => (.unfinished,s)
  | levels + 1, depth, id, (s,entered) =>
    let entered := entered ++ [(id,depth)]
    let group := g.group id
    match exceeded? limit depth with
    | some limit => (.failed (.depthLimit group.name limit),s,entered)
    | none =>
      if group.rules.isEmpty then (.failed (.emptyGroup group.name),s,entered)
      else
        let (answer,s) := strategy.choose s group.rules.length
        match group.rules[answer % group.rules.length]? with
        | none => (.failed (.emptyGroup group.name),s,entered)
        | some rule =>
          fill (g.expandGroupNoting limit strategy levels (depth + 1)) rule.template.segments
            rule.references (s,entered)

def expandNoting (g : Graph) (limit : Option Nat) (levels : Nat) (strategy : Strategy σ)
    (symbol : String) (s : σ) : Outcome String × σ × List (GroupId × Nat) :=
  match g.idOf? symbol with
  | none => (.failed (.unknownGroup symbol),s,[])
  | some id => g.expandGroupNoting limit strategy levels 0 id (s,[])

/-- The groups that a run under the limit enters: only the last one may lie past the limit, and
then the run is cut for it. -/
inductive Entered (g : Graph) (d : Nat) : Outcome String → List (GroupId × Nat) → Prop
  | within {o : Outcome String} {entered : List (GroupId × Nat)}
    (ho : ∀ name n, o ≠ .failed (.depthLimit name n)) (h : ∀ e ∈ entered, e.2 ≤ d) :
    Entered g d o entered
  | past {before : List (GroupId × Nat)} {id : GroupId} {name : String}
    (hid : g.names[id]? = some name) (h : ∀ e ∈ before, e.2 ≤ d) :
    Entered g d (.failed (.depthLimit name d)) (before ++ [(id,d + 1)])

theorem Entered.map {o : Outcome String} {entered : List (GroupId × Nat)}
    (h : g.Entered d o entered) (f : String → String) : g.Entered d (o.map f) entered := by
  cases h with
  | within ho h =>
    refine .within (fun name n => ?_) h
    cases o with
    | failed e => exact ho name n
    | _ => simp
  | past hid h => exact .past hid h

theorem Entered.le_of_done {text : String} {entered : List (GroupId × Nat)}
    (h : g.Entered d (.done text) entered) : ∀ e ∈ entered, e.2 ≤ d := by
  cases h with
  | within _ h => exact h

theorem Entered.past_of_cut {name : String} {n : Nat} {entered : List (GroupId × Nat)}
    (h : g.Entered d (.failed (.depthLimit name n)) entered) : n = d ∧ ∃ before id,
      g.names[id]? = some name ∧ (∀ e ∈ before, e.2 ≤ d) ∧ entered = before ++ [(id,d + 1)] := by
  cases h with
  | within ho _ => exact absurd rfl (ho name n)
  | past hid h => exact ⟨rfl,_,_,hid,h,rfl⟩

theorem Entered.append {o : Outcome String} {before entered : List (GroupId × Nat)}
    (hbefore : ∀ e ∈ before, e.2 ≤ d) (h : g.Entered d o entered) :
    g.Entered d o (before ++ entered) := by
  cases h with
  | within ho h => exact .within ho (List.forall_mem_append.mpr ⟨hbefore,h⟩)
  | past hid h =>
    rw [← List.append_assoc]
    exact .past hid (List.forall_mem_append.mpr ⟨hbefore,h⟩)

/-- The noting run is the run itself, with what it enters behind what was noted before. -/
def Notes (g : Graph) (d : Nat) (r : Outcome String × σ) (before : List (GroupId × Nat))
    (r' : Outcome String × σ × List (GroupId × Nat)) : Prop :=
  ∃ entered, r' = (r.1,r.2,before ++ entered) ∧ g.Entered d r.1 entered

theorem notes_fill {enter : GroupId → σ → Outcome String × σ}
    {enter' : GroupId → σ × List (GroupId × Nat) → Outcome String × σ × List (GroupId × Nat)}
    {segments : List Segment} {ids : List GroupId}
    (henter : ∀ id ∈ ids, ∀ s before, g.Notes d (enter id s) before (enter' id (s,before)))
    (s : σ) (before : List (GroupId × Nat)) :
    g.Notes d (fill enter segments ids s) before (fill enter' segments ids (s,before)) := by
  induction segments generalizing ids s before with
  | nil => exact ⟨[],by simp [fill],.within (by simp [fill]) (by simp)⟩
  | cons segment segments ih =>
    cases segment with
    | literal text =>
      obtain ⟨entered,he,hentered⟩ := ih henter s before
      refine ⟨entered,?_,hentered.map (text ++ ·)⟩
      rw [fill,he]
      rfl
    | placeholder p =>
      cases ids with
      | nil => exact ⟨[],by simp [fill],.within (by simp [fill]) (by simp)⟩
      | cons id ids =>
        obtain ⟨hid,hids⟩ := List.forall_mem_cons.mp henter
        obtain ⟨entered,he,hentered⟩ := hid s before
        rw [fill,fill,he]
        generalize enter id s = r at hentered ⊢
        rcases r with ⟨text | e | _,t⟩
        · obtain ⟨entered',he',hentered'⟩ := ih hids t (before ++ entered)
          refine ⟨entered ++ entered',?_,
            (hentered'.map (p.applyModifiers text ++ ·)).append hentered.le_of_done⟩
          dsimp only
          rw [he',List.append_assoc]
        · exact ⟨entered,rfl,hentered⟩
        · exact ⟨entered,rfl,hentered⟩

theorem notes_expandGroup (hg : g.WellFormed) (strategy : Strategy σ) {levels depth : Nat}
    {id : GroupId} (hid : id < g.size) (hdepth : depth ≤ d + 1) (s : σ)
    (before : List (GroupId × Nat)) :
    g.Notes d (g.expandGroup (some d) strategy levels depth id s) before
      (g.expandGroupNoting (some d) strategy levels depth id (s,before)) := by
  induction levels generalizing depth id s before with
  | zero =>
    exact ⟨[],by simp [expandGroup,expandGroupNoting],.within (by simp [expandGroup]) (by simp)⟩
  | succ levels ih =>
    by_cases hle : depth ≤ d
    · have hhere : ∀ e ∈ [(id,depth)], e.2 ≤ d := by simpa using hle
      have hroom : exceeded? (some d) depth = none := exceeded?_of_le (by simp) hle
      by_cases hempty : (g.group id).rules = []
      · refine ⟨[(id,depth)],?_,.within ?_ hhere⟩
        · simp [expandGroup,expandGroupNoting,hroom,hempty]
        · simp [expandGroup,hroom,hempty]
      · obtain ⟨rule,hrule⟩ := exists_rule_of_choose hempty
          (strategy.choose s (g.group id).rules.length).1
        have hinner : ∀ r ∈ rule.references, ∀ s before,
            g.Notes d (g.expandGroup (some d) strategy levels (depth + 1) r s) before
              (g.expandGroupNoting (some d) strategy levels (depth + 1) r (s,before)) :=
          fun r hr s before => ih (hg.lt_size_of_mem_references (List.mem_of_getElem? hrule) hr)
            (by omega) s before
        rw [expandGroup_enter hroom hrule]
        obtain ⟨entered,he,hentered⟩ := notes_fill hinner
          (strategy.choose s (g.group id).rules.length).2 (before ++ [(id,depth)])
        refine ⟨(id,depth) :: entered,?_,hentered.append hhere⟩
        simp only [expandGroupNoting,hroom,List.isEmpty_iff,if_neg hempty,hrule]
        rw [he,List.append_assoc,List.singleton_append]
    · obtain rfl : depth = d + 1 := by omega
      have hname : g.names[id]? = some (g.group id).name := getElem?_names.mpr ⟨hid,rfl⟩
      have hcut : g.expandGroup (some d) strategy (levels + 1) (d + 1) id s =
          (.failed (.depthLimit (g.group id).name d),s) := by
        simp [expandGroup,exceeded?_of_lt]
      have hpast : g.Entered d (.failed (.depthLimit (g.group id).name d)) ([] ++ [(id,d + 1)]) :=
        .past hname (by simp)
      rw [hcut]
      refine ⟨[(id,d + 1)],?_,hpast⟩
      simp [expandGroupNoting,exceeded?_of_lt]

end Graph

end PhraseGrammar
