import PhraseGrammar.Proofs.TallyProducts

/-! The count kept as a ledger, with the sum of a group apart from the counts of its rules. A group
in progress has the sum of its rules so far; a rule that has been counted is not counted again. The
ledger and the tally go through the same entries, so its sums are those of the tally, it never comes
to a rule a second time, and as many levels as there are groups are enough for it. -/
namespace PhraseGrammar

/-- What is known of the count of a group. -/
inductive Visit
  | unvisited
  | inProgress (sum : Nat)
  | done (total : Nat)

def Visit.count? : Visit → Option Nat
  | unvisited => none
  | inProgress sum => some sum
  | done total => some total

/-- `counted` lists the rules that were counted, by group and place, the last one first. -/
structure Ledger where
  visits : List Visit
  rules : List (List (Option Nat))
  counted : List (GroupId × Nat)

namespace Ledger

def visit (s : Ledger) (id : GroupId) : Visit := s.visits.getD id .unvisited

def rule? (s : Ledger) (id : GroupId) (index : Nat) : Option Nat :=
  (s.rules.getD id []).getD index none

def mark (s : Ledger) (id : GroupId) (v : Visit) : Ledger := { s with visits := s.visits.set id v }

def record (s : Ledger) (id : GroupId) (index count : Nat) : Ledger :=
  { s with
    rules := s.rules.set id ((s.rules.getD id []).set index (some count))
    counted := (id,index) :: s.counted }

def earn (s : Ledger) (id : GroupId) (count : Nat) : Ledger :=
  match s.visit id with
  | .inProgress sum => s.mark id (.inProgress (sum + count))
  | .unvisited | .done _ => s

theorem visit_mark_self {s : Ledger} {id : GroupId} (h : id < s.visits.length) (v : Visit) :
    (s.mark id v).visit id = v := by
  simp [mark,visit,h]

theorem visit_mark_of_ne {s : Ledger} {id other : GroupId} (h : id ≠ other) (v : Visit) :
    (s.mark id v).visit other = s.visit other := by
  simp [mark,visit,h]

theorem earn_eq {s : Ledger} {id : GroupId} {sum : Nat} (h : s.visit id = .inProgress sum)
    (count : Nat) : s.earn id count = s.mark id (.inProgress (sum + count)) := by
  rw [earn,h]

end Ledger

namespace Graph

open Relation

/-- Multiplies a product by the count of one more reference. -/
def multiplyM (visit : GroupId → Ledger → Option (Nat × Ledger)) (state : Nat × Ledger)
    (id : GroupId) : Option (Nat × Ledger) :=
  (visit id state.2).map fun r => (state.1 * r.1,r.2)

/-- The count of a rule, from the ledger if it is there. There is none for a rule that the group
does not have. -/
def ledgerRule (g : Graph) (visit : GroupId → Ledger → Option (Nat × Ledger)) (id : GroupId)
    (index : Nat) (s : Ledger) : Option (Nat × Ledger) :=
  match s.rule? id index with
  | some count => some (count,s)
  | none =>
    match (g.group id).rules[index]? with
    | none => none
    | some rule => (rule.references.foldlM (multiplyM visit) (1,s)).map fun r =>
        (r.1,r.2.record id index r.1)

/-- Adds the count of one more rule to the sum of its group. -/
def ledgerStep (g : Graph) (visit : GroupId → Ledger → Option (Nat × Ledger)) (id : GroupId)
    (s : Ledger) (index : Nat) : Option Ledger :=
  (g.ledgerRule visit id index s).map fun r => r.2.earn id r.1

/-- The count of a group, which is the sum so far for one in progress; `none` if the levels do not
suffice. -/
def ledgerGroup (g : Graph) : Nat → GroupId → Ledger → Option (Nat × Ledger)
  | 0, id, s => (s.visit id).count?.map (·,s)
  | depth + 1, id, s =>
    match (s.visit id).count? with
    | some count => some (count,s)
    | none =>
      ((List.range (g.group id).rules.length).foldlM (g.ledgerStep (g.ledgerGroup depth) id)
        (s.mark id (.inProgress 0))).map fun s =>
          let total := (s.visit id).count?.getD 0
          (total,s.mark id (.done total))

def emptyLedger (g : Graph) : Ledger :=
  ⟨List.replicate g.size .unvisited,
    g.groups.map fun group => List.replicate group.rules.length none,[]⟩

/-- The counts of all groups in order, and the ledger after them. -/
def ledger (g : Graph) (depth : Nat) : Option (List Nat × Ledger) :=
  (List.range g.size).foldlM
    (fun r id => (g.ledgerGroup depth id r.2).map fun r' => (r.1 ++ [r'.1],r'.2))
    ([],g.emptyLedger)

variable {g : Graph} {path : List GroupId} {t : Tally} {s : Ledger} {id : GroupId}

theorem ledgerStep_mono {visit visit' : GroupId → Ledger → Option (Nat × Ledger)}
    (h : ∀ id s r, visit id s = some r → visit' id s = some r) {index : Nat} {s' : Ledger}
    (hstep : g.ledgerStep visit id s index = some s') :
    g.ledgerStep visit' id s index = some s' := by
  refine map_mono (fun r hr => ?_) hstep
  rw [ledgerRule] at hr ⊢
  cases hc : s.rule? id index with
  | some count => simpa [hc] using hr
  | none =>
    cases hrule : (g.group id).rules[index]? with
    | none => simp [hc,hrule] at hr
    | some rule =>
      simp only [hc,hrule] at hr ⊢
      refine map_mono (fun r' hr' => ?_) hr
      exact foldlM_mono (fun b a b' hb => map_mono (fun r'' => h a b.2 r'') hb) hr'

theorem ledgerGroup_succ {depth : Nat} {r : Nat × Ledger} (h : g.ledgerGroup depth id s = some r) :
    g.ledgerGroup (depth + 1) id s = some r := by
  induction depth generalizing id s r with
  | zero =>
    obtain ⟨count,hc,rfl⟩ := Option.map_eq_some_iff.mp h
    rw [ledgerGroup,hc]
  | succ depth ih =>
    rw [ledgerGroup] at h ⊢
    cases hc : (s.visit id).count? with
    | some count => simpa [hc] using h
    | none =>
      simp only [hc] at h ⊢
      refine map_mono (fun s' hs' => ?_) h
      exact foldlM_mono (fun b a b' hb => ledgerStep_mono (fun _ _ _ => ih) hb) hs'

theorem ledger_mono {depth depth' : Nat} (hle : depth ≤ depth') {r : List Nat × Ledger}
    (h : g.ledger depth = some r) : g.ledger depth' = some r := by
  induction hle with
  | refl => exact h
  | step _ ih =>
    exact foldlM_mono (fun b a b' hb => map_mono (fun _ => ledgerGroup_succ) hb) ih

/-- What the ledger knows of a group while those on `path` are in progress. -/
def visitIn (path : List GroupId) (t : Tally) (id : GroupId) : Visit :=
  match t.getD id none with
  | none => .unvisited
  | some counts => if id ∈ path then .inProgress counts.sum else .done counts.sum

/-- The counts of the rules so far, with an unset entry for each of the others. -/
def entries (g : Graph) (t : Tally) (id : GroupId) : List (Option Nat) :=
  (t.counts id).map some ++
    List.replicate ((g.group id).rules.length - (t.counts id).length) none

theorem entries_add {counts : List Nat} (hid : t.getD id none = some counts)
    (hlt : counts.length < (g.group id).rules.length) (count : Nat) :
    g.entries (t.add id count) id = (g.entries t id).set counts.length (some count) := by
  have hunset : (g.group id).rules.length - counts.length =
      (g.group id).rules.length - (counts ++ [count]).length + 1 := by
    rw [List.length_append,List.length_singleton]
    omega
  rw [entries,entries,Tally.counts_add hid,if_pos rfl,Tally.counts_eq hid,hunset,
    List.replicate_succ,List.set_append_right _ _ (by simp)]
  simp

/-- The ledger says what the tally says, and has counted just the rules that are in the tally. -/
structure Tracks (g : Graph) (path : List GroupId) (t : Tally) (s : Ledger) : Prop where
  visits_length : s.visits.length = g.size
  rules_length : s.rules.length = g.size
  entered : ∀ id ∈ path, t.getD id none ≠ none
  visit : ∀ id, s.visit id = visitIn path t id
  rules : ∀ id, s.rules.getD id [] = g.entries t id
  counted : ∀ id index : Nat,
    s.counted.count (id,index) = if index < (t.counts id).length then 1 else 0

theorem tracks_start (g : Graph) : g.Tracks [] (.start g.size) g.emptyLedger := by
  have hcounts (id : GroupId) : (Tally.start g.size).counts id = [] := by
    rw [Tally.counts,Tally.getD_start]
    rfl
  refine ⟨by simp [emptyLedger],by simp [emptyLedger,size],by simp,fun id => ?_,fun id => ?_,
    fun id index => by simp [emptyLedger,hcounts]⟩
  · rw [visitIn,Tally.getD_start,Ledger.visit,emptyLedger,List.getD_eq_getElem?_getD,
      List.getElem?_getD_replicate_default_eq]
  · rw [entries,hcounts]
    exact List.getD_map _ (Group.pending "") _

namespace Tracks

theorem enter (h : g.Tracks path t s) (ht : g.Complete path t) (hid : t.getD id none = none)
    (hlt : id < g.size) :
    g.Tracks (id :: path) (t.enter id) (s.mark id (.inProgress 0)) := by
  have hself : (t.enter id).getD id none = some [] := Tally.getD_set_self (ht.length ▸ hlt) _
  constructor
  · simpa [Ledger.mark] using h.visits_length
  · exact h.rules_length
  · refine List.forall_mem_cons.mpr ⟨hself ▸ Option.some_ne_none [],fun other ho => ?_⟩
    exact ((Tally.Advances.refl t).set hid (some [])).visited (h.entered other ho)
  · intro other
    by_cases he : id = other
    · subst he
      rw [Ledger.visit_mark_self (h.visits_length ▸ hlt),visitIn,hself]
      simp
    · rw [Ledger.visit_mark_of_ne he,h.visit,visitIn,visitIn,Tally.enter,
        Tally.getD_set_of_ne he]
      simp [Ne.symm he]
  · intro other
    rw [entries,Tally.counts_enter hid]
    exact h.rules other
  · intro other index
    rw [Tally.counts_enter hid]
    exact h.counted other index

theorem add (h : g.Tracks (id :: path) t s) {counts : List Nat}
    (hid : t.getD id none = some counts) (hlt : counts.length < (g.group id).rules.length)
    (count : Nat) :
    g.Tracks (id :: path) (t.add id count) ((s.record id counts.length count).earn id count) := by
  have hlength : id < t.length := Tally.lt_length_of_getD hid
  have hself : (t.add id count).getD id none = some (counts ++ [count]) := by
    rw [Tally.add,Tally.counts_eq hid,Tally.getD_set_self hlength]
  have hother {other : GroupId} (he : id ≠ other) :
      (t.add id count).getD other none = t.getD other none := Tally.getD_set_of_ne he _
  have hvisit : (s.record id counts.length count).visit id = .inProgress counts.sum := by
    refine (h.visit id).trans ?_
    rw [visitIn,hid]
    simp
  have hsize : id < g.size := by
    by_contra hge
    rw [group_of_size_le (Nat.le_of_not_lt hge)] at hlt
    exact absurd hlt (Nat.not_lt_zero _)
  rw [Ledger.earn_eq hvisit]
  constructor
  · simpa [Ledger.mark,Ledger.record] using h.visits_length
  · simpa [Ledger.mark,Ledger.record] using h.rules_length
  · intro other ho
    by_cases he : id = other
    · exact he ▸ hself ▸ Option.some_ne_none _
    · exact hother he ▸ h.entered other ho
  · intro other
    by_cases he : id = other
    · subst he
      rw [Ledger.visit_mark_self (h.visits_length ▸ hsize),visitIn,hself]
      simp
    · rw [Ledger.visit_mark_of_ne he,visitIn,hother he]
      exact h.visit other
  · intro other
    by_cases he : id = other
    · subst he
      rw [entries_add hid hlt,← h.rules]
      simp [Ledger.mark,Ledger.record,h.rules_length ▸ hsize]
    · rw [entries,Tally.counts_add hid,if_neg he,← entries,← h.rules]
      simp [Ledger.mark,Ledger.record,he]
  · intro other index
    rw [Tally.counts_add hid,Ledger.mark,Ledger.record,List.count_cons,h.counted]
    by_cases he : id = other
    · subst he
      rw [if_pos rfl,Tally.counts_eq hid,List.length_append,List.length_singleton]
      simp only [beq_iff_eq,Prod.mk.injEq,true_and]
      split_ifs <;> omega
    · simp [he]

theorem close (h : g.Tracks (id :: path) t s) {counts : List Nat}
    (hid : t.getD id none = some counts) (hpath : id ∉ path) (hlt : id < g.size) :
    g.Tracks path t (s.mark id (.done (t.total id))) := by
  rw [Tally.total_eq_sum,Tally.counts_eq hid]
  constructor
  · simpa [Ledger.mark] using h.visits_length
  · exact h.rules_length
  · exact fun other ho => h.entered other (List.mem_cons_of_mem id ho)
  · intro other
    by_cases he : id = other
    · subst he
      rw [Ledger.visit_mark_self (h.visits_length ▸ hlt),visitIn,hid]
      simp [hpath]
    · rw [Ledger.visit_mark_of_ne he,h.visit,visitIn,visitIn]
      simp [Ne.symm he]
  · exact h.rules
  · exact h.counted

theorem rule?_eq (h : g.Tracks path t s) (id : GroupId) (index : Nat) :
    s.rule? id index = (t.counts id)[index]? := by
  rw [Ledger.rule?,h.rules,entries,List.getD_eq_getElem?_getD,List.getElem?_append]
  split
  · rename_i hlt
    have hlt : index < (t.counts id).length := by simpa using hlt
    simp [hlt]
  · rename_i hge
    have hge : (t.counts id).length ≤ index := by simpa using hge
    rw [List.getElem?_getD_replicate_default_eq,List.getElem?_eq_none hge]

end Tracks

/-- A visit of the ledger returns the total that the visit of the tally leaves, and keeps to the
tally, when at most `bound` groups are left to visit. -/
def LedgerFollows (g : Graph) (bound : Nat) (visit : GroupId → Tally → Tally)
    (visit' : GroupId → Ledger → Option (Nat × Ledger)) : Prop :=
  ∀ path id t s, g.Complete path t → g.Tracks path t s → (t.unvisited g.size).card ≤ bound →
    id < g.size →
    ∃ s', visit' id s = some ((visit id t).total id,s') ∧ g.Tracks path (visit id t) s'

section Steps

variable {bound : Nat} {visit : GroupId → Tally → Tally}
  {visit' : GroupId → Ledger → Option (Nat × Ledger)}
  (hv : ∀ path r t, g.Complete path t → g.Counted path t (visit r t))
  (hf : g.LedgerFollows bound visit visit')
include hv hf

theorem foldlM_multiplyM {refs : List GroupId} (hrefs : ∀ r ∈ refs, r < g.size)
    (ht : g.Complete path t) (h : g.Tracks path t s) (hcard : (t.unvisited g.size).card ≤ bound)
    (c : Nat) :
    ∃ s', refs.foldlM (multiplyM visit') (c,s) =
        some ((refs.foldl (multiply visit) (c,t)).1,s') ∧
      g.Tracks path (refs.foldl (multiply visit) (c,t)).2 s' := by
  induction refs generalizing c t s with
  | nil => exact ⟨s,rfl,h⟩
  | cons r refs ih =>
    obtain ⟨hlt,hrefs⟩ := List.forall_mem_cons.mp hrefs
    obtain ⟨s₁,hs₁,h₁⟩ := hf path r t s ht h hcard hlt
    have hr := hv path r t ht
    have hcard' := (Finset.card_le_card (hr.advances.unvisited_subset g.size)).trans hcard
    obtain ⟨s',hs',h'⟩ := ih hrefs hr.complete h₁ hcard' (c * (visit r t).total r)
    refine ⟨s',?_,h'⟩
    rw [List.foldlM_cons,multiplyM,hs₁]
    exact hs'

/-- The next rule of a group in progress has not been counted, and its count is the same. -/
theorem ledgerStep_tracks (hg : g.WellFormed) (ht : g.Complete (id :: path) t)
    (h : g.Tracks (id :: path) t s) (hcard : (t.unvisited g.size).card ≤ bound)
    {before : List Nat} (hbefore : t.getD id none = some before) {rule : Rule}
    (hrule : (g.group id).rules[before.length]? = some rule) :
    ∃ s', g.ledgerStep visit' id s before.length = some s' ∧
      g.Tracks (id :: path) (countRule visit id t rule) s' := by
  have hrefs : ∀ r ∈ rule.references, r < g.size := fun r hr =>
    hg.lt_size_of_mem_references (List.mem_of_getElem? hrule) hr
  obtain ⟨s₁,hs₁,h₁⟩ := foldlM_multiplyM hv hf hrefs ht h hcard 1
  obtain ⟨hcounted,-⟩ := foldl_multiply_counted (fun r t h => hv (id :: path) r t h)
    rule.references ht 1
  have hunset : s.rule? id before.length = none := by
    rw [h.rule?_eq,Tally.counts_eq hbefore,List.getElem?_eq_none le_rfl]
  have hkept := hcounted.advances.keeps id before hbefore
  refine ⟨_,?_,h₁.add hkept (List.getElem?_eq_some_iff.mp hrule).1 _⟩
  simp only [ledgerStep,ledgerRule,hunset,hrule,hs₁,Option.map_some]

theorem foldlM_ledgerStep (hg : g.WellFormed) (hlt : id < g.size) {t₀ : Tally}
    (hid : t₀.getD id none = none) (hcard : (t₀.unvisited g.size).card ≤ bound + 1)
    {rules : List Rule} (before : List Nat)
    (hrules : (g.group id).rules.drop before.length = rules) (hadv : t₀.Advances t)
    (ht : g.Complete (id :: path) t) (h : g.Tracks (id :: path) t s)
    (hbefore : t.getD id none = some before) :
    ∃ s', (List.range' before.length rules.length).foldlM (g.ledgerStep visit' id) s = some s' ∧
      g.Tracks (id :: path) (rules.foldl (countRule visit id) t) s' := by
  induction rules generalizing t s before with
  | nil => exact ⟨s,rfl,h⟩
  | cons rule rules ih =>
    obtain ⟨hrule,hdrop⟩ := getElem?_of_drop hrules
    have hvisited := Option.ne_none_iff_exists'.mpr ⟨before,hbefore⟩
    have hcard' : (t.unvisited g.size).card ≤ bound :=
      Nat.le_of_lt_succ ((hadv.unvisited_lt hlt hid hvisited).trans_le hcard)
    obtain ⟨s₁,hs₁,h₁⟩ := ledgerStep_tracks hv hf hg ht h hcard' hbefore hrule
    obtain ⟨-,hadv',ht',count,hcount⟩ :=
      countRule_counted (fun r t h => hv (id :: path) r t h) hid hadv ht hbefore hrule
    obtain ⟨s',hs',h'⟩ := ih (before ++ [count]) (by simpa using hdrop) hadv' ht' h₁ hcount
    refine ⟨s',?_,h'⟩
    rw [List.length_cons,List.range'_succ,List.foldlM_cons,hs₁]
    simpa using hs'

end Steps

theorem Tracks.count?_eq (h : g.Tracks path t s) {counts : List Nat}
    (hid : t.getD id none = some counts) : (s.visit id).count? = some (t.total id) := by
  rw [h.visit,visitIn,hid,Tally.total_eq_sum,Tally.counts_eq hid]
  simp only []
  split <;> rfl

theorem Tracks.count?_eq_none (h : g.Tracks path t s) (hid : t.getD id none = none) :
    (s.visit id).count? = none := by
  rw [h.visit,visitIn,hid]
  rfl

theorem ledgerGroup_follows (hg : g.WellFormed) (depth : Nat) :
    g.LedgerFollows depth (g.countGroup depth) (g.ledgerGroup depth) := by
  induction depth with
  | zero =>
    intro path id t s ht h hcard hlt
    obtain ⟨counts,hc⟩ := Option.ne_none_iff_exists'.mp (getD_countGroup ht hcard hlt)
    exact ⟨s,by rw [ledgerGroup,h.count?_eq hc]; rfl,h⟩
  | succ depth ih =>
    intro path id t s ht h hcard hlt
    obtain ⟨counts,hcounts⟩ := Option.ne_none_iff_exists'.mp (getD_countGroup ht hcard hlt)
    rw [countGroup] at hcounts ⊢
    rw [ledgerGroup]
    cases hid : t.getD id none with
    | some _ => exact ⟨s,by rw [h.count?_eq hid],h⟩
    | none =>
      rw [hid] at hcounts
      have hentered := Tally.getD_set_self (ht.length ▸ hlt) (some [])
      have hadv := (Tally.Advances.refl t).set hid (some [])
      have hpath : id ∉ path := fun hm => h.entered id hm hid
      obtain ⟨s₁,hs₁,h₁⟩ := foldlM_ledgerStep (fun _ r _ h => countGroup_counted depth r h) ih hg
        hlt hid hcard [] rfl hadv ((ht.push id).set (some [])) (h.enter ht hid hlt) hentered
      rw [List.length_nil,List.drop_zero] at hs₁
      simp only [h.count?_eq_none hid,List.range_eq_range',hs₁,Option.map_some,
        h₁.count?_eq hcounts,Option.getD_some]
      exact ⟨_,rfl,h₁.close hcounts hpath hlt⟩

/-- The total that a visit returns is the one in the end, as nothing is counted twice. -/
theorem foldlM_ledgerGroup (hg : g.WellFormed) {ids : List GroupId}
    (hids : ∀ id ∈ ids, id < g.size) (ht : g.Complete [] t) (h : g.Tracks [] t s)
    (totals : List Nat) :
    ∃ s', ids.foldlM (fun r id => (g.ledgerGroup g.size id r.2).map fun r' =>
        (r.1 ++ [r'.1],r'.2)) (totals,s) =
        some (totals ++
          ids.map (ids.foldl (fun t id => g.countGroup g.size id t) t).total,s') ∧
      g.Tracks [] (ids.foldl (fun t id => g.countGroup g.size id t) t) s' := by
  induction ids generalizing t s totals with
  | nil => exact ⟨s,by simp,h⟩
  | cons id ids ih =>
    obtain ⟨hlt,hids⟩ := List.forall_mem_cons.mp hids
    have hcard := t.card_unvisited_le g.size
    obtain ⟨s₁,hs₁,h₁⟩ := ledgerGroup_follows hg g.size [] id t s ht h hcard hlt
    have ht₁ := (countGroup_counted g.size id ht).complete
    have hfull := ht₁.full List.not_mem_nil (getD_countGroup ht hcard hlt)
    have hsteps := (foldl_countGroup_counted g.size ids ht₁).steps
    obtain ⟨s',hs',h'⟩ := ih hids ht₁ h₁ (totals ++ [(g.countGroup g.size id t).total id])
    refine ⟨s',?_,h'⟩
    rw [List.foldlM_cons,hs₁,List.foldl_cons,List.map_cons,hfull.total_steps hsteps]
    simpa using hs'

theorem ledger_tracks (hg : g.WellFormed) :
    ∃ s, g.ledger g.size = some ((List.range g.size).map g.tally.total,s) ∧
      g.Tracks [] g.tally s :=
  foldlM_ledgerGroup hg (fun _ hi => List.mem_range.mp hi) (complete_start g) (tracks_start g) []

/-- On any graph the count ends, with each rule of each group counted once and its entry set. The
sum of a group is the sum of the counts of its rules. Each of these is at most the product of the
totals of its references, and it is the product if none of them leads to the group. -/
theorem tally_balances (hg : g.Reached) : ∃ s,
    (∀ depth, g.size ≤ depth →
      g.ledger depth = some ((List.range g.size).map g.tally.total,s)) ∧
    (∀ id index : Nat, s.counted.count (id,index) =
      if index < (g.group id).rules.length then 1 else 0) ∧
    ∀ id < g.size,
      s.visit id = .done (g.tally.total id) ∧
      s.rules.getD id [] = (g.tally.counts id).map some ∧
      ((s.rules.getD id []).map (·.getD 0)).sum = g.tally.total id ∧
      (g.tally.counts id).length = (g.group id).rules.length ∧
      ∀ (index : Nat) (rule : Rule), (g.group id).rules[index]? = some rule → ∃ count,
        (g.tally.counts id)[index]? = some count ∧
        count ≤ (rule.references.map g.tally.total).prod ∧
        ((∀ r ∈ rule.references, ¬ ReflTransGen g.DependsOn r id) →
          count = (rule.references.map g.tally.total).prod) := by
  have hwf := hg.wellFormed
  obtain ⟨s,hs,h⟩ := ledger_tracks hwf
  have hcomplete := (tally_counted g).complete
  have hlength (id : GroupId) : (g.tally.counts id).length = (g.group id).rules.length := by
    by_cases hlt : id < g.size
    · exact length_counts_of_full (full_tally hlt)
    · have hge := Nat.le_of_not_lt hlt
      rw [group_of_size_le hge,Tally.counts,List.getD_eq_getElem?_getD,
        List.getElem?_eq_none (hcomplete.length.trans_le hge)]
      rfl
  refine ⟨s,fun depth hle => ledger_mono hle hs,fun id index => ?_,fun id hlt => ?_⟩
  · rw [h.counted,hlength]
  · have hrules : s.rules.getD id [] = (g.tally.counts id).map some := by
      rw [h.rules,entries,hlength,Nat.sub_self,List.replicate_zero,List.append_nil]
    refine ⟨?_,hrules,?_,hlength id,fun index rule hrule => ?_⟩
    · obtain ⟨counts,hc,-⟩ := full_tally hlt
      rw [h.visit,visitIn,hc,Tally.total_eq_sum,Tally.counts_eq hc]
      rfl
    · rw [hrules,Tally.total_eq_sum]
      simp [Function.comp_def]
    · have hindex : index < (g.tally.counts id).length :=
        hlength id ▸ (List.getElem?_eq_some_iff.mp hrule).1
      have hcount := List.getElem?_eq_getElem hindex
      refine ⟨_,hcount,tally_under g id index _ rule hcount hrule,fun haway => ?_⟩
      exact (tally_allFinal hwf id index _ rule hcount hrule haway).product

/-- A group that leads to itself, and one that it ends in. -/
def spiral : Graph :=
  ((empty.declare "turn" ["#turn#!","x","#turn# #coin#","#coin##coin#"]).2.declare "coin"
    ["heads","tails"]).2

theorem tally_balances_spiral :
    spiral.Reached ∧ spiral.tally.counts 0 = [0,1,2,4] ∧ spiral.tally.total 0 = 7 ∧
    (∃ s, spiral.ledger 9 = some ([7,2],s) ∧ s.counted.count (0,2) = 1 ∧
      s.visit 0 = .done 7 ∧ s.rules.getD 0 [] = [some 0,some 1,some 2,some 4]) ∧
    2 ≤ spiral.tally.total 0 * spiral.tally.total 1 ∧
    4 = spiral.tally.total 1 * spiral.tally.total 1 := by
  have hreached : spiral.Reached := (Reached.empty.declare _ _).declare _ _
  have hsize : spiral.size = 2 := by decide +kernel
  have hcounts : spiral.tally.counts 0 = [0,1,2,4] := by decide +kernel
  have hturn : spiral.tally.total 0 = 7 := by decide +kernel
  have hcoin : spiral.tally.total 1 = 2 := by decide +kernel
  have hreferences : (spiral.group 0).rules.map Rule.references = [[0],[],[0,1],[1,1]] := by
    decide +kernel
  have hlength : (spiral.group 0).rules.length = 4 := by
    simpa using congrArg List.length hreferences
  have hrule (index : Nat) {references : List GroupId}
      (h : [[0],[],[0,1],[1,1]][index]? = some references) :
      ∃ rule, (spiral.group 0).rules[index]? = some rule ∧ rule.references = references := by
    rw [← hreferences] at h
    simpa using h
  have haway : ¬ ReflTransGen spiral.DependsOn 1 0 := by
    have hend : (spiral.group 1).dependencies = [] := by decide +kernel
    intro h
    rcases ReflTransGen.cases_head h with h | ⟨other,hd,-⟩
    · cases h
    · rw [DependsOn,hend] at hd
      cases hd
  obtain ⟨s,hs,hcounted,hgroup⟩ := tally_balances hreached
  obtain ⟨hvisit,hrules,-,-,hproducts⟩ := hgroup 0 (by omega)
  obtain ⟨rule,hback,hrefs⟩ := hrule 2 rfl
  obtain ⟨count,hcount,hle,-⟩ := hproducts 2 rule hback
  obtain ⟨rule',hends,hrefs'⟩ := hrule 3 rfl
  obtain ⟨count',hcount',-,heq⟩ := hproducts 3 rule' hends
  rw [hcounts] at hrules hcount hcount'
  obtain rfl : 2 = count := Option.some.inj hcount
  obtain rfl : 4 = count' := Option.some.inj hcount'
  rw [hrefs] at hle
  rw [hrefs'] at heq
  refine ⟨hreached,hcounts,hturn,⟨s,?_,?_,hturn ▸ hvisit,hrules⟩,by simpa using hle,
    by simpa using heq (by simp [haway])⟩
  · rw [hs 9 (by omega),hsize]
    simp [List.range_succ,hturn,hcoin]
  · rw [hcounted,hlength]
    rfl

end Graph

end PhraseGrammar
