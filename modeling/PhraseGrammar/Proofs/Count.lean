import Mathlib.Data.Set.Card
import PhraseGrammar.Proofs.Enumeration
import PhraseGrammar.Proofs.Tally

/-! Three ways to count the expansions of a group that no cycle can be reached from: the tally, the
length of an enumeration, and the scripts under which an expansion succeeds. -/
namespace PhraseGrammar

namespace Graph

open Relation

variable {g : Graph} {limit : Option Nat}

theorem WellFormed.length_references (hg : g.WellFormed) {id : GroupId} {rule : Rule}
    (hrule : rule ∈ (g.group id).rules) :
    rule.references.length = (rule.template.segments.filterMap Segment.placeholder?).length := by
  rw [(hg.fits id rule hrule).references.length_eq]
  simp [Template.symbols,Template.placeholders]

theorem length_fills {all : GroupId → List Derivation} {segments : List Segment}
    {ids : List GroupId} (h : ids.length = (segments.filterMap Segment.placeholder?).length) :
    (fills all segments ids).length = (ids.map fun id => (all id).length).prod := by
  induction segments generalizing ids with
  | nil =>
    obtain rfl := List.length_eq_zero_iff.mp h
    rfl
  | cons segment segments ih =>
    cases segment with
    | literal text => simpa [fills] using ih h
    | placeholder p =>
      cases ids with
      | nil => simp [Segment.placeholder?] at h
      | cons id ids =>
        have hids : ids.length = (segments.filterMap Segment.placeholder?).length := by
          simpa [Segment.placeholder?] using h
        simp [fills,List.length_flatMap,ih hids]

theorem fills_congr {all all' : GroupId → List Derivation} {segments : List Segment}
    {ids : List GroupId} (h : ∀ id ∈ ids, all id = all' id) :
    fills all segments ids = fills all' segments ids := by
  induction segments generalizing ids with
  | nil => rfl
  | cons segment segments ih =>
    cases segment with
    | literal text => simp [fills,ih h]
    | placeholder p =>
      cases ids with
      | nil => rfl
      | cons id ids =>
        rw [fills,fills,h id List.mem_cons_self,
          ih fun id' hid' => h id' (List.mem_cons_of_mem id hid')]

theorem combine_done {enter : GroupId → Outcome (List String)} {cap : Nat}
    {segments : List Segment} {ids : List GroupId}
    (hlen : ids.length = (segments.filterMap Segment.placeholder?).length)
    (h : ∀ id ∈ ids, ∃ options, enter id = .done options) (texts : List String) :
    ∃ out, combine enter cap segments ids texts = .done out := by
  induction segments generalizing ids texts with
  | nil => exact ⟨texts,rfl⟩
  | cons segment segments ih =>
    cases segment with
    | literal text => exact ih hlen h _
    | placeholder p =>
      cases ids with
      | nil => simp [Segment.placeholder?] at hlen
      | cons id ids =>
        obtain ⟨options,hid⟩ := h id List.mem_cons_self
        rw [combine,hid]
        exact ih (by simpa [Segment.placeholder?] using hlen)
          (fun id' hid' => h id' (List.mem_cons_of_mem id hid')) _

theorem gather_done {list : Nat → Rule → Outcome (List String)} {rules : List Rule}
    (h : ∀ cap, ∀ rule ∈ rules, ∃ texts, list cap rule = .done texts) (cap : Nat) :
    ∃ out, gather list cap rules = .done out := by
  induction rules generalizing cap with
  | nil => exact ⟨[],rfl⟩
  | cons rule rules ih =>
    rw [gather]
    split
    · exact ⟨[],rfl⟩
    · obtain ⟨texts,ht⟩ := h cap rule List.mem_cons_self
      obtain ⟨rest,hr⟩ :=
        ih (fun cap' rule' hrule' => h cap' rule' (List.mem_cons_of_mem rule hrule'))
          (cap - texts.length)
      rw [ht,Outcome.bind_done,hr]
      exact ⟨texts ++ rest,rfl⟩

@[simp] theorem exceeded?_none (depth : Nat) : exceeded? none depth = none := rfl

theorem derivations_depth (levels depth depth' : Nat) (id : GroupId) :
    g.derivations none levels depth id = g.derivations none levels depth' id := by
  induction levels generalizing depth depth' id with
  | zero => rfl
  | succ levels ih =>
    have hinner : g.derivations none levels (depth + 1) = g.derivations none levels (depth' + 1) :=
      funext fun r => ih _ _ r
    simp only [derivations,exceeded?_none,hinner]

theorem WellFormed.dependsOn_of_mem (hg : g.WellFormed) {id r : GroupId} {rule : Rule}
    (hrule : rule ∈ (g.group id).rules) (hr : r ∈ rule.references) : g.DependsOn id r :=
  hg.dependsOn_iff.mpr ⟨rule,hrule,hr⟩

theorem derivations_of_size_le {levels depth : Nat} {id : GroupId} (h : g.size ≤ id) :
    g.derivations none levels depth id = [] := by
  cases levels with
  | zero => rfl
  | succ levels => simp [derivations,group_of_size_le h,Group.pending]

theorem derivations_eq_of_rank_le (hg : g.WellFormed) {id : GroupId} (hfree : g.CycleFree id)
    {levels levels' : Nat} (h : g.rank id ≤ levels) (h' : g.rank id ≤ levels')
    (depth depth' : Nat) :
    g.derivations none levels depth id = g.derivations none levels' depth' id := by
  induction hn : g.rank id using Nat.strong_induction_on
    generalizing id levels levels' depth depth' with
  | _ n ih =>
    by_cases hlt : id < g.size
    · have hpos := rank_pos hlt
      obtain ⟨m,rfl⟩ := Nat.exists_eq_add_one.mpr (hpos.trans_le h)
      obtain ⟨m',rfl⟩ := Nat.exists_eq_add_one.mpr (hpos.trans_le h')
      simp only [derivations,exceeded?_none]
      apply List.flatMap_congr
      intro p hp
      have hrule := List.fst_mem_of_mem_zipIdx hp
      have hall : ∀ r ∈ p.1.references, g.derivations none m (depth + 1) r =
          g.derivations none m' (depth' + 1) r := by
        intro r hr
        have hd := hg.dependsOn_of_mem hrule hr
        have hrank := hfree.rank_lt hd
        exact ih _ (hn ▸ hrank) (hfree.of_dependsOn hd) (by omega) (by omega) _ _ rfl
      rw [ruleFills,ruleFills,fills_congr hall]
    · rw [derivations_of_size_le (Nat.le_of_not_lt hlt),
        derivations_of_size_le (Nat.le_of_not_lt hlt)]

/-- As many levels as the rank are enough for an enumeration to end, if the limit has room for
them. -/
theorem enumerateGroup_done_of_room (hg : g.WellFormed) {id : GroupId} (hlt : id < g.size)
    (hfree : g.CycleFree id) {levels depth : Nat} (h : g.rank id ≤ levels)
    (hroom : ∀ n ∈ limit, depth + g.rank id ≤ n + 1) (cap : Nat) :
    ∃ texts, g.enumerateGroup limit levels depth cap id = .done texts := by
  induction hn : g.rank id using Nat.strong_induction_on generalizing id levels depth cap with
  | _ n ih =>
    have hpos := rank_pos hlt
    obtain ⟨m,rfl⟩ := Nat.exists_eq_add_one.mpr (hpos.trans_le h)
    have hexceeded : exceeded? limit depth = none := by
      refine Option.filter_eq_none_iff.mpr fun n hn => ?_
      have hle := hroom n hn
      simp only [decide_eq_true_eq]
      omega
    rw [enumerateGroup]
    simp only [hexceeded]
    refine gather_done (fun cap rule hrule => ?_) cap
    refine combine_done (hg.length_references hrule) (fun r hr => ?_) _
    have hd := hg.dependsOn_of_mem hrule hr
    have hrank := hfree.rank_lt hd
    refine ih _ (hn ▸ hrank) (hg.lt_size_of_dependsOn hd) (hfree.of_dependsOn hd) (by omega)
      (fun n hn => ?_) _ rfl
    have hle := hroom n hn
    omega

theorem enumerateGroup_done (hg : g.WellFormed) {id : GroupId} (hlt : id < g.size)
    (hfree : g.CycleFree id) {levels : Nat} (h : g.rank id ≤ levels) (depth cap : Nat) :
    ∃ texts, g.enumerateGroup none levels depth cap id = .done texts :=
  enumerateGroup_done_of_room hg hlt hfree h (by simp) cap

/-- The number of derivations of a group without cycles. -/
def ways (g : Graph) (id : GroupId) : Nat := (g.derivations none g.size 0 id).length

theorem ways_eq (hg : g.WellFormed) {id : GroupId} (hfree : g.CycleFree id) {levels : Nat}
    (h : g.rank id ≤ levels) (depth : Nat) :
    (g.derivations none levels depth id).length = g.ways id := by
  rw [ways,derivations_eq_of_rank_le hg hfree h (rank_le_size g id) depth 0]

theorem length_ruleFills (hg : g.WellFormed) {id : GroupId} (hfree : g.CycleFree id) {rule : Rule}
    (hrule : rule ∈ (g.group id).rules) {levels : Nat} (h : g.rank id ≤ levels + 1)
    (depth : Nat) : (ruleFills (g.derivations none levels depth) rule).length =
      ruleCount g.ways rule := by
  rw [ruleFills,length_fills (hg.length_references hrule),ruleCount]
  congr 1
  apply List.map_congr_left
  intro r hr
  have hd := hg.dependsOn_of_mem hrule hr
  have hrank := hfree.rank_lt hd
  exact ways_eq hg (hfree.of_dependsOn hd) (by omega) depth

theorem length_derivations_succ (levels depth : Nat) (id : GroupId) :
    (g.derivations none (levels + 1) depth id).length = ((g.group id).rules.map fun rule =>
      (ruleFills (g.derivations none levels (depth + 1)) rule).length).sum := by
  rw [← List.length_map (f:=Prod.snd),map_snd_derivations_succ (exceeded?_none depth),
    List.length_flatMap]
  simp

theorem sum_ruleCount_ways (hg : g.WellFormed) {id : GroupId} (hfree : g.CycleFree id) :
    ((g.group id).rules.map (ruleCount g.ways)).sum = g.ways id := by
  have hrank : g.rank id ≤ g.size + 1 := (rank_le_size g id).trans (Nat.le_succ _)
  rw [← ways_eq hg hfree hrank 0,length_derivations_succ]
  congr 1
  apply List.map_congr_left
  intro rule hrule
  exact (length_ruleFills hg hfree hrule hrank 1).symm

theorem counts_tally_ways (hg : g.WellFormed) {id : GroupId} (hlt : id < g.size)
    (hfree : g.CycleFree id) :
    g.tally.counts id = (g.group id).rules.map (ruleCount g.ways) :=
  counts_tally hg (fun _ hi => sum_ruleCount_ways hg hi) hlt hfree

theorem total_tally (hg : g.WellFormed) {id : GroupId} (hlt : id < g.size)
    (hfree : g.CycleFree id) : g.tally.total id = g.ways id := by
  rw [← sum_ruleCount_ways hg hfree,← counts_tally_ways hg hlt hfree]
  rfl

theorem encard_setOf_mem {α : Type} {xs : List α} (h : xs.Nodup) :
    {x | x ∈ xs}.encard = xs.length := by
  classical
  have hs : {x | x ∈ xs} = (xs.toFinset : Set α) := by
    ext x
    simp
  rw [hs,Set.encard_coe_eq_coe_finsetCard,List.toFinset_card_of_nodup h]

/-- The scripts of a group without cycles are those of its derivations at any level past its
rank. -/
theorem exists_yields_iff (hg : g.WellFormed) {id : GroupId} (hlt : id < g.size)
    (hfree : g.CycleFree id) {levels : Nat} (h : g.rank id ≤ levels) {script : List Nat} :
    (∃ text, g.Yields none (g.group id).name script text) ↔
      script ∈ (g.derivations none levels 0 id).map Prod.fst := by
  simp only [yields_iff,hg.idOf?_name hlt,Option.some.injEq,exists_eq_left',List.mem_map]
  constructor
  · rintro ⟨text,levels',hd⟩
    have hd := (derivations_sublist (Nat.le_max_left levels' levels) 0 id).subset hd
    rw [derivations_eq_of_rank_le hg hfree (h.trans (Nat.le_max_right _ _)) h 0 0] at hd
    exact ⟨_,hd,rfl⟩
  · rintro ⟨d,hd,rfl⟩
    exact ⟨d.2,levels,hd⟩

theorem encard_scripts (hg : g.WellFormed) {id : GroupId} (hlt : id < g.size)
    (hfree : g.CycleFree id) :
    {script | ∃ text, g.Yields none (g.group id).name script text}.encard = g.ways id := by
  simp only [exists_yields_iff hg hlt hfree (rank_le_size g id)]
  rw [encard_setOf_mem (nodup_scripts g.size 0 id),List.length_map]
  rfl

theorem nodup_scripts_of_rule (levels depth i : Nat) (rule : Rule) :
    ((ruleFills (g.derivations limit levels depth) rule).map fun d => i :: d.1).Nodup :=
  List.pairwise_map.mpr ((fills_pairwise (derivations_pairwise levels depth) _ _).imp
    fun h => (h.cons i).ne)

theorem encard_scripts_of_rule (hg : g.WellFormed) {id : GroupId} (hlt : id < g.size)
    (hfree : g.CycleFree id) {i : Nat} {rule : Rule} (hrule : (g.group id).rules[i]? = some rule) :
    {script | script.head? = some i ∧
      ∃ text, g.Yields none (g.group id).name script text}.encard = ruleCount g.ways rule := by
  have hrank : g.rank id ≤ g.size + 1 := (rank_le_size g id).trans (Nat.le_succ _)
  have hset : {script | script.head? = some i ∧
      ∃ text, g.Yields none (g.group id).name script text} =
      {script | script ∈
        (ruleFills (g.derivations none g.size 1) rule).map fun d => i :: d.1} := by
    ext script
    simp only [Set.mem_ofPred_eq,exists_yields_iff hg hlt hfree hrank,List.mem_map,Prod.exists,
      mem_derivations_succ,exceeded?_none,true_and]
    constructor
    · rintro ⟨hhead,_,text,⟨j,rule',rest,hj,rfl,hd⟩,rfl⟩
      obtain rfl : j = i := by simpa using hhead
      obtain rfl : rule = rule' := Option.some.inj (hrule.symm.trans hj)
      exact ⟨rest,text,hd,rfl⟩
    · rintro ⟨rest,text,hd,rfl⟩
      exact ⟨rfl,i :: rest,text,⟨i,rule,rest,hrule,rfl,hd⟩,rfl⟩
  have hnodup : ((ruleFills (g.derivations none g.size 1) rule).map fun d => i :: d.1).Nodup :=
    nodup_scripts_of_rule g.size 1 i rule
  rw [hset,encard_setOf_mem hnodup,List.length_map,
    length_ruleFills hg hfree (List.mem_of_getElem? hrule) hrank 1]

/-- Where no cycle can be reached, the tally is the number of texts enumerated short of the cap and
the number of scripts under which an expansion succeeds, and each rule counts the scripts that
begin with it. -/
theorem tally_counts_expansions (hg : g.Reached) {id : GroupId} (hlt : id < g.size)
    (hfree : g.CycleFree id) :
    (∀ cap levels, g.size ≤ levels → ∃ texts,
      g.enumerate none levels (g.group id).name cap = .done texts ∧
        texts.length = min cap (g.tally.total id)) ∧
    {script | ∃ text, g.Yields none (g.group id).name script text}.encard = g.tally.total id ∧
    (g.tally.counts id).length = (g.group id).rules.length ∧
    ∀ i count : Nat, (g.tally.counts id)[i]? = some count →
      {script | script.head? = some i ∧
        ∃ text, g.Yields none (g.group id).name script text}.encard = count := by
  have hwf := hg.wellFormed
  rw [total_tally hwf hlt hfree,counts_tally_ways hwf hlt hfree]
  refine ⟨fun cap levels hlevels => ?_,encard_scripts hwf hlt hfree,List.length_map _,?_⟩
  · have hrank := (rank_le_size g id).trans hlevels
    obtain ⟨texts,ht⟩ := enumerateGroup_done hwf hlt hfree hrank 0 cap
    refine ⟨texts,by rw [enumerate,hwf.idOf?_name hlt]; exact ht,?_⟩
    rw [enumerateGroup_eq_take ht,List.length_take,List.length_map,ways_eq hwf hfree hrank]
  · intro i count hcount
    rw [List.getElem?_map] at hcount
    obtain ⟨rule,hrule,rfl⟩ := Option.map_eq_some_iff.mp hcount
    exact encard_scripts_of_rule hwf hlt hfree hrule

/-- A group on a cycle that leads to two groups without one. -/
def loopAndPair : Graph :=
  (((empty.declare "loop" ["#loop#!","#pair#"]).2.declare "pair"
    ["#word# #word.capitalize#","nothing"]).2.declare "word" ["sun","moon"]).2

theorem tally_counts_expansions_loopAndPair :
    loopAndPair.Reached ∧ 1 < loopAndPair.size ∧ loopAndPair.CycleFree 1 ∧
    (∃ texts, loopAndPair.enumerate none 3 "pair" 4 = .done texts ∧ texts.length = 4) ∧
    {script | ∃ text, loopAndPair.Yields none "pair" script text}.encard = 5 ∧
    {script | script.head? = some 0 ∧
      ∃ text, loopAndPair.Yields none "pair" script text}.encard = 4 := by
  have hreached : loopAndPair.Reached := ((Reached.empty.declare _ _).declare _ _).declare _ _
  have hlt : 1 < loopAndPair.size := by decide +kernel
  have hfree : loopAndPair.CycleFree 1 :=
    cycleFree_of_increasing [1,2] (by decide) (by decide +kernel)
  have hname : (loopAndPair.group 1).name = "pair" := by decide +kernel
  have htotal : loopAndPair.tally.total 1 = 5 := by decide +kernel
  have hcounts : loopAndPair.tally.counts 1 = [4,1] := by decide +kernel
  obtain ⟨htexts,hscripts,-,hrules⟩ := tally_counts_expansions hreached hlt hfree
  rw [hname,htotal] at htexts
  rw [hname,htotal] at hscripts
  rw [hname,hcounts] at hrules
  exact ⟨hreached,hlt,hfree,htexts 4 3 (by decide +kernel),hscripts,hrules 0 4 rfl⟩

end Graph

end PhraseGrammar
