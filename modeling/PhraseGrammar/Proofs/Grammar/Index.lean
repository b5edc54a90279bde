import Mathlib.Data.List.Nodup
import PhraseGrammar.Proofs.Document.Reload

/-! Grammars that find their groups through an index from names to positions. Insertion and merging
ask nothing but the index, and it answers what a search of the groups would: whatever is added, its
name is new to the index at that moment. Groups are only ever added at the end, so those that are
there keep their positions and rules, also when a merge stops midway. -/
namespace PhraseGrammar

/-- A call that may add groups to a grammar. -/
inductive Grammar.Call
  | insert (name : String) (rules : GroupRules)
  | merge (other : Grammar) (path : String)

namespace Grammar

def call (g : Grammar) : Call → Except Error Unit × Grammar
  | .insert name rules => g.insert name rules
  | .merge other path => g.merge other path

def calls (g : Grammar) (cs : List Call) : Grammar := cs.foldl (fun g c => (g.call c).2) g

/-- What merging groups comes to: all of them are new, or the first one that is not stops it. -/
inductive Merges (g : Grammar) (path : String) (groups : List (String × GroupRules)) :
    Except Error Unit × Grammar → Prop
  | all (hnew : (g.names ++ groups.map Prod.fst).Nodup) :
    Merges g path groups (.ok (),{ g with groups := g.groups ++ groups })
  | taken {kept rest : List (String × GroupRules)} {name : String} {rules : GroupRules}
    (hgroups : groups = kept ++ (name,rules) :: rest)
    (hnew : (g.names ++ kept.map Prod.fst).Nodup)
    (hname : name ∈ g.names ++ kept.map Prod.fst) :
    Merges g path groups
      (.error (.duplicateKey name path),{ g with groups := g.groups ++ kept })

variable {g : Grammar} {path : String}

theorem merges_mergeGroups (hg : g.names.Nodup) (groups : List (String × GroupRules)) :
    g.Merges path groups (mergeGroups path g groups) := by
  induction groups generalizing g with
  | nil =>
    have hall : g.Merges path [] (.ok (),{ g with groups := g.groups ++ [] }) :=
      .all (by simpa using hg)
    rwa [List.append_nil] at hall
  | cons key groups ih =>
    obtain ⟨name,rules⟩ := key
    rw [mergeGroups]
    by_cases hname : g.contains name = true
    · rw [if_pos hname]
      have htaken : g.Merges path ((name,rules) :: groups)
          (.error (.duplicateKey name path),{ g with groups := g.groups ++ [] }) := by
        have hsplit : (name,rules) :: groups = [] ++ (name,rules) :: groups := rfl
        refine .taken hsplit (by simpa using hg) ?_
        exact List.mem_append_left _ (List.contains_iff_mem.mp hname)
      rwa [List.append_nil] at htaken
    · rw [if_neg hname]
      have hrest := ih (nodup_push hg (not_mem_of_contains hname) rules)
      have hgroups (more : List (String × GroupRules)) :
          (g.push name rules).groups ++ more = g.groups ++ (name,rules) :: more := by simp [push]
      have hnames (more : List (String × GroupRules)) :
          (g.push name rules).names ++ more.map Prod.fst =
            g.names ++ ((name,rules) :: more).map Prod.fst := by simp
      generalize mergeGroups path (g.push name rules) groups = result at hrest
      cases hrest with
      | all hnew =>
        rw [hgroups]
        exact .all (hnames groups ▸ hnew)
      | @taken kept rest other _ he hnew hother =>
        rw [hgroups]
        rw [hnames] at hnew hother
        exact .taken (congrArg ((name,rules) :: ·) he) hnew hother

theorem call_extends (g : Grammar) (c : Call) :
    g.groups <+: (g.call c).2.groups ∧ (g.call c).2.includes = g.includes := by
  cases c with
  | insert name rules =>
    rw [call,insert]
    split
    · exact ⟨List.prefix_refl _,rfl⟩
    · exact ⟨List.prefix_append _ _,rfl⟩
  | merge other path =>
    refine mergeGroups_keeps (P:=fun h => g.groups <+: h.groups ∧ h.includes = g.includes)
      ⟨List.prefix_refl _,rfl⟩ fun h hh key _ _ => ?_
    exact ⟨hh.1.trans (List.prefix_append _ _),hh.2⟩

theorem calls_extend (g : Grammar) (cs : List Call) :
    g.groups <+: (g.calls cs).groups ∧ (g.calls cs).includes = g.includes := by
  induction cs generalizing g with
  | nil => exact ⟨List.prefix_refl _,rfl⟩
  | cons c cs ih =>
    obtain ⟨hfront,hincludes⟩ := g.call_extends c
    obtain ⟨hfront',hincludes'⟩ := ih (g.call c).2
    exact ⟨hfront.trans hfront',hincludes'.trans hincludes⟩

theorem contains_eq_isSome (g : Grammar) (name : String) :
    g.contains name = (g.get? name).isSome := by
  cases hget : g.get? name with
  | none => simpa [contains] using get?_eq_none.mp hget
  | some rules => simpa [contains] using mem_names_of_get? hget

theorem get?_calls {g : Grammar} {name : String} {rules : GroupRules}
    (h : g.get? name = some rules) (cs : List Call) : (g.calls cs).get? name = some rules := by
  obtain ⟨added,hadded⟩ := (g.calls_extend cs).1
  rw [get?] at h
  rw [get?,← hadded,List.lookup_append,h,Option.some_or]

end Grammar

/-- A grammar with the position of each group by its name. -/
structure IndexedGrammar where
  grammar : Grammar
  index : Std.HashMap String Nat

namespace IndexedGrammar

open Grammar (Call Merges)

def contains (t : IndexedGrammar) (name : String) : Bool := t.index.contains name

def get? (t : IndexedGrammar) (name : String) : Option GroupRules :=
  t.index[name]?.bind fun i => t.grammar.groups[i]?.map Prod.snd

def push (t : IndexedGrammar) (name : String) (rules : GroupRules) : IndexedGrammar :=
  ⟨t.grammar.push name rules,t.index.insert name t.grammar.groups.length⟩

def insert (t : IndexedGrammar) (name : String) (rules : GroupRules) :
    Except Error Unit × IndexedGrammar :=
  if t.contains name then (.error (.duplicateGroup name),t) else (.ok (),t.push name rules)

def mergeGroups (path : String) : IndexedGrammar → List (String × GroupRules) →
    Except Error Unit × IndexedGrammar
  | t, [] => (.ok (),t)
  | t, (name,rules) :: rest =>
    if t.contains name then (.error (.duplicateKey name path),t)
    else
      match t.insert name rules with
      | (.error e,t) => (.error e,t)
      | (.ok (),t) => t.mergeGroups path rest

def merge (t : IndexedGrammar) (other : Grammar) (path : String) :
    Except Error Unit × IndexedGrammar := mergeGroups path t other.groups

def call (t : IndexedGrammar) : Call → Except Error Unit × IndexedGrammar
  | .insert name rules => t.insert name rules
  | .merge other path => t.merge other path

def calls (t : IndexedGrammar) (cs : List Call) : IndexedGrammar :=
  cs.foldl (fun t c => (t.call c).2) t

/-- Adds groups that are known to be new. -/
def pushAll (t : IndexedGrammar) (groups : List (String × GroupRules)) : IndexedGrammar :=
  groups.foldl (fun t key => t.push key.1 key.2) t

/-- Indexes the groups of a grammar one after the other, as reading a document adds them. -/
def ofGrammar (g : Grammar) : IndexedGrammar := pushAll ⟨⟨[],g.includes⟩,∅⟩ g.groups

/-- Names are distinct, and the index has exactly their positions. -/
structure InStep (t : IndexedGrammar) : Prop where
  nodup : t.grammar.names.Nodup
  index : ∀ (name : String) (i : Nat), t.index[name]? = some i ↔ t.grammar.names[i]? = some name

variable {t : IndexedGrammar}

theorem inStep_of_no_groups (includes : List String) : InStep ⟨⟨[],includes⟩,∅⟩ :=
  ⟨List.nodup_nil,by simp [Grammar.names]⟩

theorem InStep.contains_eq (ht : t.InStep) (name : String) :
    t.contains name = t.grammar.contains name := by
  rw [Bool.eq_iff_iff,contains,Std.HashMap.contains_eq_isSome_getElem?,Option.isSome_iff_exists,
    Grammar.contains,List.contains_iff_mem,List.mem_iff_getElem?]
  exact exists_congr fun i => ht.index name i

theorem InStep.get?_eq (ht : t.InStep) (name : String) : t.get? name = t.grammar.get? name := by
  rw [get?]
  cases hi : t.index[name]? with
  | none =>
    symm
    rw [Option.bind_none,Grammar.get?_eq_none,List.mem_iff_getElem?]
    rintro ⟨i,hname⟩
    rw [(ht.index name i).mpr hname] at hi
    cases hi
  | some i =>
    have hname := (ht.index name i).mp hi
    rw [Grammar.names,List.getElem?_map,Option.map_eq_some_iff] at hname
    obtain ⟨key,hkey,rfl⟩ := hname
    rw [Option.bind_some,hkey]
    exact (Grammar.get?_of_mem ht.nodup (List.mem_of_getElem? hkey)).symm

theorem InStep.push (ht : t.InStep) {name : String} (hname : name ∉ t.grammar.names)
    (rules : GroupRules) : (t.push name rules).InStep := by
  refine ⟨Grammar.nodup_push ht.nodup hname rules,?_⟩
  have hindex : Indexes t.index t.grammar.names := ht.index
  have hlen : t.grammar.names.length = t.grammar.groups.length := List.length_map _
  show Indexes (t.index.insert name t.grammar.groups.length) (t.grammar.push name rules).names
  rw [Grammar.names_push,← hlen]
  exact hindex.concat hname

theorem InStep.pushAll (ht : t.InStep) {groups : List (String × GroupRules)}
    (hnew : (t.grammar.names ++ groups.map Prod.fst).Nodup) :
    (t.pushAll groups).grammar = { t.grammar with groups := t.grammar.groups ++ groups } ∧
      (t.pushAll groups).InStep := by
  induction groups generalizing t with
  | nil => exact ⟨by simp [IndexedGrammar.pushAll],ht⟩
  | cons key groups ih =>
    rw [List.map_cons,List.append_cons] at hnew
    have hname : key.1 ∉ t.grammar.names := fun hmem =>
      (List.nodup_append.mp (List.nodup_append.mp hnew).1).2.2 _ hmem _ List.mem_cons_self rfl
    obtain ⟨hgrammar,hstep⟩ := ih (ht.push hname key.2)
      (by simpa [IndexedGrammar.push] using hnew)
    refine ⟨hgrammar.trans ?_,hstep⟩
    simp [IndexedGrammar.push,Grammar.push]

theorem inStep_ofGrammar {g : Grammar} (hg : g.names.Nodup) :
    (ofGrammar g).grammar = g ∧ (ofGrammar g).InStep := by
  have hnew : ((⟨[],g.includes⟩ : Grammar).names ++ g.groups.map Prod.fst).Nodup := by
    simpa [Grammar.names] using hg
  have hall := (inStep_of_no_groups g.includes).pushAll hnew
  exact ⟨hall.1.trans (by simp),hall.2⟩

/-- A call on the indexed grammar does what it does on the groups alone. -/
def Agrees (r : Except Error Unit × IndexedGrammar) (r' : Except Error Unit × Grammar) : Prop :=
  (r.1,r.2.grammar) = r' ∧ r.2.InStep

theorem InStep.insert (ht : t.InStep) (name : String) (rules : GroupRules) :
    Agrees (t.insert name rules) (t.grammar.insert name rules) := by
  rw [IndexedGrammar.insert,Grammar.insert,ht.contains_eq]
  by_cases hname : t.grammar.contains name = true
  · rw [if_pos hname,if_pos hname]
    exact ⟨rfl,ht⟩
  · rw [if_neg hname,if_neg hname]
    exact ⟨rfl,ht.push (Grammar.not_mem_of_contains hname) rules⟩

theorem InStep.mergeGroups (ht : t.InStep) (path : String)
    (groups : List (String × GroupRules)) :
    Agrees (t.mergeGroups path groups) (Grammar.mergeGroups path t.grammar groups) := by
  induction groups generalizing t with
  | nil => exact ⟨rfl,ht⟩
  | cons key groups ih =>
    obtain ⟨name,rules⟩ := key
    rw [IndexedGrammar.mergeGroups,Grammar.mergeGroups,ht.contains_eq]
    by_cases hname : t.grammar.contains name = true
    · rw [if_pos hname,if_pos hname]
      exact ⟨rfl,ht⟩
    · have hinsert : t.insert name rules = (.ok (),t.push name rules) := by
        rw [IndexedGrammar.insert,ht.contains_eq,if_neg hname]
      rw [if_neg hname,if_neg hname,hinsert]
      exact ih (ht.push (Grammar.not_mem_of_contains hname) rules)

theorem InStep.call (ht : t.InStep) (c : Call) : Agrees (t.call c) (t.grammar.call c) := by
  cases c with
  | insert name rules => exact ht.insert name rules
  | merge other path => exact ht.mergeGroups path other.groups

theorem InStep.calls (ht : t.InStep) (cs : List Call) :
    (t.calls cs).grammar = t.grammar.calls cs ∧ (t.calls cs).InStep := by
  induction cs generalizing t with
  | nil => exact ⟨rfl,ht⟩
  | cons c cs ih =>
    obtain ⟨hgrammar,hstep⟩ := ht.call c
    obtain ⟨hrest,hsteps⟩ := ih hstep
    refine ⟨hrest.trans ?_,hsteps⟩
    show (t.call c).2.grammar.calls cs = (t.grammar.call c).2.calls cs
    rw [← hgrammar]

/-- After any calls on a grammar that is empty or was read, the index has exactly the positions of
the groups, whose names are distinct. A name that is taken is refused and changes nothing, a merge
keeps the groups before the first one whose name is taken, and no later call changes or moves a
group or adds an include. -/
theorem calls_keep_in_step {g : Grammar}
    (hg : g = .empty ∨ ∃ format text, Grammar.parse format text = .ok g) (cs : List Call)
    {t : IndexedGrammar} (ht : t = (ofGrammar g).calls cs) :
    t.InStep ∧ t.grammar = g.calls cs ∧
    (∀ c, ((t.call c).1,(t.call c).2.grammar) = t.grammar.call c) ∧
    (∀ name, t.get? name = t.grammar.get? name ∧ t.contains name = (t.get? name).isSome) ∧
    (∀ name rules, t.insert name rules =
      if name ∈ t.grammar.names then (.error (.duplicateGroup name),t)
      else (.ok (),t.push name rules)) ∧
    (∀ other path, t.grammar.Merges path other.groups (t.grammar.merge other path)) ∧
    ∀ later, t.grammar.groups <+: (t.calls later).grammar.groups ∧
      (t.calls later).grammar.includes = t.grammar.includes ∧
      ∀ name rules, t.get? name = some rules → (t.calls later).get? name = some rules := by
  have hnodup : g.names.Nodup := by
    rcases hg with rfl | ⟨format,text,hparse⟩
    · exact List.nodup_nil
    · exact (Grammar.loadable_of_parse hparse).nodup
  obtain ⟨hgrammar,hstart⟩ := inStep_ofGrammar hnodup
  obtain ⟨hcalls,hstep⟩ := hstart.calls cs
  rw [← ht] at hcalls hstep
  rw [hgrammar] at hcalls
  refine ⟨hstep,hcalls,fun c => (hstep.call c).1,fun name => ⟨hstep.get?_eq name,?_⟩,
    fun name rules => ?_,fun other path => Grammar.merges_mergeGroups hstep.nodup other.groups,
    fun later => ?_⟩
  · rw [hstep.contains_eq,hstep.get?_eq,Grammar.contains_eq_isSome]
  · rw [insert,hstep.contains_eq,Grammar.contains]
    simp only [List.contains_iff_mem]
  · obtain ⟨hlater,hstep'⟩ := hstep.calls later
    obtain ⟨hfront,hincludes⟩ := t.grammar.calls_extend later
    refine ⟨hlater ▸ hfront,hlater ▸ hincludes,fun name rules hget => ?_⟩
    rw [hstep'.get?_eq,hlater]
    rw [hstep.get?_eq] at hget
    exact Grammar.get?_calls hget later

/-- A merge of which the first group is new, the second is not, and the third is never reached. -/
def bequest : Grammar := ⟨[("d",.flat ["x"]),("b",.flat []),("e",.flat ["y"])],["e.json"]⟩

theorem calls_keep_in_step_bequest : ∃ t : IndexedGrammar,
    t = (ofGrammar Grammar.keepsake).calls
      [.insert "b" (.flat ["lost"]),.merge bequest "d.json",.insert "f" (.flat [])] ∧
    t.InStep ∧ t.grammar.names = ["origin","b","","c","d","f"] ∧
    t.grammar.includes = ["b.json"] ∧
    t.get? "b" = some (.gendered ⟨some [],none,some ["","🦆"]⟩) ∧
    t.insert "d" (.flat []) = (.error (.duplicateGroup "d"),t) ∧
    t.grammar.merge bequest "d.json" = (.error (.duplicateKey "d" "d.json"),t.grammar) ∧
    (t.calls [.merge bequest "d.json",.insert "g" (.flat [])]).get? "d" = some (.flat ["x"]) := by
  have hparsed : Grammar.parse .json Grammar.keepsake.toJson = .ok Grammar.keepsake :=
    Grammar.parseJson_toJson (by decide) (by decide)
  refine ⟨_,rfl,?_⟩
  obtain ⟨hstep,hcalls,hcall,hget,hinsert,hmerge,hlater⟩ :=
    calls_keep_in_step (.inr ⟨_,_,hparsed⟩)
      [.insert "b" (.flat ["lost"]),.merge bequest "d.json",.insert "f" (.flat [])] rfl
  have hd := (hget "d").1
  have hb := (hget "b").1
  refine ⟨hstep,?_,?_,?_,?_,?_,(hlater _).2.2 _ _ ?_⟩
  · rw [hcalls]
    decide
  · rw [hcalls]
    decide
  · rw [hb,hcalls]
    decide
  · rw [hinsert,hcalls,if_pos (by decide)]
  · rw [hcalls]
    decide
  · rw [hd,hcalls]
    decide

end IndexedGrammar

end PhraseGrammar
