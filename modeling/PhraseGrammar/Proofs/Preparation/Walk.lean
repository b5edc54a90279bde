import PhraseGrammar.Proofs.Preparation.Findings
import PhraseGrammar.Proofs.Segmentation

/-! Preparation is a walk through a grammar, depth first. The stack may hold a name many times, and
a name is passed over when it comes up again; the walk that this amounts to visits a name and all
that it leads to before it looks at the next one. -/
namespace PhraseGrammar
namespace Grammar

/-- A name stands for rules, and these are its symbols, rule by rule. -/
def Mentions (g : Grammar) (name : String) (symbols : List String) : Prop :=
  ∃ rules templates, g.resolve name = .ok rules ∧
    List.Forall₂ (fun rule t => Template.parse rule = .ok t) rules templates ∧
    symbols = templates.flatMap Template.symbols

/-- Why a name cannot be visited: it stands for nothing, or this is the first of its rules that has
an odd number of delimiters. -/
inductive Fails (g : Grammar) (name : String) : Error → Prop
  | unresolved {e : Error} : g.resolve name = .error e → Fails g name e
  | unbalanced {before : List String} {rule : String} {after : List String} :
      g.resolve name = .ok (before ++ rule :: after) →
      (∀ other ∈ before, Even (other.toList.count Template.delimiter)) →
      ¬ Even (rule.toList.count Template.delimiter) → Fails g name (.unbalancedDelimiters rule)

/-- The walk over some names, the first one first, after others have been seen. It ends with all
names that have been seen, in the order of their visits, or with the error of the first one that
fails. -/
inductive Walk (g : Grammar) : List String → List String → Except Error (List String) → Prop
  | done {seen : List String} : Walk g seen [] (.ok seen)
  | skip {seen : List String} {name : String} {names : List String}
      {r : Except Error (List String)} :
      name ∈ seen → Walk g seen names r → Walk g seen (name :: names) r
  | fail {seen : List String} {name : String} {names : List String} {e : Error} :
      name ∉ seen → g.Fails name e → Walk g seen (name :: names) (.error e)
  | visit {seen seen' : List String} {name : String} {names symbols : List String}
      {r : Except Error (List String)} :
      name ∉ seen → g.Mentions name symbols →
      Walk g (seen ++ [name]) symbols.reverse (.ok seen') → Walk g seen' names r →
      Walk g seen (name :: names) r
  | broken {seen : List String} {name : String} {names symbols : List String} {e : Error} :
      name ∉ seen → g.Mentions name symbols →
      Walk g (seen ++ [name]) symbols.reverse (.error e) → Walk g seen (name :: names) (.error e)

variable {g p : Grammar} {seen seen' names stack symbols : List String} {name : String}
  {r : Except Error (List String)}

theorem parse_rules (rules : List String) :
    (∃ templates, List.Forall₂ (fun rule t => Template.parse rule = .ok t) rules templates) ∨
    ∃ before rule after, rules = before ++ rule :: after ∧
      (∀ other ∈ before, Even (other.toList.count Template.delimiter)) ∧
      ¬ Even (rule.toList.count Template.delimiter) := by
  induction rules with
  | nil => exact .inl ⟨[],.nil⟩
  | cons rule rules ih =>
    by_cases heven : Even (rule.toList.count Template.delimiter)
    · obtain ⟨t,ht⟩ := (Template.exists_parse_iff_even rule).mpr heven
      rcases ih with ⟨templates,h⟩ | ⟨before,odd,after,rfl,hbefore,hodd⟩
      · exact .inl ⟨t :: templates,.cons ht h⟩
      · exact .inr ⟨rule :: before,odd,after,rfl,List.forall_mem_cons.mpr ⟨heven,hbefore⟩,hodd⟩
    · exact .inr ⟨[],rule,rules,rfl,by simp,heven⟩

theorem fails_or_mentions (g : Grammar) (name : String) :
    (∃ e, g.Fails name e) ∨ ∃ symbols, g.Mentions name symbols := by
  cases hr : g.resolve name with
  | error e => exact .inl ⟨e,.unresolved hr⟩
  | ok rules =>
    rcases parse_rules rules with ⟨templates,h⟩ | ⟨before,rule,after,rfl,hbefore,hodd⟩
    · exact .inr ⟨_,rules,templates,hr,h,rfl⟩
    · exact .inl ⟨_,.unbalanced hr hbefore hodd⟩

theorem mentions_of_forall₂ {rules : List String} {templates : List Template}
    (h : List.Forall₂ (fun rule t => Template.parse rule = .ok t) rules templates) :
    mentions rules = .ok (templates.flatMap Template.symbols) := by
  induction h with
  | nil => rfl
  | cons ht _ ih => exact mentions_cons_eq_ok.mpr ⟨_,_,ht,ih,List.flatMap_cons⟩

theorem mentions_of_unbalanced {before : List String} {rule : String} (after : List String)
    (hbefore : ∀ other ∈ before, Even (other.toList.count Template.delimiter))
    (hodd : ¬ Even (rule.toList.count Template.delimiter)) :
    mentions (before ++ rule :: after) = .error (.unbalancedDelimiters rule) := by
  induction before with
  | nil =>
    have hrule : Template.parse rule = .error (.unbalancedDelimiters rule) := by
      have hnone := mt (Template.exists_parse_iff_even rule).mp hodd
      rw [Template.parse] at hnone ⊢
      cases h : Template.alternate (rule.toList.splitOn Template.delimiter) with
      | none => rfl
      | some segments => simp [h] at hnone
    rw [List.nil_append,mentions_cons,hrule]
    rfl
  | cons other before ih =>
    obtain ⟨heven,hbefore⟩ := List.forall_mem_cons.mp hbefore
    obtain ⟨t,ht⟩ := (Template.exists_parse_iff_even other).mpr heven
    rw [List.cons_append,mentions_cons,ht,ih hbefore]
    rfl

theorem mentions_iff : g.Mentions name symbols ↔
    ∃ rules, g.resolve name = .ok rules ∧ mentions rules = .ok symbols := by
  constructor
  · rintro ⟨rules,templates,hr,hparsed,rfl⟩
    exact ⟨rules,hr,mentions_of_forall₂ hparsed⟩
  · rintro ⟨rules,hr,hm⟩
    rcases parse_rules rules with ⟨templates,h⟩ | ⟨before,rule,after,rfl,hbefore,hodd⟩
    · exact ⟨rules,templates,hr,h,Except.ok.inj (hm.symm.trans (mentions_of_forall₂ h))⟩
    · cases hm.symm.trans (mentions_of_unbalanced after hbefore hodd)

/-- Names that have been seen are different, and all of them stand for rules. -/
structure Seen (g : Grammar) (names : List String) : Prop where
  nodup : names.Nodup
  resolves : ∀ name ∈ names, ∃ rules, g.resolve name = .ok rules

theorem Seen.nil : g.Seen [] := ⟨.nil,by simp⟩

theorem Seen.push (h : g.Seen seen) (hname : name ∉ seen) (hm : g.Mentions name symbols) :
    g.Seen (seen ++ [name]) := by
  obtain ⟨rules,_,hr,-,-⟩ := hm
  constructor
  · exact List.nodup_append.mpr ⟨h.nodup,by simp,by
      rintro a ha b hb rfl
      exact hname (List.mem_singleton.mp hb ▸ ha)⟩
  · intro other ho
    rcases List.mem_append.mp ho with ho | ho
    · exact h.resolves other ho
    · exact ⟨rules,List.mem_singleton.mp ho ▸ hr⟩

theorem Seen.length_le (h : g.Seen seen) : seen.length ≤ g.nameCount :=
  length_le_nameCount h.nodup h.resolves

theorem Walk.grows (h : g.Walk seen names r) (hs : g.Seen seen) :
    ∀ seen', r = .ok seen' → g.Seen seen' ∧ seen <+: seen' := by
  induction h with
  | done =>
    rintro seen' ⟨⟩
    exact ⟨hs,List.prefix_rfl⟩
  | skip _ _ ih => exact ih hs
  | fail => exact fun _ he => nomatch he
  | visit hname hm _ _ ihbelow ih =>
    intro seen' hr
    obtain ⟨hs₁,h₁⟩ := ihbelow (hs.push hname hm) _ rfl
    obtain ⟨hs₂,h₂⟩ := ih hs₁ seen' hr
    exact ⟨hs₂,(List.prefix_append _ _).trans (h₁.trans h₂)⟩
  | broken => exact fun _ he => nomatch he

/-- Every walk ends: a visit leaves fewer names to see, and a name that is skipped fewer to look
at. -/
theorem exists_walk (hs : g.Seen seen) (names : List String) : ∃ r, g.Walk seen names r := by
  induction hn : g.nameCount - seen.length using Nat.strong_induction_on
    generalizing seen names with
  | h n ih =>
    induction names with
    | nil => exact ⟨_,.done⟩
    | cons name names ihnames =>
      by_cases hname : name ∈ seen
      · obtain ⟨r,h⟩ := ihnames
        exact ⟨r,.skip hname h⟩
      · rcases g.fails_or_mentions name with ⟨e,he⟩ | ⟨symbols,hm⟩
        · exact ⟨_,.fail hname he⟩
        · have hpush := hs.push hname hm
          have hlen : (seen ++ [name]).length = seen.length + 1 := by simp
          have hle := hpush.length_le
          obtain ⟨r,hbelow⟩ := ih _ (by omega) hpush symbols.reverse rfl
          cases r with
          | error e => exact ⟨_,.broken hname hm hbelow⟩
          | ok seen' =>
            obtain ⟨hs',hfront⟩ := hbelow.grows hpush seen' rfl
            have hle' := hfront.length_le
            obtain ⟨r,h⟩ := ih _ (by omega) hs' names rfl
            exact ⟨r,.visit hname hm hbelow h⟩

theorem Walk.congr (h : g.Walk seen names r) (hs : g.Seen seen) :
    ∀ final, r = .ok final → (∀ name ∈ final, p.resolve name = g.resolve name) →
      p.Walk seen names r := by
  induction h with
  | done => exact fun _ _ _ => .done
  | skip hname _ ih => exact fun final hr heq => .skip hname (ih hs final hr heq)
  | fail => exact fun _ he => nomatch he
  | @visit seen middle name names symbols r hname hm hbelow h ihbelow ih =>
    intro final hr heq
    have hpush := hs.push hname hm
    obtain ⟨hs',hmiddle⟩ := hbelow.grows hpush _ rfl
    obtain ⟨-,hfinal⟩ := h.grows hs' final hr
    have hmem : name ∈ final := (hmiddle.trans hfinal).subset (by simp)
    have hm' : p.Mentions name symbols := by
      obtain ⟨rules,templates,hresolve,hparsed⟩ := hm
      exact ⟨rules,templates,(heq name hmem).trans hresolve,hparsed⟩
    exact .visit hname hm'
      (ihbelow hpush middle rfl fun other ho => heq other (hfinal.subset ho)) (ih hs' final hr heq)
  | broken => exact fun _ he => nomatch he

/-- The grammar of names with the rules they stand for. -/
def flattened (g : Grammar) (names : List String) : Grammar :=
  ⟨names.map fun name => (name,.flat ((g.resolve name).toOption.getD [])),[]⟩

@[simp] theorem names_flattened (g : Grammar) (names : List String) :
    (g.flattened names).names = names := by
  simp [flattened,Grammar.names,Function.comp_def]

theorem contains_flattened : (g.flattened seen).contains name = true ↔ name ∈ seen := by
  rw [contains,names_flattened,List.contains_iff_mem]

theorem flattened_push {rules : List String} (h : g.resolve name = .ok rules) :
    (g.flattened seen).push name (.flat rules) = g.flattened (seen ++ [name]) := by
  simp [flattened,push,h,Except.toOption]

theorem get?_flattened (hs : g.Seen seen) (hname : name ∈ seen) : ∃ rules,
    (g.flattened seen).get? name = some (.flat rules) ∧ g.resolve name = .ok rules := by
  obtain ⟨rules,hr⟩ := hs.resolves name hname
  refine ⟨rules,get?_of_mem (by simpa using hs.nodup) ?_,hr⟩
  exact List.mem_map.mpr ⟨name,hname,by simp [hr,Except.toOption]⟩

theorem prepareNames_fail {room : Nat} {e : Error} (hname : ¬ p.contains name = true)
    (h : g.Fails name e) : g.prepareNames room (name :: stack) p = .error e := by
  rw [prepareNames,if_neg hname]
  cases h with
  | unresolved hr => simp only [hr]
  | unbalanced hr hbefore hodd => simp only [hr,mentions_of_unbalanced _ hbefore hodd]

theorem prepareNames_visit {bound : Nat} (hbound : g.nameCount ≤ bound)
    (hpush : g.Seen (seen ++ [name])) (hname : name ∉ seen) (hm : g.Mentions name symbols) :
    g.prepareNames (bound - seen.length) (name :: stack) (g.flattened seen) =
      g.prepareNames (bound - (seen ++ [name]).length) (symbols.reverse ++ stack)
        (g.flattened (seen ++ [name])) := by
  obtain ⟨rules,hr,hm⟩ := mentions_iff.mp hm
  have hroom : bound - seen.length = bound - (seen ++ [name]).length + 1 := by
    have hle := hpush.length_le
    rw [List.length_append,List.length_singleton] at hle ⊢
    omega
  rw [hroom,prepareNames,if_neg (mt contains_flattened.mp hname)]
  simp only [hr,hm,flattened_push hr]

/-- The loop does what the walk over the names on top of the stack does, and goes on with the rest
of the stack. `bound` is room enough for all names. -/
theorem prepareNames_walk {bound : Nat} (hbound : g.nameCount ≤ bound) (h : g.Walk seen names r)
    (hs : g.Seen seen) (stack : List String) :
    g.prepareNames (bound - seen.length) (names ++ stack) (g.flattened seen) =
      r.bind fun seen' => g.prepareNames (bound - seen'.length) stack (g.flattened seen') := by
  induction h generalizing stack with
  | done => rfl
  | skip hname _ ih =>
    rw [List.cons_append,prepareNames,if_pos (contains_flattened.mpr hname)]
    exact ih hs stack
  | fail hname he => exact prepareNames_fail (mt contains_flattened.mp hname) he
  | @visit seen middle name names symbols r hname hm hbelow _ ihbelow ih =>
    have hpush := hs.push hname hm
    obtain ⟨hs',-⟩ := hbelow.grows hpush middle rfl
    rw [List.cons_append,prepareNames_visit hbound hpush hname hm,ihbelow hpush]
    exact ih hs' stack
  | broken hname hm _ ih =>
    have hpush := hs.push hname hm
    rw [List.cons_append,prepareNames_visit hbound hpush hname hm,ih hpush]
    rfl

theorem prepareNames_of_walk {root : String} (h : g.Walk [] [root] r) {room : Nat}
    (hroom : g.nameCount ≤ room) :
    g.prepareNames room [root] .empty = r.map g.flattened := by
  have hloop := prepareNames_walk hroom h .nil []
  rw [List.append_nil] at hloop
  refine hloop.trans ?_
  cases r with
  | error e => rfl
  | ok names => simp [Except.bind,Except.map,prepareNames]

theorem resolve_flattened (hs : g.Seen seen) (hname : name ∈ seen) :
    (g.flattened seen).resolve name = g.resolve name := by
  obtain ⟨rules,hget,hr⟩ := get?_flattened hs hname
  rw [hr,resolve,hget]
  rfl

/-- There is nothing left to prepare: the walk through the prepared grammar is the same. -/
theorem prepareFrom_flattened {root : String} (h : g.Walk [] [root] (.ok names)) :
    (g.flattened names).prepareFrom root = .ok (g.flattened names) := by
  obtain ⟨hs,-⟩ := h.grows .nil names rfl
  have heq : ∀ name ∈ names, (g.flattened names).resolve name = g.resolve name :=
    fun name hname => resolve_flattened hs hname
  have hflattened : (g.flattened names).flattened names = g.flattened names := by
    rw [flattened,flattened,Grammar.mk.injEq]
    refine ⟨List.map_congr_left fun name hname => ?_,rfl⟩
    rw [← flattened,heq name hname]
  exact (prepareNames_of_walk (h.congr .nil names rfl heq) le_rfl).trans
    (congrArg Except.ok hflattened)

open PhraseGrammar.Graph Relation

theorem names_prepareFrom {G : Graph} (h : Graph.build g false = .ok G) {root : String}
    {r : GroupId} (hroot : G.idOf? root = some r) : ∃ p, g.prepareFrom root = .ok p ∧
      ∀ name, name ∈ p.names ↔
        ∃ id, (G.reachableFrom r)[id]? = some true ∧ (G.group id).name = name := by
  have hG := (reached_of_build h).wellFormed
  obtain ⟨hr,hname⟩ := getElem?_names.mp (getElem?_names_of_idOf? hroot)
  have hmem : root ∈ namesFrom G r :=
    List.mem_map.mpr ⟨r,(mem_reachedFrom hG hr).mpr .refl,hname⟩
  obtain ⟨p,hp,hprepares,hrootp⟩ := prepareFrom_prepares (closed_namesFrom_of_build h hr) hmem
  refine ⟨p,hp,fun name => ?_⟩
  constructor
  · intro hname
    obtain ⟨id,hid,rfl⟩ := List.mem_map.mp (hprepares.known name (.inl hname))
    have hid := (mem_reachedFrom hG hr).mp hid
    exact ⟨id,getElem?_reachableFrom.mpr ⟨hG.lt_size_of_reflTransGen hr hid,hid⟩,rfl⟩
  · rintro ⟨id,hid,rfl⟩
    obtain ⟨hlt,hid⟩ := getElem?_reachableFrom.mp hid
    obtain ⟨P,hP,-,hnames⟩ := hprepares.build
    have hR := hprepares.bisimulation h hP hnames
    obtain ⟨r',hr'⟩ := List.mem_iff_getElem?.mp ((hnames root).mpr hrootp)
    have hrr : SameName P G r' r := ⟨root,hr',getElem?_names_of_idOf? hroot⟩
    obtain ⟨i,-,other,hi,hid⟩ :=
      hR.symm.simulation.exists_reflTransGen hG (reached_of_build hP).wellFormed hrr hid
    obtain ⟨-,rfl⟩ := getElem?_names.mp hid
    exact (hnames _).mp (List.mem_of_getElem? hi)

/-- Preparation is the walk from its root. The walk ends, with the names in the order of the
prepared grammar or with the same error, and room for more names would change nothing. A prepared
grammar has for each name the rules it stood for; prepared again, it is the same. -/
theorem prepareFrom_walks (g : Grammar) (root : String) :
    (∀ r, g.Walk [] [root] r ↔ (g.prepareFrom root).map Grammar.names = r) ∧
    (∀ room, g.nameCount ≤ room → g.prepareNames room [root] .empty = g.prepareFrom root) ∧
    (∀ p, g.prepareFrom root = .ok p → p.names.Nodup ∧ p.includes = [] ∧
      (∀ name ∈ p.names, ∃ rules,
        p.get? name = some (.flat rules) ∧ g.resolve name = .ok rules) ∧
      p.prepareFrom root = .ok p) ∧
    ∀ G r, Graph.build g false = .ok G → G.idOf? root = some r → ∃ p,
      g.prepareFrom root = .ok p ∧ ∀ name, name ∈ p.names ↔
        ∃ id, (G.reachableFrom r)[id]? = some true ∧ (G.group id).name = name := by
  have hwalk {r : Except Error (List String)} (h : g.Walk [] [root] r) :
      g.prepareFrom root = r.map g.flattened := prepareNames_of_walk h le_rfl
  have hresult {r : Except Error (List String)} (h : g.Walk [] [root] r) :
      (g.prepareFrom root).map Grammar.names = r := by
    rw [hwalk h]
    cases r with
    | error e => rfl
    | ok names => exact congrArg Except.ok (names_flattened g names)
  obtain ⟨r,h⟩ := exists_walk (g:=g) .nil [root]
  refine ⟨fun r' => ⟨hresult,?_⟩,?_,?_,fun G r hG hroot => names_prepareFrom hG hroot⟩
  · rintro rfl
    exact hresult h ▸ h
  · exact fun room hroom => (prepareNames_of_walk h hroom).trans (hwalk h).symm
  · intro p hp
    have hp' := hwalk h
    rw [hp] at hp'
    cases r with
    | error e => cases hp'
    | ok names =>
      obtain rfl := Except.ok.inj hp'
      obtain ⟨hs,-⟩ := h.grows .nil names rfl
      refine ⟨by simpa using hs.nodup,rfl,fun name hname => ?_,prepareFrom_flattened h⟩
      exact get?_flattened hs (by simpa using hname)

/-- Its names lead back to where they come from, but one that nothing leads to. -/
def roundabout : Grammar :=
  ⟨[("origin",.flat ["#a# #b#","#Pronomdef_cat_fem#"]),("a",.flat ["#b#"]),
    ("b",.flat ["#origin#","x"]),("cat",.gendered ⟨none,some ["souris #a#"],none⟩),
    ("lost",.flat ["#a#"])],[]⟩

/-- Of the two names that fail, the one mentioned last is visited first. -/
def blockage : Grammar := ⟨[("origin",.flat ["#gone# #odd#"]),("odd",.flat ["x","#y","#"])],[]⟩

theorem prepareFrom_walks_roundabout :
    (roundabout.prepareFrom "origin").map Grammar.names =
      .ok ["origin","Pronomdef_cat_fem","a","b"] ∧
    (blockage.prepareFrom "origin").map Grammar.names = .error (.unbalancedDelimiters "#y") ∧
    ∃ p G, roundabout.prepareFrom "origin" = .ok p ∧ p.prepareFrom "origin" = .ok p ∧
      Graph.build roundabout false = .ok G ∧ G.idOf? "origin" = some 0 ∧
      ∀ name, name ∈ ["origin","Pronomdef_cat_fem","a","b"] ↔
        ∃ id, (G.reachableFrom 0)[id]? = some true ∧ (G.group id).name = name := by
  have horigin : roundabout.Mentions "origin" ["a","b","Pronomdef_cat_fem"] :=
    mentions_iff.mpr ⟨["#a# #b#","#Pronomdef_cat_fem#"],by decide +kernel,by decide +kernel⟩
  have hcat : roundabout.Mentions "Pronomdef_cat_fem" ["a"] :=
    mentions_iff.mpr ⟨["La souris #a#"],by decide +kernel,by decide +kernel⟩
  have ha : roundabout.Mentions "a" ["b"] :=
    mentions_iff.mpr ⟨["#b#"],by decide +kernel,by decide +kernel⟩
  have hb : roundabout.Mentions "b" ["origin"] :=
    mentions_iff.mpr ⟨["#origin#","x"],by decide +kernel,by decide +kernel⟩
  have hblockage : blockage.Mentions "origin" ["gone","odd"] :=
    mentions_iff.mpr ⟨["#gone# #odd#"],by decide +kernel,by decide +kernel⟩
  have hodd : blockage.Fails "odd" (.unbalancedDelimiters "#y") := by
    have hresolve : blockage.resolve "odd" = .ok (["x"] ++ "#y" :: ["#"]) := by decide +kernel
    exact .unbalanced hresolve (by decide +kernel) (by decide +kernel)
  obtain ⟨hwalk,-,hprepared,hbuilt⟩ := prepareFrom_walks roundabout "origin"
  have hnames := (hwalk (.ok ["origin","Pronomdef_cat_fem","a","b"])).mp <|
    .visit (by decide) horigin
      (.visit (by decide) hcat
        (.visit (by decide) ha
          (.visit (by decide) hb (.skip (by decide) .done) .done) .done)
        (.skip (by decide) (.skip (by decide) .done)))
      .done
  refine ⟨hnames,((prepareFrom_walks blockage "origin").1 _).mp
    (.broken (by decide) hblockage (.fail (by decide) hodd)),?_⟩
  have hid : (Graph.build roundabout false).map (·.idOf? "origin") = .ok (some 0) := by
    decide +kernel
  cases hG : Graph.build roundabout false with
  | error e => simp [hG,Except.map] at hid
  | ok G =>
    rw [hG] at hid
    have hid : G.idOf? "origin" = some 0 := Except.ok.inj hid
    obtain ⟨p,hp,hmem⟩ := hbuilt G 0 hG hid
    rw [hp] at hnames
    rw [Except.ok.inj hnames] at hmem
    exact ⟨p,G,hp,(hprepared p hp).2.2.2,rfl,hid,hmem⟩

end Grammar

end PhraseGrammar
