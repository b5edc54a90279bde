import PhraseGrammar.Proofs.Bisimulation
import PhraseGrammar.Proofs.Graph.Build

/-! Preparation keeps what a grammar means. It ends with a grammar of flat groups that is closed
under mentions, and the graph of that grammar has the same groups, up to their positions, as the
part of the original graph that the root leads to. -/
namespace PhraseGrammar
namespace Grammar

theorem length_le_nameCount {g : Grammar} {names : List String} (hn : names.Nodup)
    (hr : ∀ name ∈ names, ∃ rules, g.resolve name = .ok rules) : names.length ≤ g.nameCount := by
  have hsub : names ⊆ g.names.flatMap answers := by
    intro name hname
    obtain ⟨rules,hrules⟩ := hr name hname
    exact List.mem_flatMap.mpr (exists_answers_of_resolve hrules)
  have hlen : (g.names.flatMap answers).length = g.nameCount := by
    simp [List.length_flatMap,length_answers,nameCount,Grammar.names,Function.comp_def,Nat.mul_comm]
  exact hlen ▸ (hn.subperm hsub).length_le

/-- The names have balanced rules that mention only names among them. -/
def Closed (g : Grammar) (known : List String) : Prop :=
  ∀ name ∈ known, ∃ rules symbols, g.resolve name = .ok rules ∧ mentions rules = .ok symbols ∧
    ∀ symbol ∈ symbols, symbol ∈ known

/-- What holds while names are taken off the stack: what a prepared group mentions is prepared or
waits on the stack. -/
structure Prepares (g : Grammar) (known : List String) (prepared : Grammar)
    (stack : List String) : Prop where
  nodup : prepared.names.Nodup
  known : ∀ name, name ∈ prepared.names ∨ name ∈ stack → name ∈ known
  flat : ∀ key ∈ prepared.groups, ∃ rules, key.2 = .flat rules ∧ g.resolve key.1 = .ok rules
  closed : ∀ key ∈ prepared.groups, ∃ symbols, mentions key.2.all = .ok symbols ∧
    ∀ symbol ∈ symbols, symbol ∈ prepared.names ∨ symbol ∈ stack

namespace Prepares

variable {g prepared : Grammar} {known stack : List String} {name : String}

theorem skip (h : g.Prepares known prepared (name :: stack)) (hname : name ∈ prepared.names) :
    g.Prepares known prepared stack where
  nodup := h.nodup
  known other ho := h.known other (ho.imp_right (List.mem_cons_of_mem _))
  flat := h.flat
  closed key hkey := by
    obtain ⟨symbols,hm,hs⟩ := h.closed key hkey
    refine ⟨symbols,hm,fun symbol hsymbol => ?_⟩
    rcases hs symbol hsymbol with hp | hst
    · exact .inl hp
    · rcases List.mem_cons.mp hst with rfl | hst
      · exact .inl hname
      · exact .inr hst

theorem push (h : g.Prepares known prepared (name :: stack)) (hname : name ∉ prepared.names)
    {rules symbols : List String} (hr : g.resolve name = .ok rules)
    (hm : mentions rules = .ok symbols) (hknown : ∀ symbol ∈ symbols, symbol ∈ known) :
    g.Prepares known (prepared.push name (.flat rules)) (symbols.reverse ++ stack) := by
  constructor
  · rw [names_push]
    refine List.nodup_append.mpr ⟨h.nodup,by simp,fun a ha b hb he => ?_⟩
    obtain rfl : b = name := by simpa using hb
    exact hname (he ▸ ha)
  · intro other ho
    simp only [names_push,List.mem_append,List.mem_singleton,List.mem_reverse] at ho
    rcases ho with (hp | rfl) | hs | hst
    · exact h.known other (.inl hp)
    · exact h.known other (.inr List.mem_cons_self)
    · exact hknown other hs
    · exact h.known other (.inr (List.mem_cons_of_mem _ hst))
  · intro key hkey
    rcases List.mem_append.mp hkey with hkey | hkey
    · exact h.flat key hkey
    · obtain rfl := List.mem_singleton.mp hkey
      exact ⟨rules,rfl,hr⟩
  · intro key hkey
    rcases List.mem_append.mp hkey with hkey | hkey
    · obtain ⟨symbols',hm',hs'⟩ := h.closed key hkey
      refine ⟨symbols',hm',fun symbol hsymbol => ?_⟩
      simp only [names_push,List.mem_append,List.mem_singleton]
      rcases hs' symbol hsymbol with hp | hst
      · exact .inl (.inl hp)
      · rcases List.mem_cons.mp hst with rfl | hst
        · exact .inl (.inr rfl)
        · exact .inr (.inr hst)
    · obtain rfl := List.mem_singleton.mp hkey
      exact ⟨symbols,hm,fun symbol hsymbol => .inr (by simp [hsymbol])⟩

theorem resolves (h : g.Prepares known prepared stack) (hname : name ∈ prepared.names) :
    ∃ rules, g.resolve name = .ok rules := by
  obtain ⟨key,hkey,rfl⟩ := List.mem_map.mp hname
  obtain ⟨rules,-,hr⟩ := h.flat key hkey
  exact ⟨rules,hr⟩

theorem room_pos (h : g.Prepares known prepared stack) {room : Nat}
    (hroom : prepared.names.length + room = g.nameCount) (hname : name ∉ prepared.names)
    {rules : List String} (hr : g.resolve name = .ok rules) : room ≠ 0 := by
  have hnodup : (name :: prepared.names).Nodup := List.nodup_cons.mpr ⟨hname,h.nodup⟩
  have hle := length_le_nameCount hnodup (List.forall_mem_cons.mpr
    ⟨⟨rules,hr⟩,fun _ hother => h.resolves hother⟩)
  rw [List.length_cons] at hle
  omega

end Prepares

theorem prepareNames_prepares {g : Grammar} {known : List String} (hclosed : g.Closed known)
    {room : Nat} {stack : List String} {prepared : Grammar}
    (h : g.Prepares known prepared stack)
    (hroom : prepared.names.length + room = g.nameCount) :
    ∃ p, g.prepareNames room stack prepared = .ok p ∧ g.Prepares known p [] ∧
      ∀ name, name ∈ prepared.names ∨ name ∈ stack → name ∈ p.names := by
  fun_induction prepareNames g room stack prepared with
  | case1 room prepared => exact ⟨prepared,rfl,h,fun name hname => by simpa using hname⟩
  | case2 room prepared name stack hcontains ih =>
    have hname : name ∈ prepared.names := List.contains_iff_mem.mp hcontains
    obtain ⟨p,hp,hprepares,hmem⟩ := ih (h.skip hname) hroom
    refine ⟨p,hp,hprepares,fun other ho => ?_⟩
    rcases ho with ho | ho
    · exact hmem other (.inl ho)
    · rcases List.mem_cons.mp ho with rfl | ho
      · exact hmem other (.inl hname)
      · exact hmem other (.inr ho)
  | case3 room prepared name stack hcontains e he =>
    obtain ⟨rules,_,hr,-,-⟩ := hclosed name (h.known name (.inr List.mem_cons_self))
    rw [hr] at he
    cases he
  | case4 room prepared name stack hcontains rules hrules e he =>
    obtain ⟨rules',symbols,hr,hm,-⟩ := hclosed name (h.known name (.inr List.mem_cons_self))
    obtain rfl := Except.ok.inj (hrules.symm.trans hr)
    rw [hm] at he
    cases he
  | case5 prepared name stack hcontains rules hrules symbols hm =>
    have hname : name ∉ prepared.names := fun hn => hcontains (List.contains_iff_mem.mpr hn)
    exact absurd rfl (h.room_pos hroom hname hrules)
  | case6 prepared name stack hcontains rules hrules symbols hm room ih =>
    have hname : name ∉ prepared.names := fun hn => hcontains (List.contains_iff_mem.mpr hn)
    obtain ⟨rules',symbols',hr,hm',hknown⟩ :=
      hclosed name (h.known name (.inr List.mem_cons_self))
    obtain rfl := Except.ok.inj (hrules.symm.trans hr)
    obtain rfl := Except.ok.inj (hm.symm.trans hm')
    obtain ⟨p,hp,hprepares,hmem⟩ := ih (h.push hname hr hm hknown) (by
      rw [names_push,List.length_append,List.length_singleton]
      omega)
    refine ⟨p,hp,hprepares,fun other ho => ?_⟩
    simp only [names_push,List.mem_append,List.mem_singleton,List.mem_reverse] at hmem
    rcases ho with ho | ho
    · exact hmem other (.inl (.inl ho))
    · rcases List.mem_cons.mp ho with rfl | ho
      · exact hmem other (.inl (.inr rfl))
      · exact hmem other (.inr (.inr ho))

/-- Preparation from a name that is known to have rules, all the way down, never fails. -/
theorem prepareFrom_prepares {g : Grammar} {known : List String} (hclosed : g.Closed known)
    {root : String} (hroot : root ∈ known) :
    ∃ p, g.prepareFrom root = .ok p ∧ g.Prepares known p [] ∧ root ∈ p.names := by
  have hstart : g.Prepares known .empty [root] := by
    constructor
    · exact .nil
    · intro name hname
      obtain rfl : name = root := by simpa [empty,names] using hname
      exact hroot
    · simp [empty]
    · simp [empty]
  obtain ⟨p,hp,hprepares,hmem⟩ := prepareNames_prepares hclosed hstart (Nat.zero_add _)
  exact ⟨p,hp,hprepares,hmem root (.inr List.mem_cons_self)⟩

open PhraseGrammar.Graph

variable {g p : Grammar} {G P : Graph}

theorem resolves_of_build (h : Graph.build g false = .ok G) {id : GroupId} (hlt : id < G.size) :
    ∃ rules symbols, g.resolve (G.group id).name = .ok rules ∧ mentions rules = .ok symbols ∧
      ∀ symbol ∈ symbols, ∃ other, G.DependsOn id other ∧ G.names[other]? = some symbol := by
  have hG := (reached_of_build h).wellFormed
  obtain ⟨rules,hr,hsources⟩ := sources_of_build h hlt
  rw [arrange_false] at hsources
  subst hsources
  refine ⟨_,_,hr,mentions_sources (hG.fits id),fun symbol hsymbol => ?_⟩
  obtain ⟨rule,hrule,hs⟩ := List.mem_flatMap.mp hsymbol
  obtain ⟨other,hother,hname⟩ := forall₂_exists (hG.fits id rule hrule).references.flip hs
  exact ⟨other,hG.dependsOn_of_mem hrule hother,hname⟩

theorem closed_names_of_build (h : Graph.build g false = .ok G) : g.Closed G.names := by
  intro name hname
  obtain ⟨id,hid⟩ := List.mem_iff_getElem?.mp hname
  obtain ⟨hlt,rfl⟩ := getElem?_names.mp hid
  obtain ⟨rules,symbols,hr,hm,hs⟩ := resolves_of_build h hlt
  refine ⟨rules,symbols,hr,hm,fun symbol hsymbol => ?_⟩
  obtain ⟨other,-,hname⟩ := hs symbol hsymbol
  exact List.mem_of_getElem? hname

theorem Prepares.resolve_eq {known : List String} (h : g.Prepares known p []) {name : String}
    (hname : name ∈ p.names) : p.resolve name = g.resolve name := by
  obtain ⟨⟨_,grouped⟩,hkey,rfl⟩ := List.mem_map.mp hname
  obtain ⟨rules,rfl,hr⟩ := h.flat _ hkey
  rw [hr,resolve,get?_of_mem h.nodup hkey]
  rfl

theorem Prepares.build {known : List String} (h : g.Prepares known p []) :
    ∃ P, Graph.build p false = .ok P ∧ (∀ id, (P.group id).derived = false) ∧
      ∀ name, name ∈ P.names ↔ name ∈ p.names := by
  refine build_of_closed h.nodup fun key hkey => ?_
  obtain ⟨symbols,hm,hs⟩ := h.closed key hkey
  exact ⟨symbols,hm,fun symbol hsymbol => by simpa using hs symbol hsymbol⟩

/-- Both graphs take the rules of a name from the original grammar. -/
theorem Prepares.bisimulation {known : List String} (h : g.Prepares known p [])
    (hG : Graph.build g false = .ok G) (hP : Graph.build p false = .ok P)
    (hnames : ∀ name, name ∈ P.names ↔ name ∈ p.names) :
    Bisimulation P G (SameName P G) := by
  refine bisimulation_of_sources (reached_of_build hP).wellFormed
    (reached_of_build hG).wellFormed ?_
  rintro i j ⟨name,hi,hj⟩
  obtain ⟨hlti,hnamei⟩ := getElem?_names.mp hi
  obtain ⟨hltj,hnamej⟩ := getElem?_names.mp hj
  obtain ⟨rules,hr,hsources⟩ := sources_of_build hP hlti
  obtain ⟨rules',hr',hsources'⟩ := sources_of_build hG hltj
  rw [hnamei,h.resolve_eq ((hnames name).mp (List.mem_of_getElem? hi)),← hnamej,hr'] at hr
  rw [hsources,hsources',Except.ok.inj hr]

/-- From any group of a built graph, preparation succeeds, its result builds without derived
groups, and expansion, enumeration and the counts off cycles stay what they were. -/
theorem prepareFrom_preserves (h : Graph.build g false = .ok G) {root : String}
    (hroot : root ∈ G.names) : ∃ p P,
      g.prepareFrom root = .ok p ∧ Graph.build p false = .ok P ∧
      (∀ group ∈ P.groups, group.derived = false) ∧
      (∀ {σ : Type} (strategy : Strategy σ) (limit : Option Nat) (levels : Nat) (s : σ),
        P.expand limit levels strategy.recording root (s,[]) =
          G.expand limit levels strategy.recording root (s,[])) ∧
      (∀ (limit : Option Nat) (levels cap : Nat),
        P.enumerate limit levels root cap = G.enumerate limit levels root cap) ∧
      ∀ name ∈ p.names, ∃ i j, P.idOf? name = some i ∧ G.idOf? name = some j ∧
        (P.CycleFree i ↔ G.CycleFree j) ∧
        (P.CycleFree i → P.tally.total i = G.tally.total j) := by
  have hGwf := (reached_of_build h).wellFormed
  obtain ⟨p,hp,hprepares,hmem⟩ := prepareFrom_prepares (closed_names_of_build h) hroot
  obtain ⟨P,hP,hderived,hnames⟩ := hprepares.build
  have hPwf := (reached_of_build hP).wellFormed
  have hR := hprepares.bisimulation h hP hnames
  have hboth {name : String} (hname : name ∈ p.names) : ∃ i j,
      P.idOf? name = some i ∧ G.idOf? name = some j ∧ SameName P G i j := by
    obtain ⟨i,hi⟩ := List.mem_iff_getElem?.mp ((hnames name).mpr hname)
    obtain ⟨j,hj⟩ := List.mem_iff_getElem?.mp (hprepares.known name (.inl hname))
    exact ⟨i,j,hPwf.idOf?_eq_some.mpr hi,hGwf.idOf?_eq_some.mpr hj,name,hi,hj⟩
  obtain ⟨i,j,hi,hj,hij⟩ := hboth hmem
  refine ⟨p,P,hp,hP,?_,?_,?_,?_⟩
  · intro group hgroup
    obtain ⟨id,-,rfl⟩ := mem_groups.mp hgroup
    exact hderived id
  · intro σ strategy limit levels s
    rw [expand,expand,hi,hj]
    exact hR.expandGroup_eq strategy.recording hij levels 0 (s,[])
  · intro limit levels cap
    rw [enumerate,enumerate,hi,hj]
    exact hR.enumerateGroup_eq hij levels 0 cap
  · intro name hname
    obtain ⟨i,j,hi,hj,hij⟩ := hboth hname
    have hlti := lt_size_of_getElem?_names (getElem?_names_of_idOf? hi)
    have hltj := lt_size_of_getElem?_names (getElem?_names_of_idOf? hj)
    exact ⟨i,j,hi,hj,hR.cycleFree_iff hPwf hGwf hij,hR.total_tally_eq hPwf hGwf hlti hltj hij⟩

/-- Two of its names ask for a gender, and two of its groups are not reached from the origin. -/
def menagerie : Grammar :=
  ⟨[("origin",.flat ["#Pronomdef_animal_fem# et #animal_masc#"]),("unused",.flat ["#unused#"]),
    ("animal",.gendered ⟨some ["chat"],some ["souris"],some ["aigle"]⟩)],[]⟩

theorem prepareFrom_preserves_menagerie : ∃ G p P,
    Graph.build menagerie false = .ok G ∧ "origin" ∈ G.names ∧
    menagerie.prepareFrom "origin" = .ok p ∧ Graph.build p false = .ok P ∧
    (∀ group ∈ P.groups, group.derived = false) ∧
    P.enumerate none 2 "origin" 3 =
      .done ["La souris et chat","La souris et aigle","L'aigle et chat"] := by
  have hbuilt : (Graph.build menagerie false).map
      (fun G => (G.names.contains "origin",G.enumerate none 2 "origin" 3)) =
      .ok (true,.done ["La souris et chat","La souris et aigle","L'aigle et chat"]) := by
    decide +kernel
  cases hG : Graph.build menagerie false with
  | error e => simp [hG,Except.map] at hbuilt
  | ok G =>
    simp only [hG,Except.map,Except.ok.injEq,Prod.mk.injEq,List.contains_iff_mem] at hbuilt
    obtain ⟨p,P,hp,hP,hderived,-,henumerate,-⟩ := prepareFrom_preserves hG hbuilt.1
    exact ⟨G,p,P,rfl,hbuilt.1,hp,hP,hderived,(henumerate none 2 3).trans hbuilt.2⟩

end Grammar

end PhraseGrammar
