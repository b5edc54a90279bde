import Mathlib.Data.List.Sort
import Mathlib.Data.String.Basic
import PhraseGrammar.Proofs.Bisimulation
import PhraseGrammar.Proofs.Graph.Buildable

/-! Sorting the rules of each group and dropping repeated ones. Groups get other positions by it,
since these follow the order in which rules mention names; yet no text is lost and none is won, and
off cycles there are at most as many ways to get one. -/
namespace PhraseGrammar

theorem arrange_pairwise (rules : List String) : (arrange true rules).Pairwise (· < ·) := by
  have hsorted : (arrange true rules).Pairwise (· ≤ ·) := List.pairwise_mergeSort' (· ≤ ·) _
  have hnodup : (arrange true rules).Nodup :=
    (List.mergeSort_perm _ _).nodup_iff.mpr (nodup_eraseDups rules)
  exact (hsorted.and hnodup).imp fun h => lt_of_le_of_ne h.1 h.2

namespace Graph

variable {limit : Option Nat} {symbol text : String}

/-- The texts that expansion can give, whoever chooses. -/
def texts (g : Graph) (limit : Option Nat) (symbol : String) : Set String :=
  {text | ∃ (σ : Type) (strategy : Strategy σ) (levels : Nat) (s s' : σ),
    g.expand limit levels strategy symbol s = (.done text,s')}

theorem mem_texts {g : Graph} : text ∈ g.texts limit symbol ↔
    ∃ id, g.idOf? symbol = some id ∧
      ∃ levels script, (script,text) ∈ g.derivations limit levels 0 id := by
  constructor
  · rintro ⟨σ,strategy,levels,s,s',h⟩
    rw [expand] at h
    cases hid : g.idOf? symbol with
    | none => simp [hid] at h
    | some id =>
      simp only [hid] at h
      exact ⟨id,rfl,levels,exists_derivation_of_expandGroup h⟩
  · rintro ⟨id,hid,levels,script,hd⟩
    obtain ⟨levels,h⟩ := yields_iff.mpr ⟨id,hid,levels,hd⟩
    exact ⟨_,.script,levels,_,_,h⟩

theorem Simulation.texts_subset {g h : Graph} (hR : Simulation g h (SameName g h))
    (hg : g.WellFormed) (hh : h.WellFormed) (hnames : g.names ⊆ h.names) :
    g.texts limit symbol ⊆ h.texts limit symbol := by
  intro text htext
  obtain ⟨i,hi,levels,script,hd⟩ := mem_texts.mp htext
  have hi := hg.idOf?_eq_some.mp hi
  obtain ⟨j,hj⟩ := List.mem_iff_getElem?.mp (hnames (List.mem_of_getElem? hi))
  obtain ⟨used,hused⟩ := hR.exists_derivation ⟨symbol,hi,hj⟩ hd
  exact mem_texts.mpr ⟨j,hh.idOf?_eq_some.mpr hj,levels,used,hused⟩

variable {grammar : Grammar} {D P : Graph} {i j : GroupId}

theorem sources_dedup (hD : build grammar true = .ok D) (hP : build grammar false = .ok P)
    (hij : SameName D P i j) : (D.group i).sources = arrange true (P.group j).sources := by
  obtain ⟨name,hi,hj⟩ := hij
  obtain ⟨hlti,hnamei⟩ := getElem?_names.mp hi
  obtain ⟨hltj,hnamej⟩ := getElem?_names.mp hj
  obtain ⟨rules,hr,hsources⟩ := sources_of_build hD hlti
  obtain ⟨rules',hr',hsources'⟩ := sources_of_build hP hltj
  rw [hnamei,← hnamej,hr'] at hr
  rw [hsources,hsources',arrange_false,Except.ok.inj hr]

theorem nodup_sources (hD : build grammar true = .ok D) (i : GroupId) :
    (D.group i).sources.Nodup := by
  by_cases hlt : i < D.size
  · obtain ⟨rules,-,hsources⟩ := sources_of_build hD hlt
    rw [hsources]
    exact (arrange_pairwise rules).imp ne_of_lt
  · rw [group_of_size_le (Nat.le_of_not_lt hlt)]
    exact List.nodup_nil

/-- Sorting rules and dropping repeated ones neither makes a build fail nor saves one. The graph has
the same names, rules and texts, and off cycles its counts are no greater. -/
theorem build_dedup (grammar : Grammar) :
    ((∃ D, build grammar true = .ok D) ↔ ∃ P, build grammar false = .ok P) ∧
    ∀ D P, build grammar true = .ok D → build grammar false = .ok P →
      (∀ name, name ∈ D.names ↔ name ∈ P.names) ∧
      (∀ name i j, D.idOf? name = some i → P.idOf? name = some j →
        (D.group i).sources.Pairwise (· < ·) ∧
        (∀ source, source ∈ (D.group i).sources ↔ source ∈ (P.group j).sources) ∧
        (D.CycleFree i ↔ P.CycleFree j) ∧
        (P.CycleFree j → D.tally.total i ≤ P.tally.total j)) ∧
      ∀ limit symbol, D.texts limit symbol = P.texts limit symbol := by
  refine ⟨build_isOk_iff.trans build_isOk_iff.symm,fun D P hD hP => ?_⟩
  have hDwf := (reached_of_build hD).wellFormed
  have hPwf := (reached_of_build hP).wellFormed
  have hnames (name : String) : name ∈ D.names ↔ name ∈ P.names := by
    rw [mem_names_of_build hD,mem_names_of_build hP]
  have hmem {i j : GroupId} (hij : SameName D P i j) (source : String) :
      source ∈ (D.group i).sources ↔ source ∈ (P.group j).sources := by
    rw [sources_dedup hD hP hij,mem_arrange]
  -- Positions and multiplicities differ, so neither graph is matched rule by rule; each has a like
  -- for every rule of the other, which is enough for texts and for one bound on the counts.
  have hDP : Simulation D P (SameName D P) :=
    simulation_of_sources hDwf hPwf fun i j hij source => (hmem hij source).mp
  have hPD : Simulation P D (SameName P D) :=
    simulation_of_sources hPwf hDwf fun j i ⟨name,hj,hi⟩ source => (hmem ⟨name,hi,hj⟩ source).mpr
  have hu := biUnique_sameName hDwf hPwf
  have hu' := biUnique_sameName hPwf hDwf
  refine ⟨hnames,fun name i j hi hj => ?_,fun limit symbol => ?_⟩
  · have hi' := hDwf.idOf?_eq_some.mp hi
    have hj' := hPwf.idOf?_eq_some.mp hj
    have hij : SameName D P i j := ⟨name,hi',hj'⟩
    have hfree : D.CycleFree i ↔ P.CycleFree j :=
      ⟨hPD.cycleFree hu'.2 hPwf hDwf ⟨name,hj',hi'⟩,hDP.cycleFree hu.2 hDwf hPwf hij⟩
    refine ⟨?_,hmem hij,hfree,fun hj => ?_⟩
    · rw [sources_dedup hD hP hij]
      exact arrange_pairwise _
    · rw [total_tally hDwf (lt_size_of_getElem?_names hi') (hfree.mpr hj),
        total_tally hPwf (lt_size_of_getElem?_names hj') hj]
      exact hDP.ways_le hu.2 hDwf hPwf (nodup_sources hD) hij hj
  · exact Set.Subset.antisymm (hDP.texts_subset hDwf hPwf fun name => (hnames name).mp)
      (hPD.texts_subset hPwf hDwf fun name => (hnames name).mpr)

/-- A determiner puts the rules of this bird into another order, and one of them stands twice. -/
def aviary : Grammar :=
  ⟨[("origin",.flat ["#song#","#pronomdef_bird_fem# chante","#song#"]),
    ("bird",.gendered ⟨none,some ["chouette","oie","oie"],some ["aigle"]⟩),
    ("song",.flat ["tra#song#","la","la"])],[]⟩

theorem build_dedup_aviary : ∃ D P i j, build aviary true = .ok D ∧ build aviary false = .ok P ∧
    D.idOf? "pronomdef_bird_fem" = some i ∧ P.idOf? "pronomdef_bird_fem" = some j ∧
    (D.group i).sources = ["l'aigle","l'oie","la chouette"] ∧
    (P.group j).sources = ["la chouette","l'oie","l'oie","l'aigle"] ∧
    D.tally.total i ≤ P.tally.total j ∧
    D.texts (some 5) "origin" = P.texts (some 5) "origin" := by
  have hplain : (build aviary false).map (fun P => (P.idOf? "pronomdef_bird_fem",
      (P.group 2).sources,(P.group 2).dependencies)) =
      .ok (some 2,["la chouette","l'oie","l'oie","l'aigle"],[]) := by decide +kernel
  have hsorted : ["l'aigle","l'oie","la chouette"].Pairwise (· < ·) := by decide +kernel
  cases hP : build aviary false with
  | error e => simp [hP,Except.map] at hplain
  | ok P =>
    simp only [hP,Except.map,Except.ok.injEq,Prod.mk.injEq] at hplain
    obtain ⟨hj,hsources,hdependencies⟩ := hplain
    obtain ⟨hbuilds,hboth⟩ := build_dedup aviary
    obtain ⟨D,hD⟩ := hbuilds.mpr ⟨P,hP⟩
    obtain ⟨hnames,hgroups,htexts⟩ := hboth D P hD hP
    have hj' := getElem?_names_of_idOf? hj
    obtain ⟨i,hi'⟩ := List.mem_iff_getElem?.mp ((hnames _).mpr (List.mem_of_getElem? hj'))
    have hi := (reached_of_build hD).wellFormed.idOf?_eq_some.mpr hi'
    obtain ⟨hincreasing,hsame,-,hcount⟩ := hgroups _ i 2 hi hj
    have hfree : P.CycleFree 2 := cycleFree_of_increasing [2] (by simp) (by simp [hdependencies])
    refine ⟨D,P,i,2,hD,rfl,hi,hj,?_,hsources,hcount hfree,htexts _ _⟩
    refine hincreasing.eq_of_mem_iff hsorted fun source => ?_
    rw [hsame,hsources]
    simp only [List.mem_cons,List.not_mem_nil]
    tauto

end Graph

end PhraseGrammar
