import PhraseGrammar.Proofs.Bisimulation
import PhraseGrammar.Proofs.Graph.Recursive

/-! What can be told of a symbol depends on the rules of the names that it leads to, and on nothing
else in the graph: not on the order of declarations, the positions that groups get from it, failed
calls, or other groups. Even the two walks that go by positions, for cycles and for counts, give the
same answers. -/
namespace PhraseGrammar
namespace Graph

variable {N : Set String} {g h : Graph}

/-- Each name of the set has the same rules as written in both graphs, and these mention only names
of the set. -/
structure AgreeOn (N : Set String) (g h : Graph) : Prop where
  shared : ∀ name ∈ N, ∃ i j, g.idOf? name = some i ∧ h.idOf? name = some j ∧
    (g.group i).resolved = true ∧ (h.group j).resolved = true ∧
    (g.group i).sources = (h.group j).sources
  closed : ∀ name ∈ N, ∀ i, g.idOf? name = some i →
    ∀ rule ∈ (g.group i).rules, ∀ symbol ∈ rule.template.symbols, symbol ∈ N

theorem AgreeOn.bisimulation (hN : AgreeOn N g h) (hg : g.WellFormed) (hh : h.WellFormed) :
    Bisimulation g h (SharesName N g h) := by
  refine bisimulation_on_sources hg hh ?_ ?_
  · rintro i j ⟨name,hname,hi,hj⟩
    obtain ⟨i',j',hi',hj',-,-,hsources⟩ := hN.shared name hname
    have hii : i = i' := Option.some.inj ((hg.idOf?_eq_some.mpr hi).symm.trans hi')
    have hjj : j = j' := Option.some.inj ((hh.idOf?_eq_some.mpr hj).symm.trans hj')
    rw [hii,hjj,hsources]
  · rintro i j ⟨name,hname,hi,-⟩
    exact hN.closed name hname i (hg.idOf?_eq_some.mpr hi)

theorem Bisimulation.recursiveGroups_eq {R : GroupId → GroupId → Prop} (hR : Bisimulation g h R)
    (hg : g.WellFormed) (hh : h.WellFormed) {i j : GroupId} (hi : i < g.size) (hj : j < h.size)
    (hij : R i j) :
    ∃ flag, g.recursiveGroups[i]? = some flag ∧ h.recursiveGroups[j]? = some flag := by
  obtain ⟨flag,hflag⟩ := exists_flag hi
  obtain ⟨flag',hflag'⟩ := exists_flag hj
  have he : flag = true ↔ flag' = true := by
    rw [← Option.some_inj,← hflag,getElem?_recursiveGroups,hR.transGen_iff hg hh hij,
      ← getElem?_recursiveGroups,hflag',Option.some_inj]
  exact ⟨flag,hflag,Bool.eq_iff_iff.mpr he ▸ hflag'⟩

/-- Two graphs that agree on names, whatever else they hold and however they were made, cannot be
told apart from these names: not by the texts, errors and questions of an expansion, not by
enumerations, not by the marks of recursive groups, and off cycles not by the counts. -/
theorem answers_local (hg : g.Reached) (hh : h.Reached) (hN : AgreeOn N g h) {symbol : String}
    (hsymbol : symbol ∈ N) :
    (∀ {σ : Type} (strategy : Strategy σ) (limit : Option Nat) (levels : Nat) (s : σ),
      g.expand limit levels strategy.recording symbol (s,[]) =
        h.expand limit levels strategy.recording symbol (s,[])) ∧
    (∀ (limit : Option Nat) (levels cap : Nat),
      g.enumerate limit levels symbol cap = h.enumerate limit levels symbol cap) ∧
    ∃ i j, g.idOf? symbol = some i ∧ h.idOf? symbol = some j ∧
      (∃ flag, g.recursiveGroups[i]? = some flag ∧ h.recursiveGroups[j]? = some flag) ∧
      (g.CycleFree i ↔ h.CycleFree j) ∧
      (g.CycleFree i → g.tally.total i = h.tally.total j ∧
        g.tally.counts i = h.tally.counts j) := by
  have hgwf := hg.wellFormed
  have hhwf := hh.wellFormed
  have hR := hN.bisimulation hgwf hhwf
  obtain ⟨i,j,hi,hj,-,-,-⟩ := hN.shared symbol hsymbol
  have hi' := getElem?_names_of_idOf? hi
  have hj' := getElem?_names_of_idOf? hj
  have hij : SharesName N g h i j := ⟨symbol,hsymbol,hi',hj'⟩
  have hlti := lt_size_of_getElem?_names hi'
  have hltj := lt_size_of_getElem?_names hj'
  refine ⟨?_,?_,i,j,hi,hj,hR.recursiveGroups_eq hgwf hhwf hlti hltj hij,
    hR.cycleFree_iff hgwf hhwf hij,fun hfree => ⟨?_,?_⟩⟩
  · intro σ strategy limit levels s
    rw [expand,expand,hi,hj]
    exact hR.expandGroup_eq strategy.recording hij levels 0 (s,[])
  · intro limit levels cap
    rw [enumerate,enumerate,hi,hj]
    exact hR.enumerateGroup_eq hij levels 0 cap
  · exact hR.total_tally_eq hgwf hhwf hlti hltj hij hfree
  · exact hR.counts_tally_eq hgwf hhwf hlti hltj hij hfree

/-- The groups of `loopAndPair` in another order, among others that mention them, after a failed
declaration that moves every position. -/
def loopAmongOthers : Graph :=
  (((((empty.declare "word" ["#ghost#","#"]).2.declare "word" ["sun","moon"]).2.declare "loud"
    ["#loop#","#word.capitalize#"]).2.declare "pair"
    ["#word# #word.capitalize#","nothing"]).2.declare "loop" ["#loop#!","#pair#"]).2

theorem answers_local_loopAmongOthers :
    loopAndPair.Reached ∧ loopAmongOthers.Reached ∧
    AgreeOn {"loop","pair","word"} loopAndPair loopAmongOthers ∧
    loopAndPair.enumerate (some 2) 9 "loop" 4 = loopAmongOthers.enumerate (some 2) 9 "loop" 4 ∧
    loopAndPair.recursiveGroups[0]? = loopAmongOthers.recursiveGroups[3]? ∧
    loopAndPair.tally.counts 1 = loopAmongOthers.tally.counts 4 := by
  have hg : loopAndPair.Reached := ((Reached.empty.declare _ _).declare _ _).declare _ _
  have hh : loopAmongOthers.Reached :=
    ((((Reached.empty.declare _ _).declare _ _).declare _ _).declare _ _).declare _ _
  have hloop : loopAndPair.idOf? "loop" = some 0 ∧ loopAmongOthers.idOf? "loop" = some 3 := by
    decide +kernel
  have hpair : loopAndPair.idOf? "pair" = some 1 ∧ loopAmongOthers.idOf? "pair" = some 4 := by
    decide +kernel
  have hword : loopAndPair.idOf? "word" = some 2 ∧ loopAmongOthers.idOf? "word" = some 0 := by
    decide +kernel
  have hclosed : ∀ i < loopAndPair.size, ∀ rule ∈ (loopAndPair.group i).rules,
      ∀ symbol ∈ rule.template.symbols, symbol ∈ ["loop","pair","word"] := by
    decide +kernel
  have hN : AgreeOn {"loop","pair","word"} loopAndPair loopAmongOthers := by
    constructor
    · rintro name (rfl | rfl | rfl)
      · exact ⟨0,3,hloop.1,hloop.2,by decide +kernel⟩
      · exact ⟨1,4,hpair.1,hpair.2,by decide +kernel⟩
      · exact ⟨2,0,hword.1,hword.2,by decide +kernel⟩
    · intro name _ i hi rule hrule symbol hsymbol
      have hlt := lt_size_of_getElem?_names (getElem?_names_of_idOf? hi)
      simpa using hclosed i hlt rule hrule symbol hsymbol
  have hmem : "loop" ∈ ({"loop","pair","word"} : Set String) := by simp
  have hmem' : "pair" ∈ ({"loop","pair","word"} : Set String) := by simp
  obtain ⟨-,henumerate,i,j,hi,hj,⟨flag,hflag,hflag'⟩,-⟩ := answers_local hg hh hN hmem
  obtain rfl := Option.some.inj (hloop.1.symm.trans hi)
  obtain rfl := Option.some.inj (hloop.2.symm.trans hj)
  obtain ⟨-,-,i,j,hi,hj,-,-,hcounts⟩ := answers_local hg hh hN hmem'
  obtain rfl := Option.some.inj (hpair.1.symm.trans hi)
  obtain rfl := Option.some.inj (hpair.2.symm.trans hj)
  have hfree : loopAndPair.CycleFree 1 :=
    cycleFree_of_increasing [1,2] (by decide) (by decide +kernel)
  exact ⟨hg,hh,hN,henumerate (some 2) 9 4,hflag.trans hflag'.symm,(hcounts hfree).2⟩

end Graph

end PhraseGrammar
