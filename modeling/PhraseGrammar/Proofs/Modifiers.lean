import Mathlib.Data.Nat.Bitwise
import PhraseGrammar.Proofs.Lists
import PhraseGrammar.Template

/-! Modifiers at the end of a placeholder. Taking them off leaves a symbol that ends with none, and
there is one such symbol only. Capitals have no other capitals, so a modifier that is written many
times does what it does once. -/
namespace PhraseGrammar

namespace Uppercase

def Run.size (r : Run) : Nat := (r.last - r.first) / r.step + 1

/-- The code points that do not map to themselves. -/
def moved : List Nat :=
  expansions.map Prod.fst ++ runs.flatMap fun r => List.range' r.first r.size r.step

/-- What they map to, or the first of the code points that they become. -/
def images : List Nat :=
  expansions.map (fun e => e.2.headD 0) ++ runs.flatMap fun r => List.range' r.image r.size r.step

/-- The number that has these bits, so that long lists are compared at once. -/
def bits (ns : List Nat) : Nat := ns.foldr (fun n b => 2 ^ n ||| b) 0

theorem testBit_bits {ns : List Nat} {n : Nat} : (bits ns).testBit n = true ↔ n ∈ ns := by
  induction ns with
  | nil => simp [bits]
  | cons m ns ih =>
    rw [bits,List.foldr_cons,Nat.testBit_or,← bits,Bool.or_eq_true,ih,List.mem_cons]
    simp [Nat.testBit_two_pow,eq_comm]

theorem notMem_moved {n : Nat} (h : n ∈ images) : n ∉ moved := by
  have hdisjoint : bits images &&& bits moved = 0 := by decide +kernel
  intro hmoved
  have hbit : (bits images &&& bits moved).testBit n = true := by
    rw [Nat.testBit_and,testBit_bits.mpr h,testBit_bits.mpr hmoved,Bool.and_true]
  simp [hdisjoint] at hbit

/-- A run moves equally spaced code points, and its images are spaced in the same way. -/
theorem Run.mem_range' {r : Run} {n : Nat} (h : r.covers n = true) :
    n ∈ List.range' r.first r.size r.step ∧ r.map n ∈ List.range' r.image r.size r.step := by
  simp only [Run.covers,Bool.and_eq_true,decide_eq_true_eq,beq_iff_eq] at h
  obtain ⟨⟨hfirst,hlast⟩,hstep⟩ := h
  have hmul : n - r.first = r.step * ((n - r.first) / r.step) :=
    (Nat.mul_div_cancel' (Nat.dvd_of_mod_eq_zero hstep)).symm
  have hlt : (n - r.first) / r.step < r.size :=
    Nat.lt_succ_of_le (Nat.div_le_div_right (Nat.sub_le_sub_right hlast r.first))
  rw [List.mem_range',List.mem_range']
  exact ⟨⟨_,hlt,by omega⟩,⟨_,hlt,congrArg (r.image + ·) hmul⟩⟩

theorem codes_of_notMem_moved {n : Nat} (h : n ∉ moved) : codes n = [n] := by
  obtain ⟨hexpansions,hruns⟩ := not_or.mp (mt List.mem_append.mpr h)
  have hlookup : expansions.lookup n = none := by
    rw [List.lookup_eq_none_iff]
    intro e he
    refine bne_iff_ne.mpr fun hn => hexpansions ?_
    rw [hn]
    exact List.mem_map_of_mem he
  have hfind : runs.find? (·.covers n) = none := by
    rw [List.find?_eq_none]
    exact fun r hr hc => hruns (List.mem_flatMap.mpr ⟨r,hr,(Run.mem_range' hc).1⟩)
  rw [codes,hlookup,hfind]

theorem codes_stable (n : Nat) : ∃ m ms, codes n = m :: ms ∧ codes m = [m] := by
  have hexpansions : ∀ e ∈ expansions, e.2 ≠ [] := by decide +kernel
  cases hlookup : expansions.lookup n with
  | some ns =>
    obtain ⟨before,after,he,-⟩ := List.lookup_eq_some_iff.mp hlookup
    have hmem : (n,ns) ∈ expansions := he ▸ List.mem_append_right _ List.mem_cons_self
    obtain ⟨m,ms,rfl⟩ := List.exists_cons_of_ne_nil (hexpansions _ hmem)
    have himage : m ∈ images :=
      List.mem_append_left _ (List.mem_map_of_mem (f:=fun e => e.2.headD 0) hmem)
    exact ⟨m,ms,by rw [codes,hlookup],codes_of_notMem_moved (notMem_moved himage)⟩
  | none =>
    cases hfind : runs.find? (·.covers n) with
    | some r =>
      have hcovers : r.covers n = true := List.find?_some (p:=fun r => Run.covers r n) hfind
      have himage : r.map n ∈ images := List.mem_append_right _
        (List.mem_flatMap.mpr ⟨r,List.mem_of_find?_eq_some hfind,(Run.mem_range' hcovers).2⟩)
      exact ⟨r.map n,[],by rw [codes,hlookup,hfind],codes_of_notMem_moved (notMem_moved himage)⟩
    | none =>
      have hcodes : codes n = [n] := by rw [codes,hlookup,hfind]
      exact ⟨n,[],hcodes,hcodes⟩

end Uppercase

theorem upper_stable (c : Char) : ∃ d ds, upper c = d :: ds ∧ upper d = [d] := by
  obtain ⟨m,ms,hcodes,hstable⟩ := Uppercase.codes_stable c.toNat
  refine ⟨Char.ofNat m,ms.map Char.ofNat,by rw [upper,hcodes,List.map_cons],?_⟩
  by_cases hvalid : m.isValidChar
  · have hm : (Char.ofNat m).toNat = m := congrArg Char.toNat (dif_pos hvalid)
    rw [upper,hm,hstable,List.map_singleton]
  · have hzero : Char.ofNat m = Char.ofNat 0 := dif_neg hvalid
    rw [hzero]
    decide +kernel

theorem capitalize_capitalize (cs : List Char) : capitalize (capitalize cs) = capitalize cs := by
  cases cs with
  | nil => rfl
  | cons c cs =>
    obtain ⟨d,ds,hc,hd⟩ := upper_stable c
    rw [capitalize_cons,hc,List.cons_append,capitalize_cons,hd,List.singleton_append]

theorem Modifier.apply_apply (m : Modifier) (text : String) :
    m.apply (m.apply text) = m.apply text := by
  cases m with
  | capitalize => simp only [apply,String.toList_ofList,capitalize_capitalize]

namespace Placeholder

def Bare (symbol : List Char) : Prop := ∀ m : Modifier, ¬ m.suffix <:+ symbol

theorem findSome?_strip?_eq_some {raw rest : List Char} {m : Modifier} :
    Modifier.all.findSome? (Modifier.strip? raw) = some (rest,m) ↔ raw = rest ++ m.suffix := by
  constructor
  · intro h
    obtain ⟨m',-,hm⟩ := List.exists_of_findSome?_eq_some h
    obtain ⟨rest',hrest,he⟩ := Option.map_eq_some_iff.mp hm
    obtain ⟨rfl,rfl⟩ := Prod.mk.inj he
    exact (List.append_eq_of_isSuffixOf?_eq_some hrest).symm
  · intro h
    cases m with
    | capitalize => simp [Modifier.all,Modifier.strip?,h]

theorem findSome?_strip?_eq_none {raw : List Char} :
    Modifier.all.findSome? (Modifier.strip? raw) = none ↔ Bare raw := by
  rw [Option.eq_none_iff_forall_ne_some]
  constructor
  · rintro h m ⟨rest,hrest⟩
    exact h (rest,m) (findSome?_strip?_eq_some.mpr hrest.symm)
  · rintro h ⟨rest,m⟩ hm
    exact h m ⟨rest,(findSome?_strip?_eq_some.mp hm).symm⟩

theorem split_of_bare {symbol : List Char} (h : Bare symbol) : split symbol = (symbol,[]) := by
  rw [split]
  split
  · rename_i rest m hm
    rw [findSome?_strip?_eq_none.mpr h] at hm
    cases hm
  · rfl

theorem split_append_suffix (symbol : List Char) (m : Modifier) :
    split (symbol ++ m.suffix) = ((split symbol).1,(split symbol).2 ++ [m]) := by
  have hfound := findSome?_strip?_eq_some.mpr (rfl : symbol ++ m.suffix = symbol ++ m.suffix)
  rw [split]
  split
  · rename_i rest m' hm
    obtain ⟨rfl,rfl⟩ := Prod.mk.inj (Option.some.inj (hfound.symm.trans hm))
    rfl
  · rename_i hm
    cases hfound.symm.trans hm

theorem split_spelled {symbol : List Char} (h : Bare symbol) (modifiers : List Modifier) :
    split (symbol ++ modifiers.flatMap Modifier.suffix) = (symbol,modifiers) := by
  induction modifiers using List.reverseRecOn with
  | nil => rw [List.flatMap_nil,List.append_nil,split_of_bare h]
  | append_singleton modifiers m ih =>
    rw [List.flatMap_append,List.flatMap_singleton,← List.append_assoc,split_append_suffix,ih]

theorem spelled_split (raw : List Char) :
    raw = (split raw).1 ++ (split raw).2.flatMap Modifier.suffix ∧ Bare (split raw).1 := by
  fun_induction split raw with
  | case1 raw rest m hm hlt symbol modifiers hsplit ih =>
    rw [hsplit] at ih
    refine ⟨?_,ih.2⟩
    rw [List.flatMap_append,List.flatMap_singleton,← List.append_assoc,← ih.1]
    exact findSome?_strip?_eq_some.mp hm
  | case2 raw hm =>
    rw [List.flatMap_nil,List.append_nil]
    exact ⟨rfl,findSome?_strip?_eq_none.mp hm⟩

theorem split_eq_iff {raw symbol : List Char} {modifiers : List Modifier} :
    split raw = (symbol,modifiers) ↔
      raw = symbol ++ modifiers.flatMap Modifier.suffix ∧ Bare symbol := by
  constructor
  · intro h
    have hspelled := spelled_split raw
    rwa [h] at hspelled
  · rintro ⟨rfl,hbare⟩
    exact split_spelled hbare modifiers

theorem toList_join_capitalize (k : Nat) :
    (String.join (List.replicate k ".capitalize")).toList =
      (List.replicate k Modifier.capitalize).flatMap Modifier.suffix := by
  rw [String.toList_join,List.flatMap_replicate,List.flatMap_replicate]
  rfl

theorem bare_iff {symbol : List Char} : Bare symbol ↔ ¬ ".capitalize".toList <:+ symbol :=
  ⟨fun h => h .capitalize,fun h m => by cases m; exact h⟩

theorem parse_eq_iff {raw symbol : String} {k : Nat} :
    parse raw = ⟨symbol,List.replicate k .capitalize,raw⟩ ↔
      raw = symbol ++ String.join (List.replicate k ".capitalize") ∧
        ¬ ".capitalize".toList <:+ symbol.toList := by
  have hsplit : parse raw = ⟨symbol,List.replicate k .capitalize,raw⟩ ↔
      split raw.toList = (symbol.toList,List.replicate k .capitalize) := by
    rw [parse,Placeholder.mk.injEq,Prod.ext_iff,← String.toList_inj,String.toList_ofList]
    simp
  rw [hsplit,split_eq_iff,bare_iff,← String.toList_inj,String.toList_append,toList_join_capitalize]

theorem exists_parse (raw : String) :
    ∃ symbol k, parse raw = ⟨symbol,List.replicate k .capitalize,raw⟩ := by
  refine ⟨(parse raw).symbol,(parse raw).modifiers.length,?_⟩
  have hmodifiers : (parse raw).modifiers =
      List.replicate (parse raw).modifiers.length .capitalize :=
    List.eq_replicate_iff.mpr ⟨rfl,fun m _ => by cases m; rfl⟩
  rw [← hmodifiers]
  rfl

theorem foldl_replicate (m : Modifier) (k : Nat) (text : String) :
    (List.replicate (k + 1) m).foldl (fun t m => m.apply t) text = m.apply text := by
  induction k with
  | zero => rfl
  | succ k ih =>
    rw [List.replicate_succ',List.foldl_append,ih,List.foldl_cons,List.foldl_nil,
      Modifier.apply_apply]

/-- A placeholder is a symbol that does not end with a modifier and the modifiers behind it, and is
so in one way only. Without modifiers it leaves a text as it is; with any number of them it puts
capitals for the first character, and these have no other capitals. -/
theorem modifiers_of_parse (raw : String) : ∃ symbol k,
    parse raw = ⟨symbol,List.replicate k .capitalize,raw⟩ ∧
    raw = symbol ++ String.join (List.replicate k ".capitalize") ∧
    ¬ ".capitalize".toList <:+ symbol.toList ∧
    (∀ symbol' k', raw = symbol' ++ String.join (List.replicate k' ".capitalize") →
      ¬ ".capitalize".toList <:+ symbol'.toList → symbol' = symbol ∧ k' = k) ∧
    (k = 0 → ∀ text, (parse raw).applyModifiers text = text) ∧
    (1 ≤ k → (parse raw).applyModifiers "" = "" ∧ ∀ c rest,
      (parse raw).applyModifiers (String.ofList (c :: rest)) = String.ofList (upper c ++ rest)) ∧
    ∀ text, Modifier.capitalize.apply (Modifier.capitalize.apply text) =
      Modifier.capitalize.apply text := by
  obtain ⟨symbol,k,hparse⟩ := exists_parse raw
  obtain ⟨hraw,hbare⟩ := parse_eq_iff.mp hparse
  refine ⟨symbol,k,hparse,hraw,hbare,fun symbol' k' hraw' hbare' => ?unique,fun hk text => ?none,
    fun hk => ?many,Modifier.apply_apply .capitalize⟩
  case unique =>
    have hsame := (parse_eq_iff.mpr ⟨hraw',hbare'⟩).symm.trans hparse
    rw [Placeholder.mk.injEq] at hsame
    exact ⟨hsame.1,by simpa using congrArg List.length hsame.2.1⟩
  case none =>
    rw [applyModifiers,hparse,hk]
    rfl
  case many =>
    have hcapitalize (text : String) :
        (parse raw).applyModifiers text = Modifier.capitalize.apply text := by
      obtain ⟨k,rfl⟩ := Nat.exists_eq_add_of_le' hk
      rw [applyModifiers,hparse,foldl_replicate]
    refine ⟨hcapitalize "",fun c rest => ?_⟩
    rw [hcapitalize,Modifier.apply,String.toList_ofList,capitalize_cons]

/-- One ending is not quite a modifier, and the character behind it has several capitals. -/
theorem modifiers_of_parse_almost :
    parse "ß.capitalized.capitalize.capitalize" =
      ⟨"ß.capitalized",[.capitalize,.capitalize],"ß.capitalized.capitalize.capitalize"⟩ ∧
    (parse "ß.capitalized.capitalize.capitalize").applyModifiers "ßé" = "SSé" ∧
    parse "capitalize" = ⟨"capitalize",[],"capitalize"⟩ ∧
    (parse "capitalize").applyModifiers "ßé" = "ßé" := by
  obtain ⟨symbol,k,hparse,-,-,hunique,-,hmany,-⟩ :=
    modifiers_of_parse "ß.capitalized.capitalize.capitalize"
  obtain ⟨rfl,rfl⟩ := hunique "ß.capitalized" 2 (by decide) (by decide)
  obtain ⟨symbol,k,hplain,-,-,hunique,hnone,-,-⟩ := modifiers_of_parse "capitalize"
  obtain ⟨rfl,rfl⟩ := hunique "capitalize" 0 (by decide) (by decide)
  exact ⟨hparse,(hmany (by decide)).2 'ß' ['é'],hplain,hnone rfl "ßé"⟩

end Placeholder

end PhraseGrammar
