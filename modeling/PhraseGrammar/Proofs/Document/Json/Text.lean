import PhraseGrammar.Document.Json.Text

/-! A string that is written as JSON is read back, whatever characters it has. -/
namespace PhraseGrammar
namespace Json

variable {cs rest : List Char}

/-- The characters with an escape of two characters. -/
def short : List Char := ['"','\\','\x08','\x0c','\n','\r','\t']

theorem escape_short : ∀ c ∈ short, ∃ e, escape c = ['\\',e] ∧ e ≠ 'u' ∧
    shortEscape? e = some c.toNat := by
  simp only [short,List.forall_mem_cons]
  exact ⟨⟨'"',by decide⟩,⟨'\\',by decide⟩,⟨'b',by decide⟩,⟨'f',by decide⟩,⟨'n',by decide⟩,
    ⟨'r',by decide⟩,⟨'t',by decide⟩,by simp⟩

theorem escape_of_not_short {c : Char} (h : c ∉ short) : escape c =
    if c.toNat < 0x20 then
      ['\\','u','0','0',Nat.digitChar (c.toNat / 16),Nat.digitChar (c.toNat % 16)]
    else [c] := by
  simp only [short,List.mem_cons,List.not_mem_nil,or_false,not_or] at h
  simp [escape,h]

theorem ne_of_not_short {c : Char} (h : c ∉ short) : c ≠ '"' ∧ c ≠ '\\' := by
  simp only [short,List.mem_cons,not_or] at h
  exact ⟨h.1,h.2.1⟩

theorem digits_control : ∀ n < 0x20,
    numeral? 16 ['0','0',Nat.digitChar (n / 16),Nat.digitChar (n % 16)] = some n ∧
      Nat.digitChar (n / 16) ∉ short ∧ Nat.digitChar (n % 16) ∉ short := by
  decide

theorem splitQuote_cons {c : Char} (hquote : c ≠ '"') (hslash : c ≠ '\\') :
    splitQuote (c :: cs) = (splitQuote cs).map fun (body,rest) => (c :: body,rest) := by
  rw [splitQuote]
  · exact hquote
  · intro c' cs' hc
    exact absurd hc hslash

theorem splitQuote_escape (c : Char) (cs : List Char) :
    splitQuote (escape c ++ cs) =
      (splitQuote cs).map fun (body,rest) => (escape c ++ body,rest) := by
  by_cases hc : c ∈ short
  · obtain ⟨e,he,-,-⟩ := escape_short c hc
    rw [he]
    rfl
  · rw [escape_of_not_short hc]
    obtain ⟨hquote,hslash⟩ := ne_of_not_short hc
    split
    · rename_i hlt
      obtain ⟨-,hhigh,hlow⟩ := digits_control c.toNat hlt
      obtain ⟨hhquote,hhslash⟩ := ne_of_not_short hhigh
      obtain ⟨hlquote,hlslash⟩ := ne_of_not_short hlow
      have hzero (cs : List Char) : splitQuote ('0' :: cs) =
          (splitQuote cs).map fun (body,rest) => ('0' :: body,rest) :=
        splitQuote_cons (by decide) (by decide)
      simp only [List.cons_append,List.nil_append,splitQuote,hzero,splitQuote_cons hhquote hhslash,
        splitQuote_cons hlquote hlslash,Option.map_map,Function.comp_def]
    · exact splitQuote_cons hquote hslash

/-- A body is split off at the first quote that is not escaped. -/
theorem splitQuote_flatMap_escape (cs rest : List Char) :
    splitQuote (cs.flatMap escape ++ '"' :: rest) = some (cs.flatMap escape,rest) := by
  induction cs with
  | nil => rfl
  | cons c cs ih => rw [List.flatMap_cons,List.append_assoc,splitQuote_escape,ih,Option.map_some]

theorem units_escape (c : Char) (cs : List Char) :
    units (escape c ++ cs) = (units cs).map (c.toNat :: ·) := by
  by_cases hc : c ∈ short
  · obtain ⟨e,he,hu,hshort⟩ := escape_short c hc
    rw [he,List.cons_append,List.cons_append,List.nil_append,units]
    · rw [hshort]
      cases units cs <;> rfl
    · intro a b c' d cs' h
      exact absurd h hu
  · rw [escape_of_not_short hc]
    obtain ⟨-,hslash⟩ := ne_of_not_short hc
    split
    · rename_i hlt
      obtain ⟨hdigits,-,-⟩ := digits_control c.toNat hlt
      simp only [List.cons_append,List.nil_append,units,hdigits]
      cases units cs <;> rfl
    · rename_i hlt
      rw [List.cons_append,List.nil_append,units]
      · simp only [hslash,hlt,decide_false,Bool.or_self,Bool.false_eq_true,if_false]
        cases units cs <;> rfl
      · intro a b c' d cs' h
        exact absurd h hslash
      · intro c' cs' h
        exact absurd h hslash

theorem units_flatMap_escape (cs : List Char) :
    units (cs.flatMap escape) = some (cs.map Char.toNat) := by
  induction cs with
  | nil => rfl
  | cons c cs ih => rw [List.flatMap_cons,units_escape,ih,Option.map_some,List.map_cons]

theorem not_half (c : Char) : highHalf c.toNat = false ∧ lowHalf c.toNat = false := by
  have h : c.toNat < 0xD800 ∨ 0xDFFF < c.toNat ∧ c.toNat < 0x110000 := c.valid
  simp only [highHalf,lowHalf,Bool.and_eq_false_iff,decide_eq_false_iff_not]
  omega

theorem scalars_cons (c : Char) (cs : List Char) :
    scalars (c.toNat :: cs.map Char.toNat) = (scalars (cs.map Char.toNat)).map (c :: ·) := by
  obtain ⟨hhigh,hlow⟩ := not_half c
  have hc : Char.ofNat c.toNat = c := Char.ofNat_toNat c
  cases cs with
  | nil => simp [scalars,hhigh,hlow,hc]
  | cons c' cs => simp [scalars,hhigh,hlow,hc]

theorem scalars_map_toNat (cs : List Char) : scalars (cs.map Char.toNat) = some cs := by
  induction cs with
  | nil => rfl
  | cons c cs ih => rw [List.map_cons,scalars_cons,ih,Option.map_some]

theorem unescape_flatMap_escape (s : String) : unescape (s.toList.flatMap escape) = some s := by
  rw [unescape,units_flatMap_escape,Option.bind_some,scalars_map_toNat,Option.map_some,
    String.ofList_toList]

theorem toList_quote (s : String) :
    (quote s).toList = '"' :: (s.toList.flatMap escape ++ ['"']) := by
  rw [quote,String.toList_ofList]
  rfl

end Json

end PhraseGrammar
