import PhraseGrammar.Document.Json.Printer
import PhraseGrammar.Document.Json.Reader
import PhraseGrammar.Proofs.Document.Json.Text
import PhraseGrammar.Proofs.Lists

/-! What is printed is read back. Printing puts texts together from smaller ones, so a text is said
to spell tokens wherever it stands, and tokens to read as a value whatever follows them. -/
namespace PhraseGrammar
namespace Json

/-- Wherever the characters stand, they are read as the tokens, and reading goes on behind them. -/
def Spells (cs : List Char) (ts : List Token) : Prop :=
  ∀ n rest, (cs ++ rest).length ≤ n → ∃ m, rest.length ≤ m ∧
    tokensWithin n (cs ++ rest) = ts ++ tokensWithin m rest

theorem Spells.nil : Spells [] [] := fun n _ hn => ⟨n,hn,rfl⟩

theorem Spells.append {cs cs' : List Char} {ts ts' : List Token} (h : Spells cs ts)
    (h' : Spells cs' ts') : Spells (cs ++ cs') (ts ++ ts') := by
  intro n rest hn
  rw [List.append_assoc] at hn ⊢
  obtain ⟨m,hm,he⟩ := h n (cs' ++ rest) hn
  obtain ⟨m',hm',he'⟩ := h' m rest hm
  exact ⟨m',hm',by rw [he,he',List.append_assoc]⟩

theorem Spells.blank {c : Char} (h : Json.blank c = true) : Spells [c] [] := by
  intro n rest hn
  obtain ⟨n,rfl⟩ := Nat.exists_eq_add_one.mpr (Nat.zero_lt_of_lt hn)
  refine ⟨n,Nat.le_of_succ_le_succ hn,?_⟩
  rw [List.singleton_append,tokensWithin,if_pos h,List.nil_append]

theorem Spells.token {c : Char} {cs : List Char} {t : Token} (hblank : Json.blank c = false)
    (h : ∀ rest, token? c (cs ++ rest) = some (t,rest)) : Spells (c :: cs) [t] := by
  intro n rest hn
  obtain ⟨n,rfl⟩ := Nat.exists_eq_add_one.mpr (Nat.zero_lt_of_lt hn)
  refine ⟨n,?_,?_⟩
  · simp only [List.cons_append,List.length_cons,List.length_append] at hn
    omega
  · simp only [List.cons_append,tokensWithin,hblank,h,Bool.false_eq_true,if_false,List.nil_append]

theorem Spells.mark {c : Char} (hblank : Json.blank c = false) (h : marks.contains c = true) :
    Spells [c] [.mark c] :=
  .token hblank fun rest => by rw [List.nil_append,token?,if_pos h]

theorem Spells.quote (s : String) : Spells (quote s).toList [.leaf (.text s)] := by
  rw [toList_quote]
  refine .token (by decide) fun rest => ?_
  have hmark : marks.contains '"' = false := by decide
  rw [token?,hmark,if_neg Bool.false_ne_true,if_pos rfl,string?,List.append_assoc,
    List.singleton_append,splitQuote_flatMap_escape]
  simp [unescape_flatMap_escape]

theorem Spells.indent (depth : Nat) : Spells (indent depth).toList [] := by
  rw [Json.indent,String.toList_ofList]
  induction 2 * depth with
  | zero => exact .nil
  | succ n ih => exact .append (.blank (by decide)) ih

theorem Spells.tokens_eq {text : String} {ts : List Token} (h : Spells text.toList ts) :
    tokens text = ts := by
  obtain ⟨m,-,he⟩ := h text.toList.length [] (by simp)
  rw [tokens]
  simpa [tokensWithin] using he

/-- Tokens of items with commas between them. -/
def separated (tss : List (List Token)) : List Token := [Token.mark ','].intercalate tss

theorem separated_cons_cons (ts ts' : List Token) (tss : List (List Token)) :
    separated (ts :: ts' :: tss) = ts ++ [.mark ','] ++ separated (ts' :: tss) :=
  List.intercalate_cons_cons

@[simp] theorem separated_singleton (ts : List Token) : separated [ts] = ts :=
  List.intercalate_singleton

theorem separated_cons (t : Token) (ts : List Token) (tss : List (List Token)) :
    ∃ us, separated ((t :: ts) :: tss) = t :: us := by
  cases tss with
  | nil => exact ⟨ts,separated_singleton _⟩
  | cons ts' tss => exact ⟨_,separated_cons_cons _ _ _⟩

theorem Spells.intercalate {depth : Nat} {items : List String} {tss : List (List Token)}
    (h : List.Forall₂ (fun item ts => Spells item.toList ts) items tss) :
    Spells (",\n".intercalate (items.map (Json.indent depth ++ ·))).toList (separated tss) := by
  rw [String.toList_intercalate,List.map_map]
  have hitem {item : String} {ts : List Token} (h : Spells item.toList ts) :
      Spells (Json.indent depth ++ item).toList ts := by
    rw [String.toList_append]
    exact (Spells.indent depth).append h
  have hcomma : Spells ",\n".toList [.mark ','] :=
    (Spells.mark (c := ',') (by decide) (by decide)).append (.blank (c := '\n') (by decide))
  induction h with
  | nil => exact .nil
  | cons hts hrest ih =>
    cases hrest with
    | nil =>
      rw [separated_singleton,List.map_singleton,List.intercalate_singleton]
      exact hitem hts
    | cons =>
      rw [separated_cons_cons,List.map_cons,List.map_cons,List.intercalate_cons_cons]
      exact ((hitem hts).append hcomma).append ih

theorem Spells.block {opening closing : String} {o c : Char}
    (ho : Spells opening.toList [.mark o]) (hc : Spells closing.toList [.mark c]) {depth : Nat}
    {items : List String} {tss : List (List Token)}
    (h : List.Forall₂ (fun item ts => Spells item.toList ts) items tss) :
    Spells (block opening closing depth items).toList
      (.mark o :: (separated tss ++ [.mark c])) := by
  rw [Json.block]
  cases h with
  | nil =>
    rw [List.isEmpty_nil,if_pos rfl,String.toList_append]
    exact ho.append hc
  | cons hts hrest =>
    have hnewline : Spells "\n".toList [] := .blank (c := '\n') (by decide)
    simp only [List.isEmpty_cons,Bool.false_eq_true,if_false,String.toList_append]
    simpa using ((((ho.append hnewline).append (.intercalate (.cons hts hrest))).append
      hnewline).append (.indent depth)).append hc

/-- Whatever follows them, the tokens are read as the value. -/
def Reads (ts : List Token) (depth : Nat) (v : Value) : Prop :=
  ∀ n rest, 2 * ts.length + 1 ≤ n → value n depth (ts ++ rest) = (v,rest)

theorem Reads.leaf (v : Value) (depth : Nat) : Reads [.leaf v] depth v := by
  intro n rest hn
  obtain ⟨n,rfl⟩ := Nat.exists_eq_add_one.mpr (Nat.zero_lt_of_lt hn)
  rfl

theorem Reads.head {ts : List Token} {depth : Nat} {v : Value} (h : Reads ts depth v) :
    ∃ t us, ts = t :: us ∧ t ≠ .mark ']' := by
  have hv := h (2 * ts.length + 1) [.bad] (Nat.le_refl _)
  cases ts with
  | nil =>
    rw [List.nil_append,value] at hv
    · cases (Prod.mk.inj hv).2
    all_goals simp
  | cons t us =>
    refine ⟨t,us,rfl,?_⟩
    rintro rfl
    rw [List.cons_append,value] at hv
    · cases (Prod.mk.inj hv).2
    all_goals simp

variable {depth : Nat} {tss : List (List Token)}

theorem items_separated {vs : List Value}
    (h : List.Forall₂ (fun ts v => Reads ts depth v) tss vs) (hne : tss ≠ []) {n : Nat}
    {rest : List Token} (hn : 2 * (separated tss).length + 2 ≤ n) :
    items n depth (separated tss ++ .mark ']' :: rest) = (vs,rest) := by
  induction h generalizing n with
  | nil => exact absurd rfl hne
  | @cons ts v tss vs hts htss ih =>
    -- One unit of fuel goes to the item itself, and its comma pays for the next one.
    obtain ⟨n,rfl⟩ := Nat.exists_eq_add_one.mpr (Nat.zero_lt_of_lt hn)
    cases htss with
    | nil =>
      rw [separated_singleton] at hn ⊢
      rw [items,hts n _ (by omega)]
      rfl
    | @cons ts' v' tss vs hts' htss =>
      rw [separated_cons_cons,List.length_append,List.length_append,List.length_singleton] at hn
      have hrest := ih (List.cons_ne_nil _ _) (n:=n) (by omega)
      rw [separated_cons_cons,List.append_assoc,List.append_assoc,items,hts n _ (by omega)]
      simp only [List.singleton_append,hrest]

theorem Reads.list {vs : List Value} (h : List.Forall₂ (fun ts v => Reads ts depth v) tss vs) :
    Reads (.mark '[' :: (separated tss ++ [.mark ']'])) (depth + 1) (.list vs) := by
  intro n rest hn
  simp only [List.length_cons,List.length_append,List.length_nil] at hn
  obtain ⟨n,rfl⟩ := Nat.exists_eq_add_one.mpr (Nat.zero_lt_of_lt hn)
  rw [List.cons_append,List.append_assoc,List.singleton_append]
  cases h with
  | nil => rfl
  | @cons ts v tss vs hts htss =>
    have hitems : items n depth (separated (ts :: tss) ++ .mark ']' :: rest) = (v :: vs,rest) :=
      items_separated (.cons hts htss) (List.cons_ne_nil _ _) (by omega)
    obtain ⟨t,us,rfl,ht⟩ := hts.head
    obtain ⟨us',hus⟩ := separated_cons t us tss
    rw [hus] at hitems ⊢
    rw [List.cons_append,value]
    · simp only [← List.cons_append,hitems]
    · intro ts' h
      exact ht (List.cons.inj h).1

/-- The tokens of an entry: its key, a colon and its value. -/
def ReadsEntry (ts : List Token) (depth : Nat) (e : Value × Value) : Prop :=
  ∃ key us v, ts = .leaf (.text key) :: .mark ':' :: us ∧ e = (.text key,v) ∧ Reads us depth v

theorem entries_separated {es : List (Value × Value)}
    (h : List.Forall₂ (fun ts e => ReadsEntry ts depth e) tss es) (hne : tss ≠ []) {n : Nat}
    {rest : List Token} (hn : 2 * (separated tss).length + 2 ≤ n) :
    entries n depth (separated tss ++ .mark '\x7d' :: rest) = (es,rest) := by
  induction h generalizing n with
  | nil => exact absurd rfl hne
  | @cons ts e tss es hts htss ih =>
    obtain ⟨n,rfl⟩ := Nat.exists_eq_add_one.mpr (Nat.zero_lt_of_lt hn)
    obtain ⟨key,us,v,rfl,rfl,hus⟩ := hts
    cases htss with
    | nil =>
      simp only [separated_singleton,List.length_cons] at hn
      rw [separated_singleton,List.cons_append,List.cons_append,entries,hus n _ (by omega)]
      rfl
    | cons =>
      simp only [separated_cons_cons,List.length_append,List.length_cons,List.length_nil] at hn
      have hrest := ih (List.cons_ne_nil _ _) (n:=n) (by omega)
      rw [separated_cons_cons,List.append_assoc,List.append_assoc,List.cons_append,
        List.cons_append,entries,hus n _ (by omega)]
      simp only [List.singleton_append,hrest]

theorem Reads.map {es : List (Value × Value)}
    (h : List.Forall₂ (fun ts e => ReadsEntry ts depth e) tss es) :
    Reads (.mark '\x7b' :: (separated tss ++ [.mark '\x7d'])) (depth + 1) (.map es) := by
  intro n rest hn
  simp only [List.length_cons,List.length_append,List.length_nil] at hn
  obtain ⟨n,rfl⟩ := Nat.exists_eq_add_one.mpr (Nat.zero_lt_of_lt hn)
  rw [List.cons_append,List.append_assoc,List.singleton_append]
  cases h with
  | nil => rfl
  | @cons ts e tss es hts htss =>
    have hentries : entries n depth (separated (ts :: tss) ++ .mark '\x7d' :: rest) =
        (e :: es,rest) := entries_separated (.cons hts htss) (List.cons_ne_nil _ _) (by omega)
    obtain ⟨key,us,v,rfl,rfl,-⟩ := hts
    obtain ⟨us',hus⟩ := separated_cons (.leaf (.text key)) (.mark ':' :: us) tss
    rw [hus] at hentries ⊢
    rw [List.cons_append,value]
    · simp only [← List.cons_append,hentries]
    · intro ts' h
      cases (List.cons.inj h).1

/-- The text is the value's, with at most `depth` containers open at once. -/
def Denotes (text : String) (depth : Nat) (v : Value) : Prop :=
  ∃ ts, Spells text.toList ts ∧ Reads ts depth v

theorem Denotes.read_eq {text : String} {v : Value} (h : Denotes text maxDepth v) :
    read text = ⟨v,true⟩ := by
  obtain ⟨ts,hspells,hreads⟩ := h
  have hvalue := hreads (2 * ts.length + 1) [] (Nat.le_refl _)
  rw [List.append_nil] at hvalue
  rw [read,hspells.tokens_eq]
  simp only [hvalue,List.isEmpty_nil]

theorem denotes_quote (s : String) (depth : Nat) : Denotes (quote s) depth (.text s) :=
  ⟨_,.quote s,.leaf _ _⟩

theorem denotes_null (depth : Nat) : Denotes "null" depth .null :=
  ⟨_,.token (by decide) fun _ => rfl,.leaf _ _⟩

theorem denotes_array {items : List String} {vs : List Value}
    (h : List.Forall₂ (fun item v => Denotes item depth v) items vs) (k : Nat) :
    Denotes (block "[" "]" k items) (depth + 1) (.list vs) := by
  obtain ⟨tss,hspells,hreads⟩ := exists_between h
  have hopening : Spells "[".toList [.mark '['] := .mark (by decide) (by decide)
  have hclosing : Spells "]".toList [.mark ']'] := .mark (by decide) (by decide)
  exact ⟨_,.block hopening hclosing hspells,.list hreads⟩

theorem denotes_object {fields : List (String × String)} {es : List (String × Value)}
    (h : List.Forall₂ (fun f e => f.1 = e.1 ∧ Denotes f.2 depth e.2) fields es) (k : Nat) :
    Denotes (object k fields) (depth + 1) (.map (es.map fun e => (.text e.1,e.2))) := by
  obtain ⟨tss,hspells,hreads⟩ : ∃ tss,
      List.Forall₂ (fun (f : String × String) ts => Spells (field f.1 f.2).toList ts) fields tss ∧
      List.Forall₂ (fun ts (e : String × Value) => ReadsEntry ts depth (.text e.1,e.2)) tss es := by
    refine exists_between (h.imp fun f e => ?_)
    rintro ⟨hkey,ts,hspells,hreads⟩
    refine ⟨.leaf (.text f.1) :: .mark ':' :: ts,?_,f.1,ts,e.2,rfl,by rw [hkey],hreads⟩
    have hcolon : Spells ": ".toList [.mark ':'] :=
      (Spells.mark (c := ':') (by decide) (by decide)).append (.blank (c := ' ') (by decide))
    rw [field,String.toList_append,String.toList_append]
    exact ((Spells.quote f.1).append hcolon).append hspells
  have hopening : Spells "\x7b".toList [.mark '\x7b'] := .mark (by decide) (by decide)
  have hclosing : Spells "\x7d".toList [.mark '\x7d'] := .mark (by decide) (by decide)
  have hitems : List.Forall₂ (fun item ts => Spells item.toList ts)
      (fields.map fun f => field f.1 f.2) tss :=
    List.forall₂_map_left_iff.mpr hspells
  have hentries : List.Forall₂ (fun ts e => ReadsEntry ts depth e) tss
      (es.map fun e => (.text e.1,e.2)) := List.forall₂_map_right_iff.mpr hreads
  exact ⟨_,.block hopening hclosing hitems,.map hentries⟩

end Json

end PhraseGrammar
