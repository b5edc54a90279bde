import PhraseGrammar.Dot
import PhraseGrammar.Proofs.Document.Json.Text
import PhraseGrammar.Proofs.Lists

/-! The text of a drawing, whatever characters its labels have. A label is a quoted string that ends
at its own quote and can be undone, the lines of the text are those of its statements, and no other
statements have the same lines. -/
namespace PhraseGrammar
namespace Dot

variable {cs rest : List Char} {text : String}

/-- The character that an escape stands for, by its second character. -/
def escaped? : Char → Option Char
  | '"' => some '"'
  | '\\' => some '\\'
  | 'n' => some '\n'
  | _ => none

/-- Undoes the escapes in the body of a quoted string. -/
def unescape : List Char → Option (List Char)
  | [] => some []
  | '\\' :: e :: cs => (escaped? e).bind fun c => (unescape cs).map (c :: ·)
  | c :: cs => (unescape cs).map (c :: ·)

theorem escape_cases (c : Char) :
    (∃ e, escape c = ['\\',e] ∧ escaped? e = some c ∧ e ≠ '\n') ∨
      escape c = [c] ∧ c ≠ '"' ∧ c ≠ '\\' ∧ c ≠ '\n' := by
  by_cases hquote : c = '"'
  · exact .inl ⟨'"',by simp [escape,hquote],by rw [hquote]; rfl,by decide⟩
  by_cases hslash : c = '\\'
  · exact .inl ⟨'\\',by simp [escape,hslash],by rw [hslash]; rfl,by decide⟩
  by_cases hnewline : c = '\n'
  · exact .inl ⟨'n',by simp [escape,hnewline],by rw [hnewline]; rfl,by decide⟩
  exact .inr ⟨by simp [escape,hquote,hslash,hnewline],hquote,hslash,hnewline⟩

theorem splitQuote_flatMap_escape (cs rest : List Char) :
    splitQuote (cs.flatMap escape ++ '"' :: rest) = some (cs.flatMap escape,rest) := by
  induction cs with
  | nil => rfl
  | cons c cs ih =>
    rw [List.flatMap_cons,List.append_assoc]
    rcases escape_cases c with ⟨e,he,-,-⟩ | ⟨he,hquote,hslash,-⟩
    · rw [he,List.cons_append,List.singleton_append,splitQuote,ih]
      rfl
    · rw [he,List.singleton_append,Json.splitQuote_cons hquote hslash,ih]
      rfl

theorem unescape_flatMap_escape (cs : List Char) : unescape (cs.flatMap escape) = some cs := by
  induction cs with
  | nil => rfl
  | cons c cs ih =>
    rw [List.flatMap_cons]
    rcases escape_cases c with ⟨e,he,hc,-⟩ | ⟨he,-,hslash,-⟩
    · rw [he,List.cons_append,List.singleton_append,unescape,hc,ih]
      rfl
    · rw [he,List.singleton_append,unescape,ih]
      · rfl
      · exact fun _ _ h => absurd h hslash

theorem newline_notMem_flatMap_escape (cs : List Char) : '\n' ∉ cs.flatMap escape := by
  rw [List.mem_flatMap]
  rintro ⟨c,-,hc⟩
  rcases escape_cases c with ⟨e,he,-,hne⟩ | ⟨he,-,-,hne⟩
  · rw [he] at hc
    simp [hne.symm] at hc
  · rw [he,List.mem_singleton] at hc
    exact hne hc.symm

theorem toList_label (text : String) : (label text).toList =
    "label=".toList ++ '"' :: (text.toList.flatMap escape ++ ['"']) := by
  simp [label]

@[simp] theorem label_append_inj {other : String} {rest' : List Char} :
    (label text).toList ++ rest = (label other).toList ++ rest' ↔
      text = other ∧ rest = rest' := by
  refine ⟨fun h => ?_,fun ⟨htext,hrest⟩ => by rw [htext,hrest]⟩
  simp only [toList_label,List.append_assoc,List.append_cancel_left_eq,List.cons_append,
    List.cons.injEq,true_and] at h
  have hsplit := congrArg splitQuote h
  simp only [splitQuote_flatMap_escape,Option.some.injEq,Prod.mk.injEq] at hsplit
  have htext := congrArg unescape hsplit.1
  simp only [unescape_flatMap_escape,Option.some.injEq] at htext
  exact ⟨String.toList_injective htext,hsplit.2⟩

@[simp] theorem toList_label_inj {other : String} :
    (label text).toList = (label other).toList ↔ text = other := by
  rw [← List.append_nil (label text).toList,← List.append_nil (label other).toList,
    label_append_inj]
  exact and_iff_left rfl

/-- The quoted strings of a text in order, with their escapes undone. -/
def quotedTexts : List Char → Option (List String)
  | [] => some []
  | c :: cs =>
    if c = '"' then
      match _h : splitQuote cs with
      | none => none
      | some (body,rest) =>
        (unescape body).bind fun text => (quotedTexts rest).map (String.ofList text :: ·)
    else quotedTexts cs
termination_by cs => cs.length
decreasing_by
  · have := length_lt_of_splitQuote _h
    simp only [List.length_cons]
    omega
  · simp

theorem quotedTexts_append (h : '"' ∉ cs) (rest : List Char) :
    quotedTexts (cs ++ rest) = quotedTexts rest := by
  induction cs with
  | nil => rfl
  | cons c cs ih =>
    obtain ⟨hc,hcs⟩ := not_or.mp (mt List.mem_cons.mpr h)
    rw [List.cons_append,quotedTexts,if_neg (Ne.symm hc),ih hcs]

theorem quotedTexts_label (text : String) (rest : List Char) :
    quotedTexts ((label text).toList ++ rest) = (quotedTexts rest).map (text :: ·) := by
  rw [toList_label,List.append_assoc,quotedTexts_append (by decide),List.cons_append,
    List.append_assoc,List.singleton_append,quotedTexts,if_pos rfl]
  split
  · rename_i hsplit
    rw [splitQuote_flatMap_escape] at hsplit
    cases hsplit
  · rename_i body after hsplit
    rw [splitQuote_flatMap_escape,Option.some.injEq,Prod.mk.injEq] at hsplit
    obtain ⟨rfl,rfl⟩ := hsplit
    rw [unescape_flatMap_escape,Option.bind_some,String.ofList_toList]

theorem notMem_digits {c : Char} (hc : c.isDigit = false) (n : Nat) : c ∉ Nat.toDigits 10 n := by
  intro hmem
  rw [Nat.isDigit_of_mem_toDigits (by decide) (by decide) hmem] at hc
  cases hc

@[simp] theorem digits_inj {n m : Nat} : Nat.toDigits 10 n = Nat.toDigits 10 m ↔ n = m := by
  refine ⟨fun h => ?_,fun h => h ▸ rfl⟩
  simpa only [Nat.ofDigitChars_ten_toDigits] using congrArg (Nat.ofDigitChars 10 · 0) h

@[simp] theorem digits_append_inj {c c' : Char} (hc : c.isDigit = false) (hc' : c'.isDigit = false)
    {n m : Nat} : Nat.toDigits 10 n ++ c :: cs = Nat.toDigits 10 m ++ c' :: rest ↔
      n = m ∧ c = c' ∧ cs = rest := by
  have htake (n : Nat) {c : Char} (hc : c.isDigit = false) (cs : List Char) :
      (Nat.toDigits 10 n ++ c :: cs).takeWhile Char.isDigit = Nat.toDigits 10 n := by
    rw [List.takeWhile_append_of_pos fun _ => Nat.isDigit_of_mem_toDigits (by decide) (by decide),
      List.takeWhile_cons_of_neg (by simp [hc]),List.append_nil]
  constructor
  · intro h
    have hdigits := congrArg (List.takeWhile Char.isDigit) h
    rw [htake n hc,htake m hc',digits_inj] at hdigits
    subst hdigits
    exact ⟨rfl,List.cons.inj (List.append_cancel_left h)⟩
  · rintro ⟨rfl,rfl,rfl⟩
    rfl

namespace Statement

def label? : Statement → Option String
  | group _ text | rule _ _ text | cluster _ text _ => some text
  | compound | leftToRight | blank | groupEdge _ _ | ruleEdge _ _ _ => none

/-- The lines with what ends each of them. -/
def chars (s : Statement) : List Char := s.lines.flatMap fun line => line.toList ++ ['\n']

theorem newline_notMem_lines (s : Statement) : ∀ line ∈ s.lines, '\n' ∉ line.toList := by
  have hdigits (n : Nat) : '\n' ∉ Nat.toDigits 10 n := notMem_digits rfl n
  have hlabel (text : String) : '\n' ∉ (label text).toList := by
    rw [toList_label]
    simpa using newline_notMem_flatMap_escape text.toList
  cases s with
  | cluster id text rules =>
    simp only [lines,List.cons_append,List.nil_append,List.forall_mem_cons,List.forall_mem_append,
      List.forall_mem_map]
    simp [clusterName,ruleNode,hdigits,hlabel]
  | _ => simp [lines,groupNode,ruleNode,clusterName,hdigits,hlabel]

/-- Beside its label a statement has no quote. -/
theorem exists_frame {s : Statement} {text : String} (h : s.label? = some text) :
    ∃ before after, s.chars = before ++ (label text).toList ++ after ∧
      '"' ∉ before ∧ '"' ∉ after := by
  have hdigits (n : Nat) : '"' ∉ Nat.toDigits 10 n := notMem_digits rfl n
  cases s with
  | group id shown =>
    obtain rfl := Option.some.inj h
    refine ⟨("\t" ++ groupNode id ++ " [").toList,"];\n".toList,?_,?_,by decide⟩
    · simp [chars,lines]
    · simp [groupNode,hdigits]
  | rule id index shown =>
    obtain rfl := Option.some.inj h
    refine ⟨("\t" ++ ruleNode id index ++ " [").toList,"];\n".toList,?_,?_,by decide⟩
    · simp [chars,lines]
    · simp [ruleNode,hdigits]
  | cluster id shown rules =>
    obtain rfl := Option.some.inj h
    refine ⟨("\tsubgraph " ++ clusterName id ++ " \x7b\n\t\t").toList,";\n".toList ++
      ((List.range rules).flatMap fun index => ("\t\t" ++ ruleNode id index ++ ";\n").toList) ++
        "\t\x7d\n".toList,?_,?_,?_⟩
    · simp [chars,lines,List.flatMap_map]
    · simp [clusterName,hdigits]
    · simp [ruleNode,hdigits]
  | _ => cases h

theorem quote_notMem_chars {s : Statement} (h : s.label? = none) : '"' ∉ s.chars := by
  have hdigits (n : Nat) : '"' ∉ Nat.toDigits 10 n := notMem_digits rfl n
  cases s with
  | group | rule | cluster => cases h
  | _ => simp [chars,lines,groupNode,ruleNode,clusterName,hdigits]

theorem quotedTexts_chars (s : Statement) (rest : List Char) :
    quotedTexts (s.chars ++ rest) = (quotedTexts rest).map (s.label?.toList ++ ·) := by
  cases h : s.label? with
  | none =>
    rw [quotedTexts_append (quote_notMem_chars h)]
    simp
  | some text =>
    obtain ⟨before,after,hchars,hbefore,hafter⟩ := exists_frame h
    rw [hchars,List.append_assoc,List.append_assoc,quotedTexts_append hbefore,quotedTexts_label,
      quotedTexts_append hafter]
    rfl

theorem cluster_append_inj {id : GroupId} {n m : Nat} {rest rest' : List String} :
    (List.range n).map (fun index => "\t\t" ++ ruleNode id index ++ ";") ++ "\t\x7d" :: rest =
      (List.range m).map (fun index => "\t\t" ++ ruleNode id index ++ ";") ++ "\t\x7d" :: rest' ↔
        n = m ∧ rest = rest' := by
  have hclosing (n : Nat) :
      "\t\x7d" ∉ (List.range n).map fun index => "\t\t" ++ ruleNode id index ++ ";" := by
    simp [ruleNode,String.ext_iff]
  constructor
  · intro h
    obtain ⟨hnodes,hrest⟩ := append_cons_inj (hclosing n) (hclosing m) h
    exact ⟨by simpa using congrArg List.length hnodes,hrest⟩
  · rintro ⟨rfl,rfl⟩
    rfl

/-- A line without its numbers, up to where a label would be. -/
def opening (line : String) : List Char := (line.toList.filter (!·.isDigit)).take 9

/-- How the first line of a statement opens. -/
def mark : Statement → String
  | compound => "\tcompound"
  | leftToRight => "\tgraph [r"
  | blank => ""
  | group _ _ => "\tgroup_ ["
  | rule _ _ _ => "\trule__ ["
  | cluster _ _ _ => "\tsubgraph"
  | groupEdge _ _ => "\tgroup_ -"
  | ruleEdge _ _ _ => "\trule__ -"

theorem opening_headD (s : Statement) (rest : List String) :
    opening ((s.lines ++ rest).headD "") = s.mark.toList := by
  have hdigits (n : Nat) : (Nat.toDigits 10 n).filter (!·.isDigit) = [] := by
    rw [List.filter_eq_nil_iff]
    intro c hc
    simp [Nat.isDigit_of_mem_toDigits (by decide) (by decide) hc]
  cases s <;> simp [opening,mark,lines,groupNode,ruleNode,clusterName,hdigits]

/-- The first line tells what kind a statement is of, and each line where it ends. -/
theorem lines_append_inj {s s' : Statement} {rest rest' : List String} :
    s.lines ++ rest = s'.lines ++ rest' ↔ s = s' ∧ rest = rest' := by
  refine ⟨fun h => ?_,fun ⟨hs,hrest⟩ => by rw [hs,hrest]⟩
  have hmark : s.mark = s'.mark := by
    apply String.toList_injective
    rw [← opening_headD s rest,h,opening_headD]
  cases s with
  | compound =>
    cases s' with
    | compound => simpa [lines] using h
    | _ => simp [mark] at hmark
  | leftToRight =>
    cases s' with
    | leftToRight => simpa [lines] using h
    | _ => simp [mark] at hmark
  | blank =>
    cases s' with
    | blank => simpa [lines] using h
    | _ => simp [mark] at hmark
  | group id text =>
    cases s' with
    | group id' text' => simpa [lines,groupNode,String.ext_iff] using h
    | _ => simp [mark] at hmark
  | rule id index text =>
    cases s' with
    | rule id' index' text' => simpa [lines,ruleNode,String.ext_iff] using h
    | _ => simp [mark] at hmark
  | cluster id text rules =>
    cases s' with
    | cluster id' text' rules' =>
      simp only [lines,List.append_assoc,List.cons_append,List.nil_append,List.cons.injEq] at h
      obtain ⟨hid,htext,hnodes⟩ := h
      obtain rfl : id = id' := by simpa [clusterName,String.ext_iff] using hid
      obtain rfl : text = text' := by simpa [String.ext_iff] using htext
      obtain ⟨rfl,hrest⟩ := cluster_append_inj.mp hnodes
      exact ⟨rfl,hrest⟩
    | _ => simp [mark] at hmark
  | groupEdge source target =>
    cases s' with
    | groupEdge source' target' => simpa [lines,groupNode,String.ext_iff] using h
    | _ => simp [mark] at hmark
  | ruleEdge source index target =>
    cases s' with
    | ruleEdge source' index' target' =>
      simpa [lines,ruleNode,clusterName,String.ext_iff] using h
    | _ => simp [mark] at hmark

theorem lines_append_ne (s : Statement) (rest : List String) : s.lines ++ rest ≠ ["\x7d"] := by
  intro h
  have hmark := opening_headD s rest
  rw [h] at hmark
  cases s <;> simp [opening,mark] at hmark

end Statement

def page (statements : List Statement) : List String :=
  ["digraph tracery \x7b"] ++ statements.flatMap Statement.lines ++ ["\x7d"]

theorem toList_render (statements : List Statement) :
    (render statements).toList = (page statements).flatMap fun line => line.toList ++ ['\n'] := by
  rw [render,String.toList_join,List.flatMap_map]
  simp [page]

theorem newline_notMem_page (statements : List Statement) :
    ∀ line ∈ page statements, '\n' ∉ line.toList := by
  simp only [page,List.cons_append,List.nil_append,List.forall_mem_cons,List.forall_mem_append,
    List.mem_flatMap]
  refine ⟨by decide,?_,by simp⟩
  rintro line ⟨s,-,hline⟩
  exact s.newline_notMem_lines line hline

theorem splitOn_render (statements : List Statement) : (render statements).toList.splitOn '\n' =
    (page statements).map String.toList ++ [[]] := by
  rw [toList_render,splitOn_flatMap_concat (newline_notMem_page statements)]

theorem quotedTexts_flatMap_chars (statements : List Statement) (rest : List Char) :
    quotedTexts (statements.flatMap Statement.chars ++ rest) =
      (quotedTexts rest).map (statements.filterMap Statement.label? ++ ·) := by
  induction statements with
  | nil => simp
  | cons s statements ih =>
    rw [List.flatMap_cons,List.append_assoc,s.quotedTexts_chars,ih,Option.map_map,
      List.filterMap_cons]
    cases s.label? <;> rfl

theorem quotedTexts_render (statements : List Statement) :
    quotedTexts (render statements).toList = some (statements.filterMap Statement.label?) := by
  have hchars : statements.flatMap Statement.chars =
      (statements.flatMap Statement.lines).flatMap fun line => line.toList ++ ['\n'] :=
    List.flatMap_assoc.symm
  have hrender : (render statements).toList = "digraph tracery \x7b\n".toList ++
      (statements.flatMap Statement.chars ++ ("\x7d\n".toList ++ [])) := by
    rw [toList_render,hchars]
    simp [page]
  rw [hrender,quotedTexts_append (by decide),quotedTexts_flatMap_chars,
    quotedTexts_append (by decide),quotedTexts]
  simp

theorem flatMap_lines_inj {statements others : List Statement}
    (h : statements.flatMap Statement.lines ++ ["\x7d"] =
      others.flatMap Statement.lines ++ ["\x7d"]) : statements = others := by
  induction statements generalizing others with
  | nil =>
    cases others with
    | nil => rfl
    | cons s others =>
      rw [List.flatMap_cons,List.append_assoc] at h
      exact absurd h.symm (s.lines_append_ne _)
  | cons s statements ih =>
    cases others with
    | nil =>
      rw [List.flatMap_cons,List.append_assoc] at h
      exact absurd h (s.lines_append_ne _)
    | cons s' others =>
      rw [List.flatMap_cons,List.flatMap_cons,List.append_assoc,List.append_assoc,
        Statement.lines_append_inj] at h
      rw [h.1,ih h.2]

/-- Different statements make different texts. -/
theorem render_injective : Function.Injective render := by
  intro statements others h
  have hpage := congrArg (fun text : String => text.toList.splitOn '\n') h
  simp only [splitOn_render,List.append_cancel_right_eq] at hpage
  have hlines := List.map_injective_iff.mpr (fun _ _ he => String.toList_injective he) hpage
  exact flatMap_lines_inj (List.cons.inj hlines).2

end Dot

end PhraseGrammar
