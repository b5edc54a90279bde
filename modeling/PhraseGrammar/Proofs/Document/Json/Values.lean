import Mathlib.Tactic.FinCases
import PhraseGrammar.Document.Json.Reader

/-! The values that JSON text can hold. Of all values a document may have, only some are written in
JSON, and keys are strings; a part that is none of these is one where the text goes wrong. -/
namespace PhraseGrammar

namespace Value

mutual

/-- A value that JSON has a notation for, in all its parts. -/
def isJson : Value → Bool
  | null | boolean _ | natural _ | signed _ | float _ | text _ => true
  | list items => isJsonItems items
  | map entries => isJsonEntries entries
  | _ => false

def isJsonItems : List Value → Bool
  | [] => true
  | item :: items => item.isJson && isJsonItems items

def isJsonEntries : List (Value × Value) → Bool
  | [] => true
  | (key,value) :: entries => key.text?.isSome && value.isJson && isJsonEntries entries

end

theorem text?_isSome {v : Value} : v.text?.isSome = true ↔ ∃ s, v = .text s := by
  cases v <;> simp [text?]

theorem isJsonItems_iff {items : List Value} :
    isJsonItems items = true ↔ ∀ item ∈ items, item.isJson = true := by
  induction items with
  | nil => simp [isJsonItems]
  | cons item items ih => simp [isJsonItems,ih]

theorem isJsonEntries_iff {entries : List (Value × Value)} : isJsonEntries entries = true ↔
    ∀ e ∈ entries, (∃ key, e.1 = .text key) ∧ e.2.isJson = true := by
  induction entries with
  | nil => simp [isJsonEntries]
  | cons e entries ih =>
    rw [isJsonEntries,Bool.and_eq_true,Bool.and_eq_true,ih,text?_isSome,List.forall_mem_cons]

mutual

theorem complete_of_isJson : ∀ {v : Value}, v.isJson = true → v.complete = true
  | list _, h => completeItems_of_isJson h
  | map _, h => completeEntries_of_isJson h
  | null, _ | boolean _, _ | natural _, _ | signed _, _ | float _, _ | text _, _ => rfl

theorem completeItems_of_isJson :
    ∀ {items : List Value}, isJsonItems items = true → completeItems items = true
  | [], _ => rfl
  | item :: items, h => by
    rw [isJsonItems,Bool.and_eq_true] at h
    rw [completeItems,complete_of_isJson h.1,completeItems_of_isJson h.2]
    rfl

theorem completeEntries_of_isJson : ∀ {entries : List (Value × Value)},
    isJsonEntries entries = true → completeEntries entries = true
  | [], _ => rfl
  | (key,value) :: entries, h => by
    rw [isJsonEntries,Bool.and_eq_true,Bool.and_eq_true,text?_isSome] at h
    obtain ⟨⟨⟨s,rfl⟩,hvalue⟩,hrest⟩ := h
    rw [completeEntries,complete_of_isJson hvalue,completeEntries_of_isJson hrest]
    rfl

end

end Value

namespace Json

/-- Every leaf among the tokens is a value of its own. -/
def Leaves (ts : List Token) : Prop := ∀ v, .leaf v ∈ ts → v.isJson = true

theorem Leaves.tail {t : Token} {ts : List Token} (h : Leaves (t :: ts)) : Leaves ts :=
  fun v hv => h v (List.mem_cons_of_mem t hv)

theorem leaves_nil : Leaves [] := fun _ hv => absurd hv List.not_mem_nil

theorem isJson_of_constant? {cs rest : List Char} {v : Value}
    (h : constant? cs = some (.leaf v,rest)) : v.isJson = true := by
  obtain ⟨⟨name,w⟩,hmem,hname⟩ := List.exists_of_findSome?_eq_some h
  obtain ⟨_,-,he⟩ := Option.map_eq_some_iff.mp hname
  obtain rfl := Token.leaf.inj (Prod.mk.inj he).1
  fin_cases hmem <;> rfl

theorem isJson_of_float? {negative : Bool} {m : Nat} {e : Int} {v : Value}
    (h : Numeral.float? negative m e = some v) : v.isJson = true := by
  obtain ⟨x,-,rfl⟩ := Option.map_eq_some_iff.mp h
  rfl

theorem isJson_of_number? {negative : Bool} {cs rest : List Char} {v : Value}
    (h : number? negative cs = some (.leaf v,rest)) : v.isJson = true := by
  simp only [number?,Option.bind_eq_bind,Option.bind_eq_some_iff,pure,Option.some.injEq,
    Prod.mk.injEq,Token.leaf.injEq] at h
  obtain ⟨⟨n,_⟩,-,_,hvalue,rfl,-⟩ := h
  rw [Numeral.value?] at hvalue
  dsimp only at hvalue
  split at hvalue
  · split at hvalue
    · exact Option.some.inj hvalue ▸ rfl
    · split at hvalue
      · exact isJson_of_float? hvalue
      · exact Option.some.inj hvalue ▸ rfl
  · exact isJson_of_float? hvalue

theorem isJson_of_string? {cs rest : List Char} {v : Value}
    (h : string? cs = some (.leaf v,rest)) : v.isJson = true := by
  simp only [string?,Option.bind_eq_bind,Option.bind_eq_some_iff,pure,Option.some.injEq,
    Prod.mk.injEq,Token.leaf.injEq] at h
  obtain ⟨-,-,s,-,rfl,-⟩ := h
  rfl

theorem isJson_of_token? {c : Char} {cs rest : List Char} {v : Value}
    (h : token? c cs = some (.leaf v,rest)) : v.isJson = true := by
  rw [token?] at h
  split at h
  · cases h
  · split at h
    · exact isJson_of_string? h
    · split at h
      · exact isJson_of_number? h
      · split at h
        · exact isJson_of_number? h
        · exact isJson_of_constant? h

theorem leaves_tokensWithin (n : Nat) (cs : List Char) : Leaves (tokensWithin n cs) := by
  induction n generalizing cs with
  | zero =>
    intro v hv
    cases cs <;> simp [tokensWithin] at hv
  | succ n ih =>
    cases cs with
    | nil => exact leaves_nil
    | cons c cs =>
      rw [tokensWithin]
      split
      · exact ih cs
      · cases htoken : token? c cs with
        | none => simp [Leaves]
        | some found =>
          obtain ⟨t,rest⟩ := found
          intro v hv
          rcases List.mem_cons.mp hv with rfl | hv
          · exact isJson_of_token? htoken
          · exact ih rest v hv

/-- Only leaves of before are left, and whatever is read without going wrong is a value that JSON
has a notation for. -/
theorem isJson_within (n : Nat) :
    (∀ depth ts, Leaves ts → Leaves (value n depth ts).2 ∧
      ((value n depth ts).1.complete = true → (value n depth ts).1.isJson = true)) ∧
    (∀ depth ts, Leaves ts → Leaves (items n depth ts).2 ∧
      (Value.completeItems (items n depth ts).1 = true →
        Value.isJsonItems (items n depth ts).1 = true)) ∧
    ∀ depth ts, Leaves ts → Leaves (entries n depth ts).2 ∧
      (Value.completeEntries (entries n depth ts).1 = true →
        Value.isJsonEntries (entries n depth ts).1 = true) := by
  induction n with
  | zero =>
    simp [value,items,entries,leaves_nil,Value.complete,Value.completeItems,Value.completeEntries]
  | succ n ih =>
    obtain ⟨hvalue,hitems,hentries⟩ := ih
    refine ⟨fun depth ts hts => ?_,fun depth ts hts => ?_,fun depth ts hts => ?_⟩
      <;> generalize hm : n + 1 = m
    · fun_cases value m depth ts with
      | case1 m depth v ts => exact ⟨hts.tail,fun _ => hts v List.mem_cons_self⟩
      | case2 m depth ts => exact ⟨hts.tail.tail,fun _ => rfl⟩
      | case3 m depth ts vs rest _ he =>
        obtain rfl := Nat.succ.inj hm
        exact hitems depth ts hts.tail
      | case4 m depth ts => exact ⟨hts.tail.tail,fun _ => rfl⟩
      | case5 m depth ts es rest _ he =>
        obtain rfl := Nat.succ.inj hm
        exact hentries depth ts hts.tail
      | case6 => simp [leaves_nil,Value.complete]
    · fun_cases items m depth ts with
      | case1 => cases hm
      | case2 m depth ts v rest he vs rest' he' =>
        obtain rfl := Nat.succ.inj hm
        obtain ⟨hrest,hv⟩ := he ▸ hvalue depth ts hts
        obtain ⟨hrest',hvs⟩ := he' ▸ hitems depth rest hrest.tail
        simp only [Value.completeItems,Value.isJsonItems,Bool.and_eq_true]
        exact ⟨hrest',And.imp hv hvs⟩
      | case3 m depth ts v rest he =>
        obtain rfl := Nat.succ.inj hm
        obtain ⟨hrest,hv⟩ := he ▸ hvalue depth ts hts
        simp only [Value.completeItems,Value.isJsonItems,Bool.and_true]
        exact ⟨hrest.tail,hv⟩
      | case4 => simp [leaves_nil,Value.completeItems,Value.complete]
    · fun_cases entries m depth ts with
      | case1 m depth key ts v rest he es rest' he' =>
        obtain rfl := Nat.succ.inj hm
        obtain ⟨hrest,hv⟩ := he ▸ hvalue depth ts hts.tail.tail
        obtain ⟨hrest',hes⟩ := he' ▸ hentries depth rest hrest.tail
        simp only [Value.completeEntries,Value.isJsonEntries,Value.text?,Value.complete,
          Option.isSome_some,Bool.true_and,Bool.and_eq_true]
        exact ⟨hrest',And.imp hv hes⟩
      | case2 m depth key ts v rest he =>
        obtain rfl := Nat.succ.inj hm
        obtain ⟨hrest,hv⟩ := he ▸ hvalue depth ts hts.tail.tail
        simp only [Value.completeEntries,Value.isJsonEntries,Value.text?,Value.complete,
          Option.isSome_some,Bool.true_and,Bool.and_true]
        exact ⟨hrest.tail,hv⟩
      | case3 => simp [leaves_nil,Value.completeEntries,Value.complete]
      | case4 => simp [leaves_nil,Value.completeEntries,Value.complete]

theorem isJson_of_read {text : String} (h : (read text).root.complete = true) :
    (read text).root.isJson = true :=
  ((isJson_within (2 * (tokens text).length + 1)).1 maxDepth (tokens text)
    (leaves_tokensWithin _ _)).2 h

end Json

end PhraseGrammar
