import AdvancedXv6.Lib.Prefixes

/-! The matcher of `grep`. A string is the list of its characters before the NUL. -/

namespace Xv6.Strings.Grep
open Prefixes Computability

abbrev Str := List UInt8

@[match_pattern] abbrev dollar : UInt8 := 36
@[match_pattern] abbrev star : UInt8 := 42
@[match_pattern] abbrev dot : UInt8 := 46
@[match_pattern] abbrev caret : UInt8 := 94

/-- search for `c*` and what `here` finds at the beginning of text, where `here` is `matchhere(re, ·)` -/
def matchstar (here : Str → Bool) (c : UInt8) : Str → Bool
  | [] => here []
  | x :: text => here (x :: text) || ((x == c || c == dot) && matchstar here c text)

/-- search for re at beginning of text -/
def matchhere : Str → Str → Bool
  | [], _ => true
  | c :: star :: re, text => matchstar (matchhere re) c text
  | [dollar], text => text.isEmpty
  | _ :: _, [] => false
  | c :: re, x :: text => (c == dot || c == x) && matchhere re text

/-- the loop of `match`, which also looks at the empty string -/
def matchAny (here : Str → Bool) : Str → Bool
  | [] => here []
  | x :: text => here (x :: text) || matchAny here text

/-- `match` -/
def matches' : Str → Str → Bool
  | caret :: re, text => matchhere re text
  | re, text => matchAny (matchhere re) text

/-! ### The language of a pattern -/

/-- What a character of the pattern stands for. -/
def Means (c x : UInt8) : Prop := c = dot ∨ x = c

/-- The words that a pattern without its leading `^` and its final `$` stands for. -/
def language : Str → Language UInt8
  | [] => 1
  | c :: star :: re => (letter (Means c))∗ * language re
  | [dollar] => 1
  | c :: re => letter (Means c) * language re

/-- The pattern ends in a `$` that is not repeated. -/
def atEnd : Str → Bool
  | [] => false
  | _ :: star :: re => atEnd re
  | [dollar] => true
  | _ :: re => atEnd re

/-- What the pattern asks of the text after the word. -/
def Ends (re rest : Str) : Prop := atEnd re = true → rest = []

/-- The pattern without its leading `^`. -/
def body : Str → Str
  | caret :: re => re
  | re => re

def anchored (re : Str) : Prop := re.head? = some caret

instance (re : Str) : Decidable (anchored re) := inferInstanceAs (Decidable (re.head? = some caret))

variable {here : Str → Bool} {P : Str → Prop} {c x : UInt8} {re text : Str}

theorem matchstar_iff (h : ∀ text, here text = true ↔ P text) :
    matchstar here c text = true ↔ Begins (letter (Means c))∗ P text := by
  induction text with
  | nil => rw [matchstar, h, begins_letter_kstar_nil]
  | cons x text ih =>
    rw [matchstar, Bool.or_eq_true, Bool.and_eq_true, Bool.or_eq_true, beq_iff_eq, beq_iff_eq, h, ih,
      begins_letter_kstar_cons, Means, or_comm (a := x = c)]

theorem matchAny_iff (h : ∀ text, here text = true ↔ P text) :
    matchAny here text = true ↔ ∃ before rest, text = before ++ rest ∧ P rest := by
  induction text with
  | nil =>
    rw [matchAny, h]
    constructor
    · intro hP
      exact ⟨[], [], rfl, hP⟩
    · rintro ⟨before, rest, heq, hP⟩
      rwa [(List.append_eq_nil_iff.mp heq.symm).2] at hP
  | cons x text ih =>
    rw [matchAny, Bool.or_eq_true, h, ih]
    constructor
    · rintro (hP | ⟨before, rest, rfl, hP⟩)
      · exact ⟨[], x :: text, rfl, hP⟩
      · exact ⟨x :: before, rest, rfl, hP⟩
    · rintro ⟨_ | ⟨y, before⟩, rest, heq, hP⟩
      · exact .inl (heq.symm ▸ hP)
      · exact .inr ⟨before, rest, (List.cons.inj heq).2, hP⟩

/-- The induction follows the pattern, the text is used up by the characters and by the loop of `matchstar`. -/
theorem matchhere_iff : matchhere re text = true ↔ Begins (language re) (Ends re) text := by
  induction re using language.induct generalizing text with
  | case1 =>
    rw [matchhere, language, begins_one]
    exact ⟨fun _ hend => absurd hend Bool.false_ne_true, fun _ => rfl⟩
  | case2 c re ih =>
    change matchstar (matchhere re) c text = true ↔ Begins ((letter (Means c))∗ * language re) (Ends re) text
    rw [matchstar_iff fun text => ih, begins_mul]
  | case3 =>
    rw [matchhere, language, begins_one, List.isEmpty_iff]
    exact ⟨fun hnil _ => hnil, fun hends => hends rfl⟩
  | case4 c re hstar hlast ih =>
    have hends : Ends (c :: re) = Ends re := by
      funext rest
      rw [Ends, Ends, atEnd.eq_4 c re hstar hlast]
    rw [language.eq_4 c re hstar hlast, begins_mul, hends]
    cases text with
    | nil =>
      rw [matchhere.eq_4 c re hstar hlast]
      exact ⟨fun h => absurd h Bool.false_ne_true, fun h => absurd h not_begins_letter_nil⟩
    | cons x text =>
      rw [matchhere.eq_5 c re x text hstar hlast, Bool.and_eq_true, Bool.or_eq_true, beq_iff_eq, beq_iff_eq, ih, begins_letter_cons,
        Means, eq_comm (a := c) (b := x)]

/-- The matcher finds the words of the pattern's language in the text. -/
theorem matches_iff : matches' re text = true ↔ ∃ before word after, text = before ++ word ++ after ∧
    (anchored re → before = []) ∧ word ∈ language (body re) ∧ (atEnd (body re) = true → after = []) := by
  by_cases hcaret : anchored re
  · obtain ⟨re, rfl⟩ : ∃ tail, re = caret :: tail := by
      cases re with
      | nil => exact absurd hcaret (Option.some_ne_none _).symm
      | cons c re => exact ⟨re, congrArg (· :: re) (Option.some.inj hcaret)⟩
    change matchhere re text = true ↔ _
    rw [matchhere_iff]
    constructor
    · rintro ⟨word, hword, after, rfl, hends⟩
      exact ⟨[], word, after, rfl, fun _ => rfl, hword, hends⟩
    · rintro ⟨before, word, after, rfl, hfirst, hword, hends⟩
      rw [hfirst hcaret]
      exact ⟨word, hword, after, rfl, hends⟩
  · have hbody : body re = re := body.eq_2 re fun tail h => hcaret (h ▸ rfl)
    rw [matches'.eq_2 re text fun tail h => hcaret (h ▸ rfl), matchAny_iff fun _ => matchhere_iff, hbody]
    constructor
    · rintro ⟨before, _, rfl, word, hword, after, rfl, hends⟩
      exact ⟨before, word, after, (List.append_assoc ..).symm, fun h => absurd h hcaret, hword, hends⟩
    · rintro ⟨before, word, after, rfl, -, hword, hends⟩
      exact ⟨before, word ++ after, List.append_assoc .., word, hword, after, rfl, hends⟩

/-- `^a*b$` on `aab` and on `aabc`, and `*` at the beginning, which is an ordinary character. -/
example : matches' [caret, 97, star, 98, dollar] [97, 97, 98] = true ∧
    matches' [caret, 97, star, 98, dollar] [97, 97, 98, 99] = false ∧ matches' [star] [97, star] = true := by decide

end Xv6.Strings.Grep
