import Mathlib.Computability.Language

/-! Texts that begin with a word of a language, read from left to right: what the rest satisfies is a continuation. -/

namespace Prefixes
open Computability
variable {α : Type} {l m : Language α} {P Q : List α → Prop} {S : α → Prop} {text : List α} {x : α}

/-- The text is a word of the language and a rest with the property. -/
def Begins (l : Language α) (P : List α → Prop) (text : List α) : Prop := ∃ w ∈ l, ∃ rest, text = w ++ rest ∧ P rest

/-- The words of one letter out of a set. -/
def letter (S : α → Prop) : Language α := {w | ∃ x, w = [x] ∧ S x}

theorem begins_one : Begins 1 P text ↔ P text := by
  constructor
  · rintro ⟨w, hw, rest, rfl, hP⟩
    rw [(Language.mem_one w).mp hw]
    exact hP
  · intro hP
    exact ⟨[], Language.nil_mem_one, text, rfl, hP⟩

theorem begins_add : Begins (l + m) P text ↔ Begins l P text ∨ Begins m P text := by
  constructor
  · rintro ⟨w, hw, hrest⟩
    exact ((Language.mem_add l m w).mp hw).imp (fun h => ⟨w, h, hrest⟩) fun h => ⟨w, h, hrest⟩
  · rintro (⟨w, hw, hrest⟩ | ⟨w, hw, hrest⟩)
    · exact ⟨w, (Language.mem_add l m w).mpr (.inl hw), hrest⟩
    · exact ⟨w, (Language.mem_add l m w).mpr (.inr hw), hrest⟩

theorem begins_mul : Begins (l * m) P text ↔ Begins l (Begins m P) text := by
  constructor
  · rintro ⟨w, hw, rest, rfl, hP⟩
    obtain ⟨a, ha, b, hb, rfl⟩ := Language.mem_mul.mp hw
    exact ⟨a, ha, b ++ rest, List.append_assoc .., b, hb, rest, rfl, hP⟩
  · rintro ⟨a, ha, _, rfl, b, hb, rest, rfl, hP⟩
    exact ⟨a ++ b, Language.append_mem_mul ha hb, rest, (List.append_assoc ..).symm, hP⟩

theorem not_begins_letter_nil : ¬ Begins (letter S) P [] := by
  rintro ⟨w, ⟨x, rfl, -⟩, rest, heq, -⟩
  exact List.cons_ne_nil x _ heq.symm

theorem begins_letter_cons : Begins (letter S) P (x :: text) ↔ S x ∧ P text := by
  constructor
  · rintro ⟨w, ⟨y, rfl, hy⟩, rest, heq, hP⟩
    obtain ⟨rfl, rfl⟩ := List.cons.inj heq
    exact ⟨hy, hP⟩
  · rintro ⟨hx, hP⟩
    exact ⟨[x], ⟨x, rfl, hx⟩, text, rfl, hP⟩

/-- A repetition is not entered, or entered once and then again. -/
theorem begins_kstar : Begins l∗ P text ↔ P text ∨ Begins l (Begins l∗ P) text := by
  conv_lhs => rw [← Language.one_add_self_mul_kstar_eq_kstar]
  rw [begins_add, begins_one, begins_mul]

theorem begins_letter_kstar_nil : Begins (letter S)∗ P [] ↔ P [] := by
  rw [begins_kstar, or_iff_left not_begins_letter_nil]

theorem begins_letter_kstar_cons :
    Begins (letter S)∗ P (x :: text) ↔ P (x :: text) ∨ S x ∧ Begins (letter S)∗ P text := by
  rw [begins_kstar, begins_letter_cons]

end Prefixes
