import Mathlib.Logic.Basic
import Mathlib.Tactic.ByContra

/-! Exact ownership: every resource in use has exactly one reference. The rules rename
references, and move one resource from a reference to another. -/

namespace Ownership

variable {ρ α : Type} {V : α → Prop} {R R' : ρ → α → Prop}

/-- `R r a` says that `r` refers to `a`; the resources in `V` are the ones referred to, each by
one reference. -/
structure Exact (V : α → Prop) (R : ρ → α → Prop) : Prop where
  unique : ∀ {r s a}, R r a → R s a → r = s
  valid : ∀ {r a}, R r a → V a
  covered : ∀ {a}, V a → ∃ r, R r a

theorem Exact.ne {r r' : ρ} {a b : α} (h : Exact V R) (ha : R r a) (hb : R r' b) (hr : r ≠ r') :
    a ≠ b := by
  rintro rfl
  exact hr (h.unique ha hb)

/-- The references to `a` are renamed by `φ a`, which may send several names to one. -/
theorem Exact.map (h : Exact V R) (φ : α → ρ → ρ)
    (hR : ∀ r a, R' r a ↔ ∃ r₁, φ a r₁ = r ∧ R r₁ a) : Exact V R' where
  unique := by
    intro r r' a hr hr'
    obtain ⟨r₁, rfl, h₁⟩ := (hR _ _).mp hr
    obtain ⟨r₂, rfl, h₂⟩ := (hR _ _).mp hr'
    rw [h.unique h₁ h₂]
  valid := by
    intro r a hr
    obtain ⟨r₁, _, h₁⟩ := (hR _ _).mp hr
    exact h.valid h₁
  covered := by
    intro a hv
    obtain ⟨r, hr⟩ := h.covered hv
    exact ⟨φ a r, (hR _ _).mpr ⟨r, rfl, hr⟩⟩

theorem Exact.congr (h : Exact V R) (hR : ∀ r a, R' r a ↔ R r a) : Exact V R' :=
  h.map (fun _ r => r) fun r a => by
    rw [hR]
    simp only [exists_eq_left]

/-- The resource `a` is referred to by `r₀` from now on, the others stay as they were. -/
theorem Exact.move [DecidableEq α] {a : α} {r₁ : ρ} (h : Exact V R) (r₀ : ρ) (ha : R r₁ a)
    (hR : ∀ r b, R' r b ↔ (b = a ∧ r = r₀) ∨ (b ≠ a ∧ R r b)) : Exact V R' := by
  refine h.map (fun b r => if b = a then r₀ else r) fun r b => ?_
  rw [hR]
  by_cases hb : b = a
  · subst hb
    simp only [true_and, ne_eq, not_true_eq_false, false_and, or_false, if_true]
    exact ⟨fun hr => ⟨r₁, hr.symm, ha⟩, fun hr => hr.choose_spec.1.symm⟩
  · simp only [hb, false_and, false_or, ne_eq, not_false_eq_true, true_and, if_false,
      exists_eq_left]

/-- A resource that was not in use is given to `r₀`. -/
theorem Exact.gain {V' : α → Prop} {a : α} (h : Exact V R) (r₀ : ρ) (ha : ¬V a)
    (hV : ∀ b, V' b ↔ V b ∨ b = a) (hR : ∀ r b, R' r b ↔ R r b ∨ (r = r₀ ∧ b = a)) : Exact V' R' where
  unique := by
    intro r s b hr hs
    rcases (hR r b).mp hr with hr | ⟨rfl, rfl⟩
    · rcases (hR s b).mp hs with hs | ⟨rfl, rfl⟩
      · exact h.unique hr hs
      · exact absurd (h.valid hr) ha
    · rcases (hR s b).mp hs with hs | ⟨rfl, -⟩
      · exact absurd (h.valid hs) ha
      · rfl
  valid := by
    intro r b hr
    exact (hV b).mpr (((hR r b).mp hr).imp h.valid And.right)
  covered := by
    intro b hb
    rcases (hV b).mp hb with hb | rfl
    · obtain ⟨r, hr⟩ := h.covered hb
      exact ⟨r, (hR r b).mpr (.inl hr)⟩
    · exact ⟨r₀, (hR r₀ b).mpr (.inr ⟨rfl, rfl⟩)⟩

/-- A resource is no longer in use. -/
theorem Exact.lose {V' : α → Prop} {a : α} (h : Exact V R) (hV : ∀ b, V' b ↔ V b ∧ b ≠ a)
    (hR : ∀ r b, R' r b ↔ R r b ∧ b ≠ a) : Exact V' R' where
  unique := fun hr hs => h.unique ((hR _ _).mp hr).1 ((hR _ _).mp hs).1
  valid := by
    intro r b hr
    obtain ⟨hr, hb⟩ := (hR r b).mp hr
    exact (hV b).mpr ⟨h.valid hr, hb⟩
  covered := by
    intro b hb
    obtain ⟨hb, hne⟩ := (hV b).mp hb
    obtain ⟨r, hr⟩ := h.covered hb
    exact ⟨r, (hR r b).mpr ⟨hr, hne⟩⟩

open Classical in
/-- All resources in `S` are referred to by `h` from now on. -/
theorem Exact.collect {h : ρ} {S : α → Prop} (hR : Exact V R) (hS : ∀ a, S a → ∃ r, R r a)
    (hh : ∀ a, R' h a ↔ S a ∨ R h a) (ho : ∀ r a, r ≠ h → (R' r a ↔ R r a ∧ ¬S a)) :
    Exact V R' := by
  refine hR.map (fun a r => if S a then h else r) fun r a => ?_
  by_cases hr : r = h
  · subst hr
    rw [hh]
    by_cases ha : S a
    · simp only [ha, true_or, if_true, true_and, true_iff]
      exact hS a ha
    · simp [ha]
  · rw [ho r a hr]
    by_cases ha : S a
    · simp [ha, Ne.symm hr]
    · simp [ha]

/-- What `u` refers to, if anything, changes places with one of the resources of `h`. -/
theorem Exact.exchange [DecidableEq α] {u h : ρ} {x y : Option α} {S : α → Prop} (hR : Exact V R)
    (huh : u ≠ h) (hu : ∀ a, R u a ↔ x = some a) (hh : ∀ a, R h a ↔ y = some a ∨ S a)
    (hS : ∀ a, y = some a → ¬S a) (hu' : ∀ a, R' u a ↔ y = some a)
    (hh' : ∀ a, R' h a ↔ x = some a ∨ S a) (ho : ∀ r a, r ≠ u → r ≠ h → (R' r a ↔ R r a)) :
    Exact V R' := by
  have hdisj {a : α} (hx : x = some a) : ¬(y = some a ∨ S a) := fun hy =>
    huh (hR.unique ((hu a).mpr hx) ((hh a).mpr hy))
  refine hR.map (fun a r => if y = some a then u else if x = some a then h else r) fun r a => ?_
  by_cases hy : y = some a
  · have hx : x ≠ some a := fun hx => hdisj hx (.inl hy)
    simp only [hy, if_true]
    constructor
    · intro hr
      refine ⟨h, ?_, (hh a).mpr (.inl hy)⟩
      by_contra hru
      by_cases hrh : r = h
      · subst hrh
        exact ((hh' a).mp hr).elim hx (hS a hy)
      · exact hrh (hR.unique ((ho r a (Ne.symm hru) hrh).mp hr) ((hh a).mpr (.inl hy)))
    · rintro ⟨_, rfl, _⟩
      exact (hu' a).mpr hy
  · simp only [hy, if_false]
    by_cases hx : x = some a
    · simp only [hx, if_true]
      constructor
      · intro hr
        refine ⟨u, ?_, (hu a).mpr hx⟩
        by_contra hrh
        by_cases hru : r = u
        · subst hru
          exact hy ((hu' a).mp hr)
        · exact hru (hR.unique ((ho r a hru (Ne.symm hrh)).mp hr) ((hu a).mpr hx))
      · rintro ⟨_, rfl, _⟩
        exact (hh' a).mpr (.inl hx)
    · simp only [hx, if_false, exists_eq_left]
      by_cases hru : r = u
      · subst hru
        rw [hu, hu']
        exact ⟨fun h => absurd h hy, fun h => absurd h hx⟩
      · by_cases hrh : r = h
        · subst hrh
          rw [hh, hh']
          simp [hx, hy]
        · exact ho r a hru hrh

end Ownership
