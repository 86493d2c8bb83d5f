import AdvancedXv6.Lib.Effect

/-! Two programs that take the same steps on states of different types. -/

namespace Effect
variable {ε σ τ α β γ δ : Type}

/-- From related states both return related values in related states, or both stop with the same error. -/
def Simulates (R : σ → τ → Prop) (V : α → β → Prop) (m : Prog ε σ α) (m' : Prog ε τ β) : Prop :=
  ∀ s t, R s t → (∃ a b s' t', m s = .ok a s' ∧ m' t = .ok b t' ∧ V a b ∧ R s' t') ∨
    ∃ e s' t', m s = .error e s' ∧ m' t = .error e t'

namespace Simulates
variable {R : σ → τ → Prop} {V : α → β → Prop} {W : γ → δ → Prop} {m : Prog ε σ α} {m' : Prog ε τ β}

protected theorem pure {a : α} {b : β} (h : V a b) : Simulates R V (pure a : Prog ε σ α) (pure b : Prog ε τ β) :=
  fun s t hR => .inl ⟨a, b, s, t, rfl, rfl, h, hR⟩

protected theorem throw (e : ε) : Simulates R V (throw e : Prog ε σ α) (throw e : Prog ε τ β) :=
  fun s t _ => .inr ⟨e, s, t, rfl, rfl⟩

protected theorem bind {f : α → Prog ε σ γ} {f' : β → Prog ε τ δ} (h : Simulates R V m m')
    (hf : ∀ a b, V a b → Simulates R W (f a) (f' b)) : Simulates R W (m >>= f) (m' >>= f') := by
  intro s t hR
  rcases h s t hR with ⟨a, b, s', t', hm, hm', hV, hR'⟩ | ⟨e, s', t', hm, hm'⟩
  · rw [bind_ok hm, bind_ok hm']
    exact hf a b hV s' t' hR'
  · refine .inr ⟨e, s', t', ?_, ?_⟩
    · simp only [bind, EStateM.bind, hm]
    · simp only [bind, EStateM.bind, hm']

protected theorem ite {c : Prop} [Decidable c] {n : Prog ε σ α} {n' : Prog ε τ β} (h : c → Simulates R V m m')
    (h' : ¬c → Simulates R V n n') : Simulates R V (if c then m else n) (if c then m' else n') := by
  by_cases hc : c
  · rw [if_pos hc, if_pos hc]
    exact h hc
  · rw [if_neg hc, if_neg hc]
    exact h' hc

/-- What one program returns, the other one returns too. -/
theorem ok_right (h : Simulates R V m m') {s : σ} {t t' : τ} {b : β} (hR : R s t) (hm : m' t = .ok b t') :
    ∃ a s', m s = .ok a s' ∧ V a b ∧ R s' t' := by
  rcases h s t hR with ⟨a, b', s', u, hs, ht, hV, hR'⟩ | ⟨e, s', u, hs, ht⟩
  · rw [hm] at ht
    cases ht
    exact ⟨a, s', hs, hV, hR'⟩
  · rw [hm] at ht
    cases ht

theorem ok_left (h : Simulates R V m m') {s s' : σ} {t : τ} {a : α} (hR : R s t) (hm : m s = .ok a s') :
    ∃ b t', m' t = .ok b t' ∧ V a b ∧ R s' t' := by
  rcases h s t hR with ⟨a', b, u, t', hs, ht, hV, hR'⟩ | ⟨e, u, t', hs, ht⟩
  · rw [hm] at hs
    cases hs
    exact ⟨b, t', ht, hV, hR'⟩
  · rw [hm] at hs
    cases hs

theorem error_left (h : Simulates R V m m') {s s' : σ} {t : τ} {e : ε} (hR : R s t) (hm : m s = .error e s') :
    ∃ t', m' t = .error e t' := by
  rcases h s t hR with ⟨a, b, u, t', hs, ht, hV, hR'⟩ | ⟨e', u, t', hs, ht⟩
  · rw [hm] at hs
    cases hs
  · rw [hm] at hs
    cases hs
    exact ⟨t', ht⟩

end Simulates

end Effect
