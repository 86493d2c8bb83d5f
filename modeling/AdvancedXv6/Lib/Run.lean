import Mathlib.Logic.Basic

/-! Runs of a system whose steps are labelled and may be impossible, and the induction rules
for them. -/

namespace Run

variable {σ ε : Type} {step : σ → ε → Option σ} {s t u : σ} {e : ε} {es es' : List ε}

/-- The state after the events, if each of them is possible where it happens. -/
def exec (step : σ → ε → Option σ) : σ → List ε → Option σ
  | s, [] => some s
  | s, e :: es => (step s e).bind fun t => exec step t es

/-- `C` holds of every step: the state before it, its label and the state after it. -/
def Always (step : σ → ε → Option σ) (C : σ → ε → σ → Prop) : σ → List ε → Prop
  | _, [] => True
  | s, e :: es => ∀ t, step s e = some t → C s e t ∧ Always step C t es

attribute [local simp] exec Always

instance Always.decidable {C : σ → ε → σ → Prop} [∀ s e t, Decidable (C s e t)] :
    ∀ s es, Decidable (Always step C s es)
  | _, [] => .isTrue trivial
  | s, e :: es => match h : step s e with
    | none => .isTrue fun t ht => absurd (h.symm.trans ht) (Option.some_ne_none t).symm
    | some t =>
      let _ := Always.decidable (C := C) t es
      decidable_of_iff (C s e t ∧ Always step C t es)
        ⟨fun hC _ hu => Option.some.inj (h.symm.trans hu) ▸ hC, fun hC => hC t h⟩

/-- Some run leads from `s` to `t`. -/
def Reaches (step : σ → ε → Option σ) (s t : σ) : Prop := ∃ es, exec step s es = some t

theorem exec_cons (h : step s e = some t) : exec step s (e :: es) = exec step t es := by
  rw [exec, h, Option.bind_some]

theorem exec_cons_some : exec step s (e :: es) = some u ↔
    ∃ t, step s e = some t ∧ exec step t es = some u := by
  rw [exec, Option.bind_eq_some_iff]

theorem exec_append : exec step s (es ++ es') = (exec step s es).bind (exec step · es') := by
  induction es generalizing s with
  | nil => rfl
  | cons e es ih =>
    rw [List.cons_append, exec, exec]
    cases step s e with
    | none => rfl
    | some t => exact ih

theorem Reaches.refl (s : σ) : Reaches step s s := ⟨[], rfl⟩

theorem Reaches.exec (h : Reaches step s t) (ht : Run.exec step t es = some u) :
    Reaches step s u := by
  obtain ⟨es₀, h₀⟩ := h
  refine ⟨es₀ ++ es, ?_⟩
  rw [exec_append, h₀, Option.bind_some, ht]

theorem Reaches.next (h : Reaches step s t) (ht : step t e = some u) : Reaches step s u :=
  h.exec (exec_cons ht : Run.exec step t [e] = some u)

theorem invariant {I : σ → Prop} (hstep : ∀ s e t, I s → step s e = some t → I t) (h : I s)
    (hes : exec step s es = some t) : I t := by
  induction es generalizing s with
  | nil => exact Option.some.inj hes ▸ h
  | cons e es ih =>
    obtain ⟨s', hs', hes⟩ := exec_cons_some.mp hes
    exact ih (hstep s e s' h hs') hes

theorem Reaches.invariant {I : σ → Prop} (hr : Reaches step s t)
    (hstep : ∀ s e t, I s → step s e = some t → I t) (h : I s) : I t := by
  obtain ⟨es, hes⟩ := hr
  exact Run.invariant hstep h hes

section Always
variable {C D : σ → ε → σ → Prop}

/-- An invariant of the steps that meet `D` gives `C` of each of them. -/
theorem Always.of_invariant {I : σ → Prop}
    (hstep : ∀ s e t, I s → D s e t → step s e = some t → I t ∧ C s e t) (h : I s)
    (hD : Always step D s es) : Always step C s es := by
  induction es generalizing s with
  | nil => exact trivial
  | cons e es ih =>
    intro t ht
    obtain ⟨hd, hD⟩ := hD t ht
    obtain ⟨hI, hC⟩ := hstep s e t h hd ht
    exact ⟨hC, ih hI hD⟩

theorem Always.mono (hstep : ∀ s e t, D s e t → step s e = some t → C s e t)
    (hD : Always step D s es) : Always step C s es :=
  .of_invariant (I := fun _ => True) (fun s e t _ hd ht => ⟨trivial, hstep s e t hd ht⟩) trivial hD

theorem Always.and (h : Always step C s es) (h' : Always step D s es) :
    Always step (fun s e t => C s e t ∧ D s e t) s es := by
  induction es generalizing s with
  | nil => exact trivial
  | cons e es ih => exact fun t ht => ⟨⟨(h t ht).1, (h' t ht).1⟩, ih (h t ht).2 (h' t ht).2⟩

/-- What holds of the events themselves. -/
theorem Always.of_mem (h : ∀ e ∈ es, ∀ s t, C s e t) : Always step C s es := by
  induction es generalizing s with
  | nil => exact trivial
  | cons e es ih =>
    exact fun t _ => ⟨h e (List.mem_cons_self ..) s t,
      ih fun e' he' => h e' (List.mem_cons_of_mem _ he')⟩

/-- What the steps that meet `D` keep. -/
theorem Always.invariant {I : σ → Prop} (hD : Always step D s es)
    (hstep : ∀ s e t, I s → D s e t → step s e = some t → I t) (h : I s)
    (hes : exec step s es = some t) : I t := by
  induction es generalizing s with
  | nil => exact Option.some.inj hes ▸ h
  | cons e es ih =>
    obtain ⟨s', hs', hes⟩ := exec_cons_some.mp hes
    obtain ⟨hd, hD⟩ := hD s' hs'
    exact ih hD (hstep s e s' h hd hs') hes

/-- Two properties of the steps that agree as long as the first of them has held. -/
theorem always_congr {I : σ → Prop} (hstep : ∀ s e t, I s → step s e = some t → (C s e t ↔ D s e t) ∧ (C s e t → I t))
    (h : I s) : Always step C s es ↔ Always step D s es := by
  induction es generalizing s with
  | nil => exact Iff.rfl
  | cons e es ih =>
    refine forall₂_congr fun t ht => ?_
    obtain ⟨hiff, hI⟩ := hstep s e t h ht
    rw [← hiff]
    exact and_congr_right fun hc => ih (hI hc)

theorem always_append : Always step C s (es ++ es') ↔
    Always step C s es ∧ ∀ t, exec step s es = some t → Always step C t es' := by
  induction es generalizing s with
  | nil => simp
  | cons e es ih =>
    simp only [List.cons_append, Always, exec_cons_some, ih]
    constructor
    · intro h
      refine ⟨fun t ht => ⟨(h t ht).1, (h t ht).2.1⟩, fun u hu => ?_⟩
      obtain ⟨t, ht, hu⟩ := hu
      exact (h t ht).2.2 u hu
    · rintro ⟨h, h'⟩ t ht
      exact ⟨(h t ht).1, (h t ht).2, fun u hu => h' u ⟨t, ht, hu⟩⟩

end Always

/-! ### Projections -/

section Project
variable {σ' : Type} {step' : σ' → ε → Option σ'} {f : σ' → σ} {s' t' : σ'}
  {C : σ → ε → σ → Prop}

/-- A system whose steps are steps of another one has its runs only. -/
theorem exec_project (hf : ∀ s e t, step' s e = some t → step (f s) e = some (f t))
    (h : exec step' s' es = some t') : exec step (f s') es = some (f t') := by
  induction es generalizing s' with
  | nil => exact Option.some.inj h ▸ rfl
  | cons e es ih =>
    obtain ⟨u, hu, h⟩ := exec_cons_some.mp h
    rw [exec_cons (hf s' e u hu)]
    exact ih h

theorem Always.project (hf : ∀ s e t, step' s e = some t → step (f s) e = some (f t))
    (h : Always step C (f s') es) : Always step' (fun s e t => C (f s) e (f t)) s' es := by
  induction es generalizing s' with
  | nil => exact trivial
  | cons e es ih =>
    intro u hu
    have := h (f u) (hf s' e u hu)
    exact ⟨this.1, ih this.2⟩

end Project

/-! ### Runs of a relation -/

/-- The steps `es` lead from `s` to the last state. -/
inductive Path (R : σ → ε → σ → Prop) : σ → List ε → σ → Prop
  | nil (s : σ) : Path R s [] s
  | cons {s t u : σ} {e : ε} {es : List ε} (h : R s e t) (hes : Path R t es u) : Path R s (e :: es) u

namespace Path
variable {R R' : σ → ε → σ → Prop}

/-- What each step keeps, a run keeps. -/
theorem invariant {I : σ → Prop} (hstep : ∀ s e t, I s → R s e t → I t) (hes : Path R s es t) (h : I s) :
    I t := by
  induction hes with
  | nil => exact h
  | cons hR _ ih => exact ih (hstep _ _ _ h hR)

theorem mono (hR : ∀ s e t, R s e t → R' s e t) (hes : Path R s es t) : Path R' s es t := by
  induction hes with
  | nil s => exact .nil s
  | cons h _ ih => exact .cons (hR _ _ _ h) ih

end Path

end Run
