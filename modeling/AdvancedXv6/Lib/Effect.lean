import Mathlib.Logic.Basic

/-! Stateful programs that can stop with an error: weakest preconditions, and one
invariant rule for each shape of loop. -/

namespace Effect

abbrev Prog (ε σ α : Type) := EStateM ε σ α

variable {ε σ α β : Type}

/-- From `s` the program returns a value and a state in `Q`, or stops with an error and a state
in `E`. -/
def wp (m : Prog ε σ α) (s : σ) (Q : α → σ → Prop) (E : ε → σ → Prop) : Prop :=
  match m s with
  | .ok a t => Q a t
  | .error e t => E e t

section Rules
variable {Q Q' : α → σ → Prop} {E E' : ε → σ → Prop} {s s' : σ}

@[simp] theorem wp_pure (a : α) : wp (pure a : Prog ε σ α) s Q E ↔ Q a s := Iff.rfl

@[simp] theorem wp_get {Q : σ → σ → Prop} : wp (get : Prog ε σ σ) s Q E ↔ Q s s := Iff.rfl

@[simp] theorem wp_modify {Q : Unit → σ → Prop} (f : σ → σ) :
    wp (modify f : Prog ε σ Unit) s Q E ↔ Q () (f s) := Iff.rfl

@[simp] theorem wp_throw (e : ε) : wp (throw e : Prog ε σ α) s Q E ↔ E e s := Iff.rfl

@[simp] theorem wp_bind {R : β → σ → Prop} (m : Prog ε σ α) (f : α → Prog ε σ β) :
    wp (m >>= f) s R E ↔ wp m s (fun a t => wp (f a) t R E) E := by
  simp only [wp, bind, EStateM.bind]
  cases m s with
  | ok a t => rfl
  | error e t => rfl

@[simp] theorem wp_map {R : β → σ → Prop} (m : Prog ε σ α) (f : α → β) :
    wp (f <$> m) s R E ↔ wp m s (fun a t => R (f a) t) E := by
  simp only [wp, Functor.map, EStateM.map]
  cases m s with
  | ok a t => rfl
  | error e t => rfl

@[simp] theorem wp_ite {c : Prop} [Decidable c] (m n : Prog ε σ α) :
    wp (if c then m else n) s Q E ↔ (c → wp m s Q E) ∧ (¬c → wp n s Q E) := by
  by_cases h : c <;> simp [h]

theorem wp_mono {m : Prog ε σ α} (h : wp m s Q E) (hQ : ∀ a t, Q a t → Q' a t)
    (hE : ∀ e t, E e t → E' e t) : wp m s Q' E' := by
  unfold wp at h ⊢
  cases hm : m s with
  | ok a t => rw [hm] at h; exact hQ _ _ h
  | error e t => rw [hm] at h; exact hE _ _ h

theorem wp_seq {R : β → σ → Prop} {m : Prog ε σ α} {f : α → Prog ε σ β} (hm : wp m s Q E)
    (hf : ∀ a t, Q a t → wp (f a) t R E) : wp (m >>= f) s R E :=
  (wp_bind m f).mpr (wp_mono hm hf fun _ _ he => he)

theorem wp_and {m : Prog ε σ α} (h : wp m s Q E) (h' : wp m s Q' E') :
    wp m s (fun a t => Q a t ∧ Q' a t) (fun e t => E e t ∧ E' e t) := by
  unfold wp at h h' ⊢
  cases hm : m s with
  | ok a t => rw [hm] at h h'; exact ⟨h, h'⟩
  | error e t => rw [hm] at h h'; exact ⟨h, h'⟩

theorem wp_of_ok {m : Prog ε σ α} {a : α} (hm : m s = .ok a s') (h : Q a s') : wp m s Q E := by
  unfold wp
  rw [hm]
  exact h

theorem wp_of_error {m : Prog ε σ α} {e : ε} (hm : m s = .error e s') (h : E e s') :
    wp m s Q E := by
  unfold wp
  rw [hm]
  exact h

theorem wp_ok {m : Prog ε σ α} {a : α} (h : wp m s Q E) (hm : m s = .ok a s') : Q a s' := by
  unfold wp at h
  rw [hm] at h
  exact h

theorem wp_error {m : Prog ε σ α} {e : ε} (h : wp m s Q E) (hm : m s = .error e s') :
    E e s' := by
  unfold wp at h
  rw [hm] at h
  exact h

theorem bind_ok {m : Prog ε σ α} {a : α} {f : α → Prog ε σ β} (h : m s = .ok a s') :
    (m >>= f) s = f a s' := by
  simp only [bind, EStateM.bind, h]

theorem map_ok {m : Prog ε σ α} {a : α} {f : α → β} (h : m s = .ok a s') : (f <$> m) s = .ok (f a) s' := by
  simp only [Functor.map, EStateM.map, h]

theorem wp_iff_of_ok {m : Prog ε σ α} {a : α} (h : m s = .ok a s') : wp m s Q E ↔ Q a s' :=
  ⟨fun hw => wp_ok hw h, wp_of_ok h⟩

theorem wp_congr {m : Prog ε σ α} (h : ∀ a t, m s = .ok a t → (Q a t ↔ Q' a t)) :
    wp m s Q E ↔ wp m s Q' E := by
  unfold wp
  cases hm : m s with
  | ok a t => exact h a t hm
  | error e t => exact Iff.rfl

theorem exists_ok_of_wp {m : Prog ε σ α} (h : wp m s Q (fun _ _ => False)) :
    ∃ a t, m s = .ok a t ∧ Q a t := by
  unfold wp at h
  cases hm : m s with
  | ok a t => rw [hm] at h; exact ⟨a, t, rfl, h⟩
  | error e t => rw [hm] at h; exact h.elim

end Rules

-- proofs go through the rules; unfolding would run the program
attribute [irreducible] wp

/-! ### Loops -/

def forEach : List β → (β → Prog ε σ Unit) → Prog ε σ Unit
  | [], _ => pure ()
  | x :: xs, f => do f x; forEach xs f

def times : Nat → Prog ε σ Unit → Prog ε σ Unit
  | 0, _ => pure ()
  | n + 1, m => do m; times n m

/-- The invariant of `forEach` speaks of the elements still to come. -/
theorem wp_forEach {I : List β → σ → Prop} {E : ε → σ → Prop} {f : β → Prog ε σ Unit}
    (hstep : ∀ x xs s, I (x :: xs) s → wp (f x) s (fun _ t => I xs t) E) (xs : List β) {s : σ}
    (h : I xs s) : wp (forEach xs f) s (fun _ t => I [] t) E := by
  induction xs generalizing s with
  | nil => exact wp_pure _ |>.mpr h
  | cons x xs ih =>
    rw [forEach, wp_bind]
    exact wp_mono (hstep x xs s h) (fun _ t ht => ih ht) (fun _ _ he => he)

/-- The invariant of `times` speaks of the number of rounds still to come. -/
theorem wp_times {I : Nat → σ → Prop} {E : ε → σ → Prop} {m : Prog ε σ Unit}
    (hstep : ∀ n s, I (n + 1) s → wp m s (fun _ t => I n t) E) (n : Nat) {s : σ}
    (h : I n s) : wp (times n m) s (fun _ t => I 0 t) E := by
  induction n generalizing s with
  | zero => exact wp_pure _ |>.mpr h
  | succ n ih =>
    rw [times, wp_bind]
    exact wp_mono (hstep n s h) (fun _ t ht => ih ht) (fun _ _ he => he)

/-! ### Programs within a relation -/

/-- However the program ends, its last state is related to the first by `R`. -/
def Within (R : σ → σ → Prop) (m : Prog ε σ α) : Prop :=
  ∀ s, wp m s (fun _ t => R s t) (fun _ t => R s t)

namespace Within
variable {R : σ → σ → Prop}

section Refl
variable (hr : ∀ s, R s s)
include hr

protected theorem pure (a : α) : Within R (pure a : Prog ε σ α) := fun s => (wp_pure a).mpr (hr s)

protected theorem get : Within R (get : Prog ε σ σ) := fun s => wp_get.mpr (hr s)

protected theorem throw (e : ε) : Within R (throw e : Prog ε σ α) := fun s => (wp_throw e).mpr (hr s)

end Refl

protected theorem modify {f : σ → σ} (h : ∀ s, R s (f s)) : Within R (modify f : Prog ε σ Unit) :=
  fun s => (wp_modify f).mpr (h s)

protected theorem bind (ht : ∀ s t u, R s t → R t u → R s u) {m : Prog ε σ α} {f : α → Prog ε σ β}
    (hm : Within R m) (hf : ∀ a, Within R (f a)) : Within R (m >>= f) := by
  intro s
  rw [wp_bind]
  exact wp_mono (hm s) (fun a t hst => wp_mono (hf a t) (fun _ u htu => ht s t u hst htu)
    (fun _ u htu => ht s t u hst htu)) (fun _ _ h => h)

protected theorem forEach (hr : ∀ s, R s s) (ht : ∀ s t u, R s t → R t u → R s u)
    {f : β → Prog ε σ Unit} (hf : ∀ x, Within R (f x)) (xs : List β) :
    Within R (Effect.forEach xs f) := by
  induction xs with
  | nil => exact .pure hr ()
  | cons x xs ih => exact .bind ht (hf x) fun _ => ih

protected theorem times (hr : ∀ s, R s s) (ht : ∀ s t u, R s t → R t u → R s u)
    {m : Prog ε σ Unit} (hm : Within R m) (n : Nat) : Within R (Effect.times n m) := by
  induction n with
  | zero => exact .pure hr ()
  | succ n ih => exact .bind ht hm fun _ => ih

end Within

end Effect
