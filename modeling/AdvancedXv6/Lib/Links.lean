import Mathlib.Logic.Function.Basic

/-! Doubly linked circular lists. The nodes are `some b` for the entries and `none` for the head. -/

namespace Links
open Function
variable {ι : Type} {next prev next' prev' : Option ι → Option ι} {l l₁ l₂ : List ι} {x y z : Option ι} {b : ι}

/-- The pointers lead from `x` through `l` to `y`, and back. -/
def Seg (next prev : Option ι → Option ι) : Option ι → List ι → Option ι → Prop
  | x, [], y => next x = y ∧ prev y = x
  | x, b :: l, y => next x = some b ∧ prev (some b) = x ∧ Seg next prev (some b) l y

/-- The circular list of the entries `l`, the first one first. -/
def Circle (next prev : Option ι → Option ι) (l : List ι) : Prop := l.Nodup ∧ Seg next prev none l none

/-- The search from `x` on for an entry with `p`, in at most `k` rounds. -/
def find (next : Option ι → Option ι) (p : ι → Bool) : Nat → Option ι → Option ι
  | 0, _ => none
  | _ + 1, none => none
  | k + 1, some b => if p b then some b else find next p k (next (some b))

theorem seg_append : Seg next prev x (l₁ ++ b :: l₂) y ↔
    Seg next prev x l₁ (some b) ∧ Seg next prev (some b) l₂ y := by
  induction l₁ generalizing x with
  | nil => exact and_assoc.symm
  | cons c l₁ ih =>
    rw [List.cons_append, Seg, Seg, ih, and_assoc, and_assoc]

theorem Seg.frame (h : Seg next prev x l y) (hx : next' x = next x) (hy : prev' y = prev y)
    (hnext : ∀ c ∈ l, next' (some c) = next (some c)) (hprev : ∀ c ∈ l, prev' (some c) = prev (some c)) :
    Seg next' prev' x l y := by
  induction l generalizing x with
  | nil => exact ⟨hx.trans h.1, hy.trans h.2⟩
  | cons c l ih =>
    obtain ⟨h₁, h₂, h₃⟩ := h
    refine ⟨hx.trans h₁, (hprev c List.mem_cons_self).trans h₂, ?_⟩
    apply ih h₃ (hnext c List.mem_cons_self)
    · exact fun d hd => hnext d (List.mem_cons_of_mem _ hd)
    · exact fun d hd => hprev d (List.mem_cons_of_mem _ hd)

theorem Seg.reverse (h : Seg next prev x l y) : Seg prev next y l.reverse x := by
  induction l generalizing x with
  | nil => exact h.symm
  | cons c l ih =>
    rw [List.reverse_cons]
    exact seg_append.mpr ⟨ih h.2.2, h.2.1, h.1⟩

theorem Circle.reverse (h : Circle next prev l) : Circle prev next l.reverse :=
  ⟨(List.reverse_perm l).nodup_iff.mpr h.1, h.2.reverse⟩

/-- A search with rounds enough is the search of the list. -/
theorem Seg.find {k : Nat} (p : ι → Bool) (h : Seg next prev x l none) (hk : l.length ≤ k) :
    find next p k (next x) = l.find? p := by
  induction l generalizing x k with
  | nil =>
    rw [h.1]
    cases k <;> rfl
  | cons c l ih =>
    obtain ⟨k, rfl⟩ : ∃ j, k = j + 1 := Nat.exists_eq_add_one.mpr (Nat.lt_of_lt_of_le (Nat.succ_pos _) hk)
    rw [h.1, Links.find, List.find?_cons, ih h.2.2 (Nat.le_of_succ_le_succ hk)]
    cases p c <;> rfl

theorem Seg.prev_mem (h : Seg next prev x l z) : prev z = x ∨ ∃ d ∈ l, prev z = some d := by
  induction l generalizing x with
  | nil => exact .inl h.2
  | cons c l ih =>
    obtain hc | ⟨d, hd, hp⟩ := ih h.2.2
    · exact .inr ⟨c, List.mem_cons_self, hc⟩
    · exact .inr ⟨d, List.mem_cons_of_mem _ hd, hp⟩

variable [DecidableEq ι]

/-- The last link of a segment is turned to another node. -/
theorem Seg.relast (h : Seg next prev x l z) (hnodup : l.Nodup) (hx : ∀ c ∈ l, x ≠ some c) (hy : ∀ c ∈ l, y ≠ some c) :
    Seg (update next (prev z) y) (update prev y (prev z)) x l y := by
  induction l generalizing x with
  | nil =>
    obtain ⟨-, hp⟩ := h
    rw [hp]
    exact ⟨update_self .., update_self ..⟩
  | cons c l ih =>
    rw [List.nodup_cons] at hnodup
    have hlast : x ≠ prev z := by
      obtain hp | ⟨d, hd, hp⟩ := h.2.2.prev_mem
      · rw [hp]
        exact hx c List.mem_cons_self
      · rw [hp]
        exact hx d (List.mem_cons_of_mem _ hd)
    obtain ⟨h₁, h₂, h₃⟩ := h
    refine ⟨?_, ?_, ?_⟩
    · rw [update_of_ne hlast]
      exact h₁
    · rw [update_of_ne (hy c List.mem_cons_self).symm]
      exact h₂
    · apply ih h₃ hnodup.2
      · exact fun e he heq => hnodup.1 (Option.some.inj heq ▸ he)
      · exact fun e he => hy e (List.mem_cons_of_mem _ he)

/-- The neighbours of `b` are linked to each other. -/
theorem Circle.unlink (h : Circle next prev (l₁ ++ b :: l₂)) :
    Circle (update next (prev (some b)) (next (some b))) (update prev (next (some b)) (prev (some b))) (l₁ ++ l₂) := by
  obtain ⟨hnodup, hseg⟩ := h
  obtain ⟨h₁, h₂⟩ := seg_append.mp hseg
  have hsub : (l₁ ++ l₂).Nodup := hnodup.sublist ((List.Sublist.refl l₁).append (List.sublist_cons_self b l₂))
  obtain ⟨hl₁, hl₂, hdisj⟩ := List.nodup_append.mp hsub
  refine ⟨hsub, ?_⟩
  cases l₂ with
  | nil =>
    rw [List.append_nil, h₂.1]
    exact h₁.relast hl₁ (fun _ _ => (Option.some_ne_none _).symm) fun _ _ => (Option.some_ne_none _).symm
  | cons c l₂ =>
    rw [h₂.1]
    obtain ⟨-, -, h₃⟩ := h₂
    have hc : ∀ d ∈ l₁, d ≠ c := fun d hd => hdisj d hd c List.mem_cons_self
    have hprev : ∀ d ∈ c :: l₂, some d ≠ prev (some b) := by
      intro d hd
      obtain hp | ⟨e, he, hp⟩ := h₁.prev_mem
      · rw [hp]
        exact Option.some_ne_none _
      · rw [hp]
        exact fun heq => hdisj e he d hd (Option.some.inj heq).symm
    refine seg_append.mpr ⟨?_, ?_⟩
    · apply h₁.relast hl₁ fun _ _ => (Option.some_ne_none _).symm
      exact fun d hd heq => hc d hd (Option.some.inj heq).symm
    · rw [List.nodup_cons] at hl₂
      apply h₃.frame
      · exact update_of_ne (hprev c List.mem_cons_self) ..
      · exact update_of_ne (Option.some_ne_none _).symm ..
      · exact fun d hd => update_of_ne (hprev d (List.mem_cons_of_mem _ hd)) ..
      · exact fun d hd => update_of_ne (fun heq => hl₂.1 (by rw [← Option.some.inj heq]; exact hd)) ..

/-- `b` is put after the head. -/
theorem Circle.push (h : Circle next prev l) (hb : b ∉ l) :
    Circle (update (update next (some b) (next none)) none (some b))
      (update (update prev (some b) none) (next none) (some b)) (b :: l) := by
  obtain ⟨hnodup, hseg⟩ := h
  have hne : ∀ c ∈ l, some c ≠ some b := fun c hc heq => hb (Option.some.inj heq ▸ hc)
  refine ⟨List.nodup_cons.mpr ⟨hb, hnodup⟩, update_self .., ?_, ?_⟩
  · have hfirst : some b ≠ next none := by
      cases l with
      | nil =>
        rw [hseg.1]
        exact Option.some_ne_none _
      | cons c l =>
        rw [hseg.1]
        exact (hne c List.mem_cons_self).symm
    rw [update_of_ne hfirst, update_self]
  · cases l with
    | nil =>
      rw [hseg.1]
      refine ⟨?_, update_self ..⟩
      rw [update_of_ne (Option.some_ne_none _), update_self]
    | cons c l =>
      obtain ⟨h₁, -, h₃⟩ := hseg
      rw [List.nodup_cons] at hnodup
      have hnext : ∀ d ∈ c :: l, update (update next (some b) (next none)) none (some b) (some d) = next (some d) := by
        intro d hd
        rw [update_of_ne (Option.some_ne_none _), update_of_ne (hne d hd)]
      rw [h₁] at hnext ⊢
      refine ⟨?_, update_self .., ?_⟩
      · rw [update_of_ne (Option.some_ne_none _), update_self]
      · apply h₃.frame (hnext c List.mem_cons_self)
        · rw [update_of_ne (Option.some_ne_none _).symm, update_of_ne (Option.some_ne_none _).symm]
        · exact fun d hd => hnext d (List.mem_cons_of_mem _ hd)
        · intro d hd
          have hdc : some d ≠ some c := fun heq => hnodup.1 (Option.some.inj heq ▸ hd)
          rw [update_of_ne hdc, update_of_ne (hne d (List.mem_cons_of_mem _ hd))]

end Links
