import Mathlib.Data.List.Cycle

/-! Circular lists through a pointer in each node, as chains of nodes. -/

namespace Circle

variable {α : Type} {next next' : α → α} {l m A B C P : List α} {a b q x y z : α}

/-- Each node of the list points to the one behind it. -/
abbrev Links (next : α → α) (l : List α) : Prop := l.IsChain fun a b => next a = b

/-- The nodes of `l`, and from the last one back to the first. -/
abbrev Circular (next : α → α) (l : List α) : Prop := Cycle.Chain (fun a b => next a = b) (l : Cycle α)

theorem circular_cons : Circular next (x :: l) ↔ Links next (x :: (l ++ [x])) := Cycle.chain_coe_cons ..

/-- A circle can be entered at any of its nodes. -/
theorem Circular.rotate (h : Circular next l) (ha : a ∈ l) : ∃ m, Circular next (a :: m) ∧ (a :: m).Perm l := by
  obtain ⟨A, B, rfl⟩ := List.append_of_mem ha
  have hrot : A ++ a :: B ~r a :: (B ++ A) := List.isRotated_append
  refine ⟨B ++ A, ?_, hrot.perm.symm⟩
  rwa [Circular, ← Cycle.coe_eq_coe.mpr hrot]

/-- Only the nodes before the last one are read. -/
theorem Links.congr (h : Links next (l ++ [z])) (hl : ∀ a ∈ l, next' a = next a) : Links next' (l ++ [z]) := by
  induction l with
  | nil => exact List.isChain_singleton z
  | cons a l ih =>
    have hrest := ih (List.IsChain.tail h) fun b hb => hl b (List.mem_cons_of_mem _ hb)
    refine List.IsChain.cons hrest fun b hb => ?_
    rw [hl a List.mem_cons_self]
    exact List.IsChain.rel_head? h hb

/-- The nodes between `q` and `y` are replaced. -/
theorem Links.replace (h : Links next (A ++ q :: (C ++ y :: B))) (hA : ∀ a ∈ A, next' a = next a)
    (hB : Links next' (y :: B)) (hP : Links next' (q :: (P ++ [y]))) : Links next' (A ++ q :: (P ++ y :: B)) := by
  have hleft : Links next (A ++ [q]) := (List.isChain_split.mp h).1
  exact List.isChain_split.mpr ⟨hleft.congr hA, List.isChain_cons_split.mpr ⟨hP, hB⟩⟩

theorem Links.next_eq (h : Links next (A ++ a :: b :: l)) : next a = b :=
  (List.isChain_cons_cons.mp (List.isChain_split.mp h).2).1

theorem Links.next_cases (h : Links next (A ++ a :: (l ++ [z]))) :
    l = [] ∧ next a = z ∨ ∃ b m, l = b :: m ∧ next a = b := by
  have hrest : Links next (a :: (l ++ [z])) := (List.isChain_split.mp h).2
  cases l with
  | nil => exact .inl ⟨rfl, (List.isChain_cons_cons.mp hrest).1⟩
  | cons b m => exact .inr ⟨b, m, rfl, (List.isChain_cons_cons.mp hrest).1⟩

theorem Links.map (h : Links next (x :: (l ++ [z]))) : (x :: l).map next = l ++ [z] := by
  induction l generalizing x with
  | nil => rw [List.map_singleton, List.isChain_pair.mp h, List.nil_append]
  | cons y l ih =>
    obtain ⟨hxy, hrest⟩ := List.isChain_cons_cons.mp h
    rw [List.map_cons, hxy, ih hrest, List.cons_append]

/-- In a circle without repetitions each node has one predecessor. -/
theorem Circular.pred_unique (h : Circular next l) (hl : l.Nodup) (ha : a ∈ l) (hb : b ∈ l) (heq : next a = next b) :
    a = b := by
  cases l with
  | nil => exact absurd ha List.not_mem_nil
  | cons x l =>
    have hperm : (l ++ [x]).Perm (x :: l) := List.perm_append_singleton x l
    refine List.inj_on_of_nodup_map ?_ ha hb heq
    rw [(circular_cons.mp h).map]
    exact hperm.nodup_iff.mpr hl

end Circle
