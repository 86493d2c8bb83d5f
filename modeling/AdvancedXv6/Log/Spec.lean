import AdvancedXv6.Log.State
import AdvancedXv6.Lib.Redo
import Mathlib.Data.List.Dedup

/-! What the procedures of the log write, and what they leave in memory. -/

namespace Xv6.Log
open Function Effect Redo

variable {s t : Fs} {b n : Nat} {x : Block} {ws : List (Nat × Block)}

namespace Fs

/-- The state after the writes. -/
def storeAll (s : Fs) (ws : List (Nat × Block)) : Fs := ws.foldl (fun s w => s.store w.1 w.2) s

theorem content_store : (s.store b x).content = update s.content b x := by
  funext c
  by_cases hc : c = b
  · subst hc
    simp only [content, store, update_self, Option.getD_none]
  · simp only [content, store, update_of_ne hc]

theorem storeAll_append (s : Fs) (ws ws' : List (Nat × Block)) :
    s.storeAll (ws ++ ws') = (s.storeAll ws).storeAll ws' := List.foldl_append

theorem storeAll_concat (s : Fs) (ws : List (Nat × Block)) (w : Nat × Block) :
    s.storeAll (ws ++ [w]) = (s.storeAll ws).store w.1 w.2 := s.storeAll_append ws [w]

theorem content_storeAll (ws : List (Nat × Block)) :
    (s.storeAll ws).content = install s.content ws := by
  induction ws generalizing s with
  | nil => rfl
  | cons w ws ih => exact (ih (s := s.store w.1 w.2)).trans (by rw [content_store, install_cons])

theorem disk_storeAll (ws : List (Nat × Block)) : (s.storeAll ws).disk = install s.disk ws := by
  induction ws generalizing s with
  | nil => rfl
  | cons w ws ih => exact ih (s := s.store w.1 w.2)

theorem writes_storeAll (ws : List (Nat × Block)) : (s.storeAll ws).writes = s.writes ++ ws := by
  induction ws generalizing s with
  | nil => exact (List.append_nil _).symm
  | cons w ws ih => exact (ih (s := s.store w.1 w.2)).trans (List.append_assoc ..)

theorem dirty_storeAll (ws : List (Nat × Block)) (c : Nat) : (s.storeAll ws).dirty c =
    if ∃ w ∈ ws, w.1 = c then none else s.dirty c := by
  induction ws generalizing s with
  | nil => simp [storeAll]
  | cons w ws ih =>
    have hw : (s.store w.1 w.2).dirty = update s.dirty w.1 none := rfl
    refine (ih (s := s.store w.1 w.2)).trans ?_
    rw [hw]
    by_cases hmem : ∃ v ∈ ws, v.1 = c
    · rw [if_pos hmem, if_pos (List.exists_mem_cons_iff .. |>.mpr (.inr hmem))]
    · rw [if_neg hmem]
      by_cases hc : w.1 = c
      · rw [hc, update_self, if_pos ⟨w, List.mem_cons_self, hc⟩]
      · rw [update_of_ne (Ne.symm hc), if_neg]
        rintro ⟨v, hv, hvc⟩
        rcases List.mem_cons.mp hv with rfl | hv
        · exact hc hvc
        · exact hmem ⟨v, hv, hvc⟩

/-- The rest of the state. -/
theorem storeAll_other (ws : List (Nat × Block)) : (s.storeAll ws).start = s.start ∧
    (s.storeAll ws).size = s.size ∧ (s.storeAll ws).outstanding = s.outstanding ∧
    (s.storeAll ws).committing = s.committing ∧ (s.storeAll ws).lh = s.lh := by
  induction ws generalizing s with
  | nil => exact ⟨rfl, rfl, rfl, rfl, rfl⟩
  | cons w ws ih => exact ih (s := s.store w.1 w.2)

end Fs

namespace Header

theorem words_zero (lh : Header) (buf : Block) : lh.words buf 0 = lh.n := if_pos rfl

theorem words_succ {lh : Header} {i : Nat} (hi : i < lh.n) (buf : Block) :
    lh.words buf (i + 1) = lh.block i := by
  rw [words, if_neg (Nat.succ_ne_zero i), if_pos (Nat.succ_le_of_lt hi), Nat.add_sub_cancel]

end Header

/-- The writes of a loop that copies block `f i` to block `g i`. -/
def copies (c : Nat → Block) (f g : Nat → Nat) (n : Nat) : List (Nat × Block) :=
  (List.range n).map fun i => (g i, c (f i))

theorem copies_succ (c : Nat → Block) (f g : Nat → Nat) (n : Nat) :
    copies c f g (n + 1) = copies c f g n ++ [(g n, c (f n))] := by
  rw [copies, List.range_succ, List.map_append]
  rfl

theorem mem_copies {c : Nat → Block} {f g : Nat → Nat} {w : Nat × Block} :
    w ∈ copies c f g n ↔ ∃ i < n, w = (g i, c (f i)) := by
  simp only [copies, List.mem_map, List.mem_range, eq_comm]

theorem forEach_concat {ε σ α : Type} (xs : List α) (y : α) (f : α → Prog ε σ Unit) :
    forEach (xs ++ [y]) f = (do forEach xs f; f y) := by
  induction xs with
  | nil =>
    funext s
    simp only [List.nil_append, forEach, bind, EStateM.bind, pure, EStateM.pure]
    cases f y s <;> rfl
  | cons x xs ih =>
    rw [List.cons_append, forEach, forEach, ih]
    funext s
    simp only [bind, EStateM.bind]
    cases f x s <;> rfl

/-- A loop that does not read what it writes. -/
theorem copy_spec {f g : Nat → Nat} {m : Nat} (hm : m ≤ n)
    (hsep : ∀ i < n, ∀ j < n, g i ≠ f j) :
    wp (forEach (List.range m) fun i => do bwrite (g i) (← bread (f i))) s
      (fun _ t => t = s.storeAll (copies s.content f g m)) (fun _ _ => False) := by
  induction m with
  | zero => exact (wp_pure _).mpr rfl
  | succ m ih =>
    rw [List.range_succ, forEach_concat, wp_bind]
    refine wp_mono (ih (Nat.le_of_succ_le hm)) ?_ (fun _ _ he => he)
    rintro _ t rfl
    simp only [bread, bwrite, wp_bind, wp_get, wp_pure, wp_modify]
    have hread : (s.storeAll (copies s.content f g m)).content (f m) = s.content (f m) := by
      rw [Fs.content_storeAll, install_of_ne]
      intro w hw
      obtain ⟨i, hi, rfl⟩ := mem_copies.mp hw
      exact hsep i (by omega) m (by omega)
    rw [copies_succ, Fs.storeAll_concat, hread]

/-! ### Commit and recovery -/

/-- What `install_trans` writes. -/
def Fs.installed (s : Fs) : List (Nat × Block) :=
  copies s.content (s.start + · + 1) s.lh.block s.lh.n

/-- What `write_log` writes. -/
def Fs.logged (s : Fs) : List (Nat × Block) :=
  copies s.content s.lh.block (s.start + · + 1) s.lh.n

/-- The blocks of the transaction lie outside of its log blocks. -/
def Fs.Apart (s : Fs) : Prop := ∀ i < s.lh.n, ∀ j < s.lh.n, s.lh.block i ≠ s.start + j + 1

theorem installTrans_spec (h : s.Apart) :
    wp installTrans s (fun _ t => t = s.storeAll s.installed) (fun _ _ => False) := by
  simp only [installTrans, wp_bind, wp_get]
  exact copy_spec (Nat.le_refl _) h

theorem writeLog_spec (h : s.Apart) :
    wp writeLog s (fun _ t => t = s.storeAll s.logged) (fun _ _ => False) := by
  simp only [writeLog, wp_bind, wp_get]
  exact copy_spec (Nat.le_refl _) fun i hi j hj => (h j hj i hi).symm

theorem writeHead_spec : wp writeHead s
    (fun _ t => t = s.store s.start (s.lh.words (s.content s.start))) (fun _ _ => False) := by
  simp only [writeHead, bread, bwrite, wp_bind, wp_get, wp_pure, wp_modify]

/-- The end of both `commit` and recovery. -/
theorem erase_spec : wp (do clear; writeHead) s (fun _ t => ∃ buf : Block, buf 0 = 0 ∧
    t = { s.store s.start buf with lh := { s.lh with n := 0 } }) (fun _ _ => False) := by
  simp only [clear, wp_bind, wp_modify]
  refine wp_mono writeHead_spec ?_ (fun _ _ he => he)
  rintro _ t rfl
  exact ⟨_, Header.words_zero ⟨0, s.lh.block⟩ (s.content s.start), rfl⟩

/-! ### Admission -/

theorem beginOp_spec : wp beginOp s (fun ok t => (ok = false ∧ t = s) ∨ (ok = true ∧
    s.committing = false ∧ s.lh.n + (s.outstanding + 1) * maxOpBlocks ≤ (logSize : Int) ∧
    t = { s with outstanding := s.outstanding + 1 })) (fun _ _ => False) := by
  simp only [beginOp, wp_bind, wp_get, wp_ite, wp_pure, wp_modify]
  refine ⟨fun _ => .inl ⟨trivial, trivial⟩, fun hc => ⟨fun _ => .inl ⟨trivial, trivial⟩, fun hle => .inr ?_⟩⟩
  exact ⟨trivial, Bool.eq_false_iff.mpr hc, Int.not_lt.mp hle, trivial⟩

theorem endOp_spec (hc : s.committing = false) : wp endOp s (fun ok t =>
    t = { s with outstanding := s.outstanding - 1, committing := ok } ∧
      (ok = true ↔ s.outstanding = 1)) (fun _ _ => False) := by
  simp only [endOp, wp_bind, wp_get, wp_ite, wp_pure, wp_modify, wp_throw, hc]
  refine ⟨fun h => Bool.false_ne_true h, fun _ => ⟨fun h => ⟨trivial, ?_⟩, fun h => ⟨trivial, ?_⟩⟩⟩
  · exact iff_of_true trivial (by omega)
  · exact iff_of_false Bool.false_ne_true (by omega)

theorem logTests_spec : wp logTests s (fun _ t => t = s ∧ s.lh.n < logSize ∧ s.lh.n < s.size - 1 ∧
      1 ≤ s.outstanding)
    (fun e t => t = s ∧ (e = .tooBig ∧ (logSize ≤ s.lh.n ∨ s.size - 1 ≤ s.lh.n) ∨
      e = .outside ∧ s.outstanding < 1)) := by
  simp only [logTests, wp_bind, wp_get, wp_ite, wp_pure, wp_throw]
  refine ⟨fun h => ⟨trivial, .inl ⟨trivial, h⟩⟩, fun h => ⟨fun ho => ⟨trivial, .inr ⟨trivial, ho⟩⟩, fun ho => ?_⟩⟩
  obtain ⟨h₁, h₂⟩ := not_or.mp h
  exact ⟨trivial, Nat.lt_of_not_le h₁, Nat.lt_of_not_le h₂, Int.not_lt.mp ho⟩

namespace Header

theorem search_spec (lh : Header) (b i k : Nat) : i ≤ lh.search b i k ∧ lh.search b i k ≤ i + k ∧
    (lh.search b i k < i + k → lh.block (lh.search b i k) = b) ∧
    ∀ j, i ≤ j → j < lh.search b i k → lh.block j ≠ b := by
  induction k generalizing i with
  | zero => exact ⟨Nat.le_refl _, Nat.le_refl _, fun h => absurd h (Nat.lt_irrefl _), fun j hj hlt => by
      exact absurd hlt (Nat.not_lt.mpr hj)⟩
  | succ k ih =>
    rw [search]
    by_cases hb : lh.block i = b
    · rw [if_pos hb]
      exact ⟨Nat.le_refl _, Nat.le_add_right _ _, fun _ => hb, fun j hj hlt =>
        absurd hlt (Nat.not_lt.mpr hj)⟩
    · rw [if_neg hb]
      obtain ⟨hge, hle, hfound, hbefore⟩ := ih (i + 1)
      refine ⟨by omega, by omega, fun h => hfound (by omega), fun j hj hlt => ?_⟩
      rcases Nat.eq_or_lt_of_le hj with rfl | hij
      · exact hb
      · exact hbefore j hij hlt

/-- The blocks of the transaction. -/
def blocks (lh : Header) : List Nat := (List.range lh.n).map lh.block

/-- The header once `b` is logged. -/
def log (lh : Header) (b : Nat) : Header :=
  { n := if lh.search b 0 lh.n = lh.n then lh.n + 1 else lh.n
    block := update lh.block (lh.search b 0 lh.n) b }

/-- A block that is logged again is absorbed, a new one goes to the end. -/
theorem log_cases (lh : Header) (b : Nat) : (b ∈ lh.blocks ∧ lh.log b = lh) ∨
    (b ∉ lh.blocks ∧ (lh.log b).n = lh.n + 1 ∧ (lh.log b).blocks = lh.blocks ++ [b]) := by
  obtain ⟨-, hle, hfound, hbefore⟩ := lh.search_spec b 0 lh.n
  rw [Nat.zero_add] at hle hfound
  rw [log]
  generalize lh.search b 0 lh.n = i at hle hfound hbefore ⊢
  rcases Nat.eq_or_lt_of_le hle with rfl | hlt
  · rw [if_pos rfl]
    refine .inr ⟨fun hmem => ?_, rfl, ?_⟩
    · obtain ⟨j, hj, hjb⟩ := List.mem_map.mp hmem
      exact hbefore j (Nat.zero_le _) (List.mem_range.mp hj) hjb
    · simp only [blocks, List.range_succ, List.map_append, List.map_cons, List.map_nil, update_self]
      refine congrArg (· ++ _) (List.map_congr_left fun j hj => ?_)
      exact update_of_ne (Nat.ne_of_lt (List.mem_range.mp hj)) _ _
  · obtain rfl := hfound hlt
    rw [if_neg (Nat.ne_of_lt hlt), update_eq_self]
    exact .inl ⟨List.mem_map.mpr ⟨i, List.mem_range.mpr hlt, rfl⟩, rfl⟩

theorem mem_blocks {lh : Header} {b : Nat} : b ∈ lh.blocks ↔ ∃ i < lh.n, lh.block i = b := by
  simp only [blocks, List.mem_map, List.mem_range]

theorem mem_log {lh : Header} {b c : Nat} : c ∈ (lh.log b).blocks ↔ c ∈ lh.blocks ∨ c = b := by
  rcases lh.log_cases b with ⟨hold, heq⟩ | ⟨-, -, heq⟩
  · rw [heq]
    exact ⟨.inl, fun h => h.elim id fun h => h ▸ hold⟩
  · rw [heq, List.mem_append, List.mem_singleton]

theorem nodup_log {lh : Header} (h : lh.blocks.Nodup) (b : Nat) : (lh.log b).blocks.Nodup := by
  rcases lh.log_cases b with ⟨-, heq⟩ | ⟨hnew, -, heq⟩
  · rw [heq]
    exact h
  · rw [heq]
    refine List.nodup_append.mpr ⟨h, List.nodup_singleton _, ?_⟩
    rintro a ha c hc rfl
    exact hnew (List.mem_singleton.mp hc ▸ ha)

end Header

theorem logAppend_spec {b : Nat} : wp (logAppend b x) s
    (fun _ t => t = { s with lh := s.lh.log b, dirty := update s.dirty b (some x) })
    (fun _ _ => False) := by
  simp only [logAppend, wp_modify]
  rfl

end Xv6.Log
