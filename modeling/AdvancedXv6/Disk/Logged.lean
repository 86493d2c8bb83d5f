import AdvancedXv6.Disk.Place
import Mathlib.Data.Finset.Card
import Mathlib.Order.Interval.Finset.Nat

/-! The blocks that an operation gives to `log_write`. -/

namespace Xv6.Disk
open Function Effect Bytes
variable {P P' : Nat → Prop} {s t u : Fs} {b c c' n : Nat} {x : Block} {l m : List Nat}

/-- The blocks of the free map. -/
def bitmaps : Finset Nat := Finset.Ico sb.bmapstart nmeta

theorem bblock_mem (hb : b < fsSize) : bblock b ∈ bitmaps := Finset.mem_Ico.mpr (bblock_range hb)

namespace Fs

/-- What was logged from `s` to `t` is blocks of the free map and blocks in `P`. -/
def Logs (P : Nat → Prop) (s t : Fs) : Prop := ∃ ws, t.logged = ws ++ s.logged ∧ ∀ w ∈ ws, w ∈ bitmaps ∨ P w

theorem Logs.of_eq (h : t.logged = s.logged) : Logs P s t := ⟨[], h, fun _ hw => absurd hw List.not_mem_nil⟩

theorem Logs.refl (P : Nat → Prop) (s : Fs) : Logs P s s := .of_eq rfl

theorem Logs.trans (h : Logs P s t) (h' : Logs P t u) : Logs P s u := by
  obtain ⟨ws, hws, hP⟩ := h
  obtain ⟨ws', hws', hP'⟩ := h'
  refine ⟨ws' ++ ws, ?_, fun w hw => (List.mem_append.mp hw).elim (hP' w) (hP w)⟩
  rw [hws', hws, List.append_assoc]

theorem Logs.mono (h : Logs P s t) (hP : ∀ w, P w → P' w) : Logs P' s t := by
  obtain ⟨ws, hws, hws'⟩ := h
  exact ⟨ws, hws, fun w hw => (hws' w hw).imp_right (hP w)⟩

/-- The fields that no block depends on. -/
theorem Logs.congr (h : Logs P s t) (hu : u.logged = t.logged) : Logs P s u := h.trans (.of_eq hu)

theorem Logs.setBlk (h : Logs P s t) (hn : n ∈ bitmaps ∨ P n) (x : Block) : Logs P s (t.setBlk n x) := by
  refine h.trans ⟨[n], rfl, fun w hw => ?_⟩
  rw [List.mem_singleton.mp hw]
  exact hn

/-- No more than `c` blocks besides those of the free map. -/
def Spends (c : Nat) (s t : Fs) : Prop := ∃ l : List Nat, l.length ≤ c ∧ Logs (· ∈ l) s t

theorem Spends.of_eq (h : t.logged = s.logged) : Spends c s t := ⟨[], Nat.zero_le c, .of_eq h⟩

theorem Logs.spends (h : Logs (· ∈ l) s t) (hl : l.length ≤ c) : Spends c s t := ⟨l, hl, h⟩

theorem Spends.mono (h : Spends c s t) (hc : c ≤ c') : Spends c' s t := by
  obtain ⟨l, hl, hlogs⟩ := h
  exact ⟨l, Nat.le_trans hl hc, hlogs⟩

theorem Logs.then_spends (h : Logs (· ∈ l) s t) (h' : Spends c t u) (hc : l.length + c ≤ c') : Spends c' s u := by
  obtain ⟨m, hm, hlogs⟩ := h'
  refine ⟨l ++ m, ?_, (h.mono fun w hw => List.mem_append_left m hw).trans (hlogs.mono fun w hw => List.mem_append_right l hw)⟩
  rw [List.length_append]
  exact Nat.le_trans (Nat.add_le_add_left hm _) hc

/-- The distinct blocks that were logged, the free map included, are within the reservation of an operation. -/
def Fits (s t : Fs) : Prop := ∃ ws, t.logged = ws ++ s.logged ∧ ws.toFinset.card ≤ maxOpBlocks

theorem Spends.fits (h : Spends 7 s t) : Fits s t := by
  obtain ⟨l, hl, ws, hws, hP⟩ := h
  refine ⟨ws, hws, ?_⟩
  have hsub : ws.toFinset ⊆ bitmaps ∪ l.toFinset := by
    intro w hw
    rw [Finset.mem_union, List.mem_toFinset]
    exact hP w (List.mem_toFinset.mp hw)
  calc ws.toFinset.card ≤ (bitmaps ∪ l.toFinset).card := Finset.card_le_card hsub
    _ ≤ bitmaps.card + l.toFinset.card := Finset.card_union_le ..
    _ ≤ 3 + l.length := Nat.add_le_add (by decide) l.toFinset_card_le
    _ ≤ maxOpBlocks := Nat.add_le_add_left hl 3

end Fs

end Xv6.Disk
