import AdvancedXv6.Swap.CopySpec
import AdvancedXv6.Swap.ProcSpec

/-! The address spaces as the processes see them: a size, and for each page its contents and its
permissions, wherever the page is. -/

namespace Xv6.Swap
open Function Effect Ownership

variable {im : Image} {k k₁ k₂ k' : Kernel} {H : Held} {d i j n pg sz : Nat} {x y : Holder}
  {X : Nat → Nat → Prop}

structure Space where
  sz : Nat
  page : Nat → Option UserPage

namespace Space

/-- The pages below the size `z` are kept, and filled up with zeros. -/
def resize (s : Space) (z : Nat) : Space where
  sz := z
  page pg := if pg < pageCount z then if pg < pageCount s.sz then s.page pg else some zeroPage else none

/-- The size that `growproc` arrives at: a sum that wraps around is not taken. -/
def target (s : Space) (n : Int) : Nat :=
  if 0 < n ∧ newSize s.sz n < s.sz ∨ n < 0 ∧ s.sz ≤ newSize s.sz n then s.sz else newSize s.sz n

/-- `sbrk` resizes the address space, or fails. Only the failure that frees all pages is seen. -/
def Sbrk (s : Space) (n r : Int) (s' : Space) : Prop :=
  (r = 0 ∧ s' = s.resize (s.target n)) ∨ (r = -1 ∧ s' = s) ∨
    (r = -1 ∧ n < 0 ∧ newSize s.sz n = 0 ∧ 0 < s.sz ∧ s' = ⟨s.sz, fun _ => none⟩)

/-- Exactly the pages below the size are there. -/
def Whole (s : Space) : Prop := ∀ pg, (s.page pg).isSome ↔ pg < pageCount s.sz

end Space

/-- The address space of a process that can run again. -/
def Kernel.space (k : Kernel) (i : Nat) : Option Space :=
  if Evictable (k.proc i).state then
    some ⟨(k.proc i).sz, fun pg => if pg < userPages then k.page (k.proc i).pgdir pg else none⟩
  else none

theorem space_of (hs : Evictable (k.proc i).state) : k.space i =
    some ⟨(k.proc i).sz, fun pg => if pg < userPages then k.page (k.proc i).pgdir pg else none⟩ :=
  if_pos hs

theorem space_none (hs : ¬Evictable (k.proc i).state) : k.space i = none := if_neg hs

theorem space_congr (hs : Evictable (k'.proc i).state ↔ Evictable (k.proc i).state)
    (hsz : (k'.proc i).sz = (k.proc i).sz)
    (hpage : Evictable (k.proc i).state → ∀ pg, pg < userPages →
      k'.page (k'.proc i).pgdir pg = k.page (k.proc i).pgdir pg) : k'.space i = k.space i := by
  by_cases h : Evictable (k.proc i).state
  · rw [space_of h, space_of (hs.mpr h), hsz]
    congr 2
    funext pg
    by_cases hpg : pg < userPages
    · rw [if_pos hpg, if_pos hpg, hpage h pg hpg]
    · rw [if_neg hpg, if_neg hpg]
  · rw [space_none h, space_none fun h' => h (hs.mp h')]

theorem OnlyTable.space (h : OnlyTable k k') (hs : Evictable (k'.proc i).state ↔ Evictable (k.proc i).state)
    (hsz : (k'.proc i).sz = (k.proc i).sz) (hd : (k'.proc i).pgdir = (k.proc i).pgdir) :
    k'.space i = k.space i :=
  space_congr hs hsz fun _ pg _ => by rw [hd, h.page]

theorem Tame.space (ht : Tame X k k' H) (h : Sane k H) (hi : i < nProc)
    (hX : ∀ pg, ¬X (k.proc i).pgdir pg) : k'.space i = k.space i :=
  space_congr (by rw [ht.calm.state]) (ht.calm.sz i) fun hev pg hpg => by
    rw [ht.calm.pgdir]
    exact ht.page _ pg ⟨_, h.dir_proc hi hev⟩ hpg (hX pg)

theorem Accounted.dir_unique (h : Accounted im k H) (hx : k.Dir H x d) (hy : k.Dir H y d) :
    x = y := by
  have := h.exact.unique (r := .dir x) (s := .dir y) (a := .frame d) ⟨_, hx, rfl⟩ ⟨_, hy, rfl⟩
  cases this
  rfl

/-- No two processes have the same directory. -/
theorem Wf.apart (h : Wf im k H) (hi : i < nProc) (hs : Evictable (k.proc i).state) (hj : j < nProc)
    (hs' : Evictable (k.proc j).state) (hd : (k.proc j).pgdir = (k.proc i).pgdir) : j = i := by
  have := h.acc.dir_unique (h.sane.dir_proc hj hs') (hd ▸ h.sane.dir_proc hi hs)
  cases this
  rfl

/-- An operation on the pages of one process is not seen by the others. -/
theorem Tame.space_of_ne (ht : Tame X k k' H) (h : Wf im k H) (hi : i < nProc)
    (hs : Evictable (k.proc i).state) (hX : ∀ d pg, X d pg → d = (k.proc i).pgdir) (hj : j < nProc)
    (hji : j ≠ i) : k'.space j = k.space j := by
  by_cases hev : Evictable (k.proc j).state
  · exact ht.space h.sane hj fun pg hx => hji (h.apart hi hs hj hev (hX _ pg hx))
  · rw [space_none hev, space_none (ht.calm.state j ▸ hev)]

theorem whole_mk (hsz : sz ≤ kernBase) (hfull : ∀ pg, pg < pageCount sz → (k.page d pg).isSome)
    (hrest : ∀ pg, pageCount sz ≤ pg → pg < userPages → k.page d pg = none) :
    Space.Whole ⟨sz, fun pg => if pg < userPages then k.page d pg else none⟩ := by
  intro pg
  dsimp only
  by_cases hpg : pg < userPages
  · rw [if_pos hpg]
    by_cases hin : pg < pageCount sz
    · exact iff_of_true (hfull pg hin) hin
    · rw [hrest pg (Nat.not_lt.mp hin) hpg]
      exact iff_of_false Bool.false_ne_true hin
  · rw [if_neg hpg]
    exact iff_of_false Bool.false_ne_true fun hin => hpg (Nat.lt_of_lt_of_le hin (pageCount_le hsz))

theorem Space.Whole.page (h : Space.Whole ⟨sz, fun pg => if pg < userPages then k.page d pg else none⟩)
    (hsz : sz ≤ kernBase) (hpg : pg < pageCount sz) : (k.page d pg).isSome := by
  have hsome := (h pg).mpr hpg
  have hup : pg < userPages := Nat.lt_of_lt_of_le hpg (pageCount_le hsz)
  dsimp only at hsome
  rwa [if_pos hup] at hsome

/-- No process sees a change. -/
def SameSpaces (k k' : Kernel) : Prop := ∀ j, j < nProc → k'.space j = k.space j

theorem SameSpaces.refl (k : Kernel) : SameSpaces k k := fun _ _ => rfl

theorem SameSpaces.trans (h : SameSpaces k k₁) (h' : SameSpaces k₁ k₂) : SameSpaces k k₂ :=
  fun j hj => (h' j hj).trans (h j hj)

theorem Tame.sameSpaces (ht : Tame noPage k k' H) (h : Sane k H) : SameSpaces k k' :=
  fun _ hj => ht.space h hj fun _ => id

/-- The address space of `p` is gone, and no other changes. -/
structure Leaves (k k' : Kernel) (p : Nat) : Prop where
  others : ∀ j, j < nProc → j ≠ p → k'.space j = k.space j
  self : k'.space p = none

/-- The address space of `p` changes as `R` says, and no other does. -/
structure Alters (k k' : Kernel) (p : Nat) (R : Space → Space → Prop) : Prop where
  others : ∀ j, j < nProc → j ≠ p → k'.space j = k.space j
  self : ∃ s s', k.space p = some s ∧ k'.space p = some s' ∧ R s s'

/-- The process `p` gets a child in the slot `i`, with as many pages; a page that was not evicted before
it was copied is as in the parent. -/
structure Forks (k k' : Kernel) (p i : Nat) : Prop where
  lt : i < nProc
  fresh : k.space i = none
  others : ∀ j, j < nProc → j ≠ i → k'.space j = k.space j
  copy : ∃ s c evs, k.space p = some s ∧ k'.space i = some c ∧ c.sz = s.sz ∧ c.Whole ∧
    k'.trail = evs ++ k.trail ∧ ∀ pg, (pg < pageCount s.sz → Timely evs (k.proc p).pgdir (pg * pgSize)) → c.page pg = s.page pg

theorem Alters.mono {p : Nat} {R R' : Space → Space → Prop} (h : Alters k k' p R)
    (hR : ∀ s s', k.space p = some s → R s s' → R' s s') : Alters k k' p R' where
  others := h.others
  self := by
    obtain ⟨s, s', hs, hs', hr⟩ := h.self
    exact ⟨s, s', hs, hs', hR s s' hs hr⟩

end Xv6.Swap
