import AdvancedXv6.Swap.UserSpec

/-! The abstract machine behind the paging kernel: each process has a flat memory of its own, and
neither frames nor slots exist. -/

namespace Xv6.Swap
open Function Effect

variable {o o' va va' : Nat} {b : BitVec 8}

/-! ### Bytes of a page -/

namespace UserPage
variable (u : UserPage)

theorem pageWords_pos : 0 < pageWords := by decide

def extend : Page := fun i => u.words ⟨i % pageWords, Nat.mod_lt _ pageWords_pos⟩

def setByte (o : Nat) (b : BitVec 8) : UserPage := ⟨fun i => Page.setByte u.extend o b i, u.perm⟩

theorem byte_setByte (ho' : o' < pgSize) : (u.setByte o b).byte o' = if o' = o then b else u.byte o' :=
  (UserPage.byte_eq _ _ ho').trans (Swap.byte_setByte _ _ _ _)

theorem setByte_mk (P : Page) (perm : Word) (ho : o < pgSize) :
    setByte ⟨fun i => P i, perm⟩ o b = ⟨fun i => Page.setByte P o b i, perm⟩ := by
  have hword (i : Fin pageWords) : extend ⟨fun i => P i, perm⟩ i = P i := by
    show P (i.val % pageWords) = P i.val
    rw [Nat.mod_eq_of_lt i.isLt]
  have hlt : o / 4 < pageWords := by
    rw [pgSize] at ho
    rw [pageWords]
    omega
  have hat : extend ⟨fun i => P i, perm⟩ (o / 4) = P (o / 4) := hword ⟨o / 4, hlt⟩
  rw [setByte]
  congr 1
  funext i
  rw [Page.setByte, Page.setByte, hat]
  by_cases hi : i.val = o / 4
  · rw [hi, update_self, update_self]
  · rw [update_of_ne hi, update_of_ne hi, hword]

end UserPage

/-! ### Bytes of an address space -/

namespace Space
variable (s : Space)

/-- What user code reads at `va`, if it may. -/
def read (va : Nat) : Option (BitVec 8) :=
  (s.page (va / pgSize)).bind fun u => if User u.perm then some (u.byte (va % pgSize)) else none

/-- User code may write to `va`. -/
def Writes (va : Nat) : Prop := ∃ u, s.page (va / pgSize) = some u ∧ User u.perm ∧ Writable u.perm

def write (va : Nat) (b : BitVec 8) : Space :=
  { s with page := update s.page (va / pgSize) ((s.page (va / pgSize)).map fun u => u.setByte (va % pgSize) b) }

theorem page_write (pg : Nat) : (s.write va b).page pg =
    if pg = va / pgSize then (s.page pg).map fun u => u.setByte (va % pgSize) b else s.page pg := by
  show update s.page _ _ pg = _
  by_cases h : pg = va / pgSize
  · rw [if_pos h, h, update_self]
  · rw [if_neg h, update_of_ne h]

/-- A store is seen by the loads from its address, and by no other. -/
theorem read_write : (s.write va b).read va' = if va' = va then (s.read va).map fun _ => b else s.read va' := by
  rw [read, read, read, page_write]
  by_cases hpg : va' / pgSize = va / pgSize
  · have hoff : va' = va ↔ va' % pgSize = va % pgSize := by
      rw [pgSize] at *
      omega
    rw [if_pos hpg, hpg]
    cases s.page (va / pgSize) with
    | none => simp
    | some u =>
      simp only [Option.map_some, Option.bind_some, u.byte_setByte (Nat.mod_lt va' (by decide)), hoff]
      by_cases hu : User u.perm
      · have hu' : User (u.setByte (va % pgSize) b).perm := hu
        by_cases ho : va' % pgSize = va % pgSize
        · simp [hu, hu', ho]
        · simp [hu, hu', ho]
      · have hu' : ¬User (u.setByte (va % pgSize) b).perm := hu
        simp [hu, hu']
  · have hne : va' ≠ va := by
      rintro rfl
      exact hpg rfl
    rw [if_neg hpg, if_neg hne]

end Space

end Xv6.Swap
