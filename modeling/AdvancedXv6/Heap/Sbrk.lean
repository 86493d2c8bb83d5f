import AdvancedXv6.Heap.Malloc

/-! What `sbrk` does: fresh memory for a positive number of bytes, and none otherwise. -/

namespace Xv6.Heap
open Effect Bytes Process

variable {s t : Process} {a b m oldsz newsz : Nat} {n : Int} {grant : Bool} {E : Stop → Process → Prop}

theorem pgroundup_eq (h : a ≤ b) (hle : b ≤ pgroundup a) : pgroundup b = pgroundup a := by
  unfold pgroundup pgsize at *
  omega

theorem pgroundup_pos (h : 0 < a) : pgroundup a ≠ 0 := by
  have hle := le_pgroundup a
  omega

theorem wp_allocuvm (htop : s.top = pgroundup s.sz) :
    wp (allocuvm grant s.sz (s.sz + m)) s (fun r t =>
      r = 0 ∧ t = s ∧ (kernbase ≤ s.sz + m ∨ grant = false) ∨
      r = s.sz + m ∧ Grown m s { t with sz := s.sz + m } ∧ (s.sz + m ≤ pgroundup s.sz ∨ grant = true)) E := by
  have hnot : ¬s.sz + m < s.sz := by omega
  rw [allocuvm, wp_ite]
  refine ⟨fun hle => ?_, fun hlt => ?_⟩
  · rw [wp_pure]
    exact .inl ⟨rfl, rfl, .inl hle⟩
  rw [if_neg hnot, wp_ite]
  refine ⟨fun hle => ?_, fun hgt => ?_⟩
  · rw [wp_pure]
    have hpages : s.top = pgroundup (s.sz + m) := by rw [pgroundup_eq (Nat.le_add_right ..) hle, htop]
    exact .inr ⟨rfl, ⟨rfl, Nat.not_le.mp hlt, hpages, fun _ _ => rfl, rfl, rfl, rfl⟩, .inl hle⟩
  · rw [wp_ite]
    refine ⟨fun hg => ?_, fun hg => ?_⟩
    · rw [wp_bind, wp_modify, wp_pure]
      refine .inr ⟨rfl, ⟨rfl, Nat.not_le.mp hlt, rfl, fun a ha => if_neg ?_, rfl, rfl, rfl⟩, .inr hg⟩
      have hle := le_pgroundup s.sz
      omega
    · rw [wp_pure]
      exact .inl ⟨rfl, rfl, .inr (Bool.eq_false_iff.mpr hg)⟩

theorem newsz_eq (hsz : s.sz < kernbase) (hn : 0 < n) (hlt : n < 2 ^ 31) :
    ((s.sz + n) % uint).toNat = s.sz + n.toNat := by
  have hk : kernbase = 2 ^ 31 := rfl
  have hu : ((uint : Nat) : Int) = 2 ^ 32 := rfl
  rw [Int.emod_eq_of_lt (by omega) (by omega)]
  omega

/-- The kernel grows a process, or leaves it as it is. -/
theorem sbrk_grows (grant : Bool) (hn : 0 < n) (hlt : n < 2 ^ 31) (hpos : 0 < s.sz) (hsz : s.sz < kernbase) (htop : s.top = pgroundup s.sz) :
    wp (sbrk grant n) s (fun v t =>
      v = minusOne ∧ t = s ∧ (kernbase ≤ s.sz + n.toNat ∨ grant = false) ∨
      v = s.sz ∧ Grown n.toNat s t ∧ (s.sz + n.toNat ≤ pgroundup s.sz ∨ grant = true)) E := by
  rw [sbrk, wp_bind, wp_get, growproc, wp_bind, wp_bind, wp_get, if_pos hn, newsz_eq hsz hn hlt]
  refine wp_seq (wp_allocuvm htop) fun r t ht => ?_
  rcases ht with ⟨rfl, rfl, hwhy⟩ | ⟨rfl, hg, hwhy⟩
  · have hmapped : t.top ≠ 0 := htop ▸ pgroundup_pos hpos
    rw [if_pos rfl, wp_pure, wp_bind, wp_get, if_neg hmapped, if_pos (by decide), wp_pure]
    exact .inl ⟨rfl, rfl, hwhy⟩
  · have hne : s.sz + n.toNat ≠ 0 := by omega
    have hmapped : t.top ≠ 0 := by
      rw [show t.top = pgroundup (s.sz + n.toNat) from hg.top_eq]
      exact pgroundup_pos (by omega)
    rw [if_neg hne, wp_bind, wp_modify, wp_pure, wp_bind, wp_get, if_neg hmapped, if_neg (by decide), wp_pure]
    exact .inr ⟨rfl, hg, hwhy⟩

theorem sbrk_fresh (hn : 0 < n) (hlt : n < 2 ^ 31) : Fresh (sbrk grant) n := by
  intro s hpos hsz htop
  obtain ⟨v, t, hok, ⟨rfl, rfl, -⟩ | ⟨rfl, hg, -⟩⟩ := exists_ok_of_wp (sbrk_grows grant hn hlt hpos hsz htop)
  · exact .inl hok
  · exact .inr ⟨hn, t, hok, hg⟩

/-- Where a page is needed, the kernel refuses if the process would reach `kernbase` or no page can be had. -/
theorem sbrk_refuses (hn : (pgsize : Int) ≤ n) (hlt : n < 2 ^ 31) (hpos : 0 < s.sz) (hsz : s.sz < kernbase)
    (htop : s.top = pgroundup s.sz) :
    sbrk grant n s = .ok minusOne s ↔ kernbase ≤ s.sz + n.toNat ∨ grant = false := by
  have hn' : 0 < n := Int.lt_of_lt_of_le (by decide) hn
  obtain ⟨v, t, hok, ⟨rfl, rfl, hwhy⟩ | ⟨rfl, hg, hwhy⟩⟩ :=
    exists_ok_of_wp (sbrk_grows grant hn' hlt hpos hsz htop)
  · exact ⟨fun _ => hwhy, fun _ => hok⟩
  · have hk : kernbase < minusOne := by decide
    rw [hok]
    refine ⟨fun heq => ?_, fun hrefuse => ?_⟩
    · have hv := (EStateM.Result.ok.inj heq).1
      omega
    · have hbound := hg.sz_lt
      rw [hg.sz] at hbound
      rcases hrefuse with hle | rfl
      · omega
      · have hle := hwhy.resolve_right Bool.false_ne_true
        unfold pgroundup pgsize at *
        omega

/-- A program with its `base` at 1024 and its stack below 8192. -/
def loaded : Process := ⟨fun _ => 0, 8192, 8192, 1024, 0, []⟩

theorem loaded_raw : Raw 8192 loaded := ⟨rfl, by decide, by decide, rfl, by decide, by decide⟩

end Xv6.Heap
