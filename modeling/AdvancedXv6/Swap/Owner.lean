import AdvancedXv6.Lib.Ownership
import AdvancedXv6.Swap.Pageswap

/-! Who owns the physical pages and the swap slots: the references that the kernel's data
structures hold, and the invariant that every page behind the kernel image and every slot has
exactly one of them. -/

namespace Xv6.Swap
open Function Ownership

inductive Res
  | frame (f : Nat)
  | slot (n : Nat)
  deriving DecidableEq

/-- What a page-table entry refers to. -/
def names (e : Word) : Option Res :=
  if Present e then some (.frame (frameOf e))
  else if Swapped e then some (.slot (slotOf e))
  else none

/-- What the data structures of the kernel do not show: the page directories and resources held
by local variables alone, the slots that `swap_in` left behind, and the process whose directory
is being torn down. -/
structure Held where
  dirs : List Nat
  res : List Res
  lost : List Nat
  gone : Option Nat

namespace Held

def none : Held := ⟨[], [], [], .none⟩

def hold (H : Held) (a : Res) : Held := { H with res := a :: H.res }

def lose (H : Held) (n : Nat) : Held := { H with lost := n :: H.lost }

def build (H : Held) (d : Nat) : Held := { H with dirs := d :: H.dirs }

end Held

inductive Holder
  | proc (i : Nat)
  | kernel
  | held

inductive Ref
  | free
  | held
  | lost
  | pipe
  | kstack (i : Nat)
  | dir (h : Holder)
  | tab (d i : Nat)
  | user (d pg : Nat)

/-- The page numbers below `KERNBASE`. -/
def userPages : Nat := 524288

/-- The states of a process that has an address space. -/
def HasVm (s : ProcState) : Prop := Evictable s ∨ s = .zombie

def Image.Stock (im : Image) : Res → Prop
  | .frame f => im.Valid f
  | .slot n => n < numSlots

namespace Kernel
variable (k : Kernel) (H : Held)

def Dir : Holder → Nat → Prop
  | .proc i, d => i < nProc ∧ HasVm (k.proc i).state ∧ H.gone ≠ some i ∧ (k.proc i).pgdir = d
  | .kernel, d => k.kpgdir = d ∧ d ≠ nullFrame
  | .held, d => d ∈ H.dirs

/-- The page directories in use. -/
def Live (d : Nat) : Prop := ∃ h, k.Dir H h d

/-- On the free list, or a free slot. -/
def Free : Res → Prop
  | .frame f => f ∈ k.freelist
  | .slot n => n < numSlots ∧ (k.swapSlots n).isFree = true

def Refers : Ref → Res → Prop
  | .free, a => k.Free a
  | .held, a => a ∈ H.res
  | .lost, a => ∃ n ∈ H.lost, a = .slot n
  | .pipe, a => ∃ f ∈ k.pipes, a = .frame f
  | .kstack i, a => i < nProc ∧ (k.proc i).kstack ≠ nullFrame ∧ a = .frame (k.proc i).kstack
  | .dir h, a => ∃ d, k.Dir H h d ∧ a = .frame d
  | .tab d i, a => k.Live H d ∧ i < nPdEntries ∧ Present (k.mem d i) ∧
      a = .frame (frameOf (k.mem d i))
  | .user d pg, a => k.Live H d ∧ pg < userPages ∧ ∃ e, k.entry d pg = some e ∧ names e = some a

/-- A frame that holds page-table entries. -/
def Table (t : Nat) : Prop := k.Live H t ∨ ∃ d i, k.Refers H (.tab d i) (.frame t)

end Kernel

structure Accounted (im : Image) (k : Kernel) (H : Held) : Prop where
  exact : Exact im.Stock (k.Refers H)
  free_nodup : k.freelist.Nodup
  pipes_nodup : k.pipes.Nodup
  res_nodup : H.res.Nodup
  dirs_nodup : H.dirs.Nodup
  count : k.freePagesCount = k.freelist.length

variable {im : Image} {k k' : Kernel} {H H' : Held} {d d' pg pg' f g n : Nat} {a : Res} {e w : Word}
  {q : PtePtr}

theorem userPages_div (hpg : pg < userPages) : pg / 1024 < nPdEntries := by
  rw [userPages] at hpg
  rw [nPdEntries]
  omega

theorem names_present (he : Present e) : names e = some (.frame (frameOf e)) := if_pos he

theorem names_swapped (hp : ¬Present e) (hs : Swapped e) : names e = some (.slot (slotOf e)) := by
  rw [names, if_neg hp, if_pos hs]

theorem names_none (hp : ¬Present e) (hs : ¬Swapped e) : names e = none := by
  rw [names, if_neg hp, if_neg hs]

theorem names_frame (h : names e = some (.frame f)) : Present e ∧ frameOf e = f := by
  by_cases hp : Present e
  · rw [names_present hp] at h
    exact ⟨hp, Res.frame.inj (Option.some.inj h)⟩
  · by_cases hs : Swapped e
    · rw [names_swapped hp hs] at h
      cases h
    · rw [names_none hp hs] at h
      cases h

theorem names_slot (h : names e = some (.slot n)) : ¬Present e ∧ Swapped e ∧ slotOf e = n := by
  by_cases hp : Present e
  · rw [names_present hp] at h
    cases h
  · by_cases hs : Swapped e
    · rw [names_swapped hp hs] at h
      exact ⟨hp, hs, Res.slot.inj (Option.some.inj h)⟩
    · rw [names_none hp hs] at h
      cases h

theorem Kernel.Live.valid (hk : Accounted im k H) (hd : k.Live H d) : im.Valid d := by
  obtain ⟨h, hd⟩ := hd
  exact hk.exact.valid (r := .dir h) (a := .frame d) ⟨d, hd, rfl⟩

theorem Accounted.ref_valid (hk : Accounted im k H) {r : Ref} (hr : k.Refers H r (.frame f)) :
    im.Valid f := hk.exact.valid hr

theorem Accounted.slot_lt (hk : Accounted im k H) {r : Ref} (hr : k.Refers H r (.slot n)) :
    n < numSlots := hk.exact.valid hr

theorem Accounted.not_table (hk : Accounted im k H) {r : Ref} (hf : k.Refers H r (.frame f))
    (hdir : ∀ x, r ≠ .dir x) (htab : ∀ d i, r ≠ .tab d i) : ¬k.Table H f := by
  rintro (⟨x, hx⟩ | ⟨d, i, hi⟩)
  · exact hdir x (hk.exact.unique hf ⟨f, hx, rfl⟩)
  · exact htab d i (hk.exact.unique hf hi)

/-- The page tables of two directories are never the same. -/
theorem Accounted.tab_inj (hk : Accounted im k H) {i j t : Nat}
    (h : k.Refers H (.tab d i) (.frame t)) (h' : k.Refers H (.tab d' j) (.frame t)) :
    d = d' ∧ i = j := by
  have := hk.exact.unique h h'
  injection this with h₁ h₂
  exact ⟨h₁, h₂⟩

theorem Accounted.tab_ne_live (hk : Accounted im k H) {i t : Nat}
    (h : k.Refers H (.tab d i) (.frame t)) : ¬k.Live H t := by
  rintro ⟨x, hx⟩
  exact Ref.noConfusion (hk.exact.unique h (show k.Refers H (.dir x) (.frame t) from ⟨t, hx, rfl⟩))

/-! ### States that agree on the tables -/

/-- The two states have the same directories, page tables, kernel stacks and pipes. -/
structure SameTables (k k' : Kernel) (H : Held) : Prop where
  vm : ∀ i, HasVm (k'.proc i).state ↔ HasVm (k.proc i).state
  pgdir : ∀ i, (k'.proc i).pgdir = (k.proc i).pgdir
  kstack : ∀ i, (k'.proc i).kstack = (k.proc i).kstack
  kpgdir : k'.kpgdir = k.kpgdir
  pipes : k'.pipes = k.pipes
  mem : ∀ t, k.Table H t → k'.mem t = k.mem t

theorem SameTables.dir (h : SameTables k k' H) (x : Holder) (d : Nat) :
    k'.Dir H x d ↔ k.Dir H x d := by
  cases x with
  | proc i => simp only [Kernel.Dir, h.vm, h.pgdir]
  | kernel => simp only [Kernel.Dir, h.kpgdir]
  | held => rfl

theorem SameTables.live (h : SameTables k k' H) (d : Nat) : k'.Live H d ↔ k.Live H d :=
  exists_congr fun x => h.dir x d

theorem SameTables.entry (h : SameTables k k' H) (hd : k.Live H d) (hpg : pg / 1024 < nPdEntries) :
    k'.entry d pg = k.entry d pg := by
  rw [Kernel.entry, Kernel.entry, h.mem d (.inl hd)]
  by_cases hp : Present (k.mem d (pg / 1024))
  · rw [h.mem _ (.inr ⟨d, pg / 1024, hd, hpg, hp, rfl⟩)]
  · simp only [hp, if_false]

theorem SameTables.refers (h : SameTables k k' H) {r : Ref} (hr : r ≠ .free) (a : Res) :
    k'.Refers H r a ↔ k.Refers H r a := by
  cases r with
  | free => exact absurd rfl hr
  | held | lost => rfl
  | pipe => simp only [Kernel.Refers, h.pipes]
  | kstack i => simp only [Kernel.Refers, h.kstack]
  | dir x => simp only [Kernel.Refers, h.dir]
  | tab d i =>
    simp only [Kernel.Refers, h.live]
    exact and_congr_right fun hd => by rw [h.mem d (.inl hd)]
  | user d pg =>
    simp only [Kernel.Refers, h.live]
    exact and_congr_right fun hd => and_congr_right fun hpg => by
      rw [h.entry hd (userPages_div hpg)]

theorem SameTables.accounted (h : SameTables k k' H) (hk : Accounted im k H)
    (hf : k'.freelist = k.freelist) (hc : k'.freePagesCount = k.freePagesCount)
    (hs : ∀ n, (k'.swapSlots n).isFree = (k.swapSlots n).isFree) : Accounted im k' H where
  exact := hk.exact.congr fun r a => by
    by_cases hr : r = .free
    · subst hr
      cases a with
      | frame f => simp only [Kernel.Refers, Kernel.Free, hf]
      | slot n => simp only [Kernel.Refers, Kernel.Free, hs]
    · exact h.refers hr a
  free_nodup := hf ▸ hk.free_nodup
  pipes_nodup := h.pipes ▸ hk.pipes_nodup
  res_nodup := hk.res_nodup
  dirs_nodup := hk.dirs_nodup
  count := by rw [hc, hf, hk.count]

@[simp] theorem setProc_self {i : Nat} {p : Proc} : (k.setProc i p).proc i = p := update_self _ _ _

theorem setProc_of_ne {i j : Nat} {p : Proc} (h : j ≠ i) : (k.setProc i p).proc j = k.proc j :=
  update_of_ne h _ _

@[simp] theorem setPage_mem_self (p : Page) : (k.setPage f p).mem f = p := update_self _ _ _

theorem setPage_mem_of_ne (h : g ≠ f) (p : Page) : (k.setPage f p).mem g = k.mem g :=
  update_of_ne h _ _

theorem SameTables.hold (h : SameTables k k' H) : SameTables k k' (H.hold a) :=
  ⟨h.vm, h.pgdir, h.kstack, h.kpgdir, h.pipes, h.mem⟩

/-- Writing a page that is no table leaves all references. -/
theorem sameTables_setPage (hf : ¬k.Table H f) (p : Page) : SameTables k (k.setPage f p) H where
  vm _ := Iff.rfl
  pgdir _ := rfl
  kstack _ := rfl
  kpgdir := rfl
  pipes := rfl
  mem t ht := by
    refine setPage_mem_of_ne ?_ p
    rintro rfl
    exact hf ht

/-! ### Resources in local variables -/

theorem refers_hold {r : Ref} {b : Res} (h : k.Refers H r b) : k.Refers (H.hold a) r b := by
  cases r with
  | held => exact List.mem_cons_of_mem _ h
  | _ => exact h

/-- A local variable gets hold of a resource that `r₁` referred to. -/
theorem Accounted.grab {r₁ : Ref} (hk : Accounted im k H) (k' : Kernel) (H' : Held)
    (ha : k.Refers H r₁ a) (hr₁ : r₁ ≠ .held) (hres : H'.res = a :: H.res)
    (hR : ∀ r b, r ≠ .held → (k'.Refers H' r b ↔ k.Refers H r b ∧ b ≠ a)) :
    Exact im.Stock (k'.Refers H') ∧ H'.res.Nodup := by
  have hout : a ∉ H.res := fun h => hr₁ (hk.exact.unique ha (s := .held) h)
  refine ⟨hk.exact.move .held ha fun r b => ?_, ?_⟩
  · by_cases hr : r = .held
    · subst hr
      simp only [Kernel.Refers, hres, List.mem_cons, and_true]
      by_cases hb : b = a
      · simp [hb]
      · simp [hb]
    · rw [hR r b hr]
      simp [hr, and_comm]
  · rw [hres]
    exact List.nodup_cons.mpr ⟨hout, hk.res_nodup⟩

/-- A resource held by a local variable is handed to `r₀`. -/
theorem Accounted.drop (hk : Accounted im k H) (k' : Kernel) (H' : Held) (r₀ : Ref)
    (hr₀ : r₀ ≠ .held) (hres : H.res = a :: H'.res)
    (hR : ∀ r b, r ≠ .held → (k'.Refers H' r b ↔ (r = r₀ ∧ b = a) ∨ k.Refers H r b)) :
    Exact im.Stock (k'.Refers H') ∧ H'.res.Nodup := by
  have hheld : k.Refers H .held a := by
    rw [Kernel.Refers, hres]
    exact List.mem_cons_self
  obtain ⟨hout, hnd⟩ := List.nodup_cons.mp (hres ▸ hk.res_nodup)
  refine ⟨hk.exact.move r₀ hheld fun r b => ?_, hnd⟩
  by_cases hr : r = .held
  · subst hr
    simp only [Kernel.Refers, hres, List.mem_cons, hr₀.symm, and_false, false_or]
    constructor
    · intro hb
      refine ⟨?_, .inr hb⟩
      rintro rfl
      exact hout hb
    · rintro ⟨hb, h | h⟩
      · exact absurd h hb
      · exact h
  · rw [hR r b hr]
    by_cases hb : b = a
    · subst hb
      have hno : ¬k.Refers H r b := fun h => hr (hk.exact.unique h hheld)
      simp [hno]
    · simp [hb]

/-- `kalloc` takes the head of the free list. -/
theorem Accounted.take (hk : Accounted im k H) (hs : SameTables k k' H)
    (hf : k.freelist = f :: k'.freelist) (hc : k'.freePagesCount = k.freePagesCount - 1)
    (hsl : k'.swapSlots = k.swapSlots) : Accounted im k' (H.hold (.frame f)) := by
  have hfree : k.Refers H .free (.frame f) := by
    rw [Kernel.Refers, Kernel.Free, hf]
    exact List.mem_cons_self
  obtain ⟨hnotin, hnd⟩ := List.nodup_cons.mp (hf ▸ hk.free_nodup)
  obtain ⟨hex, hres⟩ := hk.grab k' (H.hold (.frame f)) hfree (by simp) rfl fun r b _ => by
    by_cases hr : r = .free
    · subst hr
      cases b with
      | slot n => simp [Kernel.Refers, Kernel.Free, hsl]
      | frame g =>
        simp only [Kernel.Refers, Kernel.Free, hf, List.mem_cons, ne_eq, Res.frame.injEq]
        constructor
        · intro hg
          refine ⟨.inr hg, ?_⟩
          rintro rfl
          exact hnotin hg
        · rintro ⟨h | h, hg⟩
          · exact absurd h hg
          · exact h
    · refine (show k'.Refers (H.hold (.frame f)) r b ↔ k.Refers H r b from ?_).trans
        ⟨fun h => ⟨h, ?_⟩, And.left⟩
      · cases r with
        | held => contradiction
        | _ => exact hs.refers hr b
      · rintro rfl
        exact hr (hk.exact.unique h hfree)
  exact ⟨hex, hnd, hs.pipes ▸ hk.pipes_nodup, hres, hk.dirs_nodup, by rw [hc, hk.count, hf]; simp⟩

/-- `kfree` of a frame that a local variable holds. -/
theorem Accounted.give (hk : Accounted im k (H.hold (.frame f))) (hs : SameTables k k' H)
    (hf : k'.freelist = f :: k.freelist) (hc : k'.freePagesCount = k.freePagesCount + 1)
    (hsl : k'.swapSlots = k.swapSlots) : Accounted im k' H := by
  have hheld : k.Refers (H.hold (.frame f)) .held (.frame f) := List.mem_cons_self
  obtain ⟨hex, hres⟩ := hk.drop k' H .free (by simp) rfl fun r b _ => by
    by_cases hr : r = .free
    · subst hr
      cases b with
      | slot n => simp [Kernel.Refers, Kernel.Free, hsl]
      | frame g => simp [Kernel.Refers, Kernel.Free, hf]
    · simp only [hr, false_and, false_or]
      cases r with
      | held => contradiction
      | _ => exact hs.refers hr b
  refine ⟨hex, ?_, hs.pipes ▸ hk.pipes_nodup, hres, hk.dirs_nodup, by rw [hc, hk.count, hf]; simp⟩
  rw [hf]
  refine List.nodup_cons.mpr ⟨fun h => ?_, hk.free_nodup⟩
  exact Ref.noConfusion (hk.exact.unique hheld
    (show k.Refers (H.hold (.frame f)) .free (.frame f) from h))

/-- `find_free_slot` takes a slot. -/
theorem Accounted.takeSlot (hk : Accounted im k H) (hs : SameTables k k' H) (hn : n < numSlots)
    (hfree : (k.swapSlots n).isFree = true)
    (hsl : ∀ m, (k'.swapSlots m).isFree = true ↔ m ≠ n ∧ (k.swapSlots m).isFree = true)
    (hf : k'.freelist = k.freelist) (hc : k'.freePagesCount = k.freePagesCount) :
    Accounted im k' (H.hold (.slot n)) := by
  have hfree : k.Refers H .free (.slot n) := ⟨hn, hfree⟩
  obtain ⟨hex, hres⟩ := hk.grab k' (H.hold (.slot n)) hfree (by simp) rfl fun r b _ => by
    by_cases hr : r = .free
    · subst hr
      cases b with
      | slot m =>
        simp only [Kernel.Refers, Kernel.Free, hsl, ne_eq, Res.slot.injEq]
        tauto
      | frame g => simp [Kernel.Refers, Kernel.Free, hf]
    · refine (show k'.Refers (H.hold (.slot n)) r b ↔ k.Refers H r b from ?_).trans
        ⟨fun h => ⟨h, ?_⟩, And.left⟩
      · cases r with
        | held => contradiction
        | _ => exact hs.refers hr b
      · rintro rfl
        exact hr (hk.exact.unique h hfree)
  exact ⟨hex, hf ▸ hk.free_nodup, hs.pipes ▸ hk.pipes_nodup, hres, hk.dirs_nodup,
    by rw [hc, hf, hk.count]⟩

/-- `free_swap_slot` of a slot that a local variable holds. -/
theorem Accounted.giveSlot (hk : Accounted im k (H.hold (.slot n))) (hs : SameTables k k' H)
    (hsl : ∀ m, (k'.swapSlots m).isFree = true ↔ m = n ∨ (k.swapSlots m).isFree = true)
    (hf : k'.freelist = k.freelist) (hc : k'.freePagesCount = k.freePagesCount) :
    Accounted im k' H := by
  have hn : n < numSlots := hk.slot_lt (r := .held) List.mem_cons_self
  obtain ⟨hex, hres⟩ := hk.drop k' H .free (by simp) rfl fun r b _ => by
    by_cases hr : r = .free
    · subst hr
      cases b with
      | frame g => simp [Kernel.Refers, Kernel.Free, hf]
      | slot m =>
        simp only [Kernel.Refers, Kernel.Free, hsl, true_and, Res.slot.injEq]
        constructor
        · rintro ⟨hm, h | h⟩
          · exact .inl h
          · exact .inr ⟨hm, h⟩
        · rintro (rfl | ⟨hm, h⟩)
          · exact ⟨hn, .inl rfl⟩
          · exact ⟨hm, .inr h⟩
    · simp only [hr, false_and, false_or]
      cases r with
      | held => contradiction
      | _ => exact hs.refers hr b
  exact ⟨hex, hf ▸ hk.free_nodup, hs.pipes ▸ hk.pipes_nodup, hres, hk.dirs_nodup,
    by rw [hc, hf, hk.count]⟩

/-- A slot that no entry refers to any more, and that nobody frees. -/
theorem Accounted.lose (hk : Accounted im k (H.hold (.slot n))) : Accounted im k (H.lose n) := by
  obtain ⟨hex, hres⟩ := hk.drop k (H.lose n) .lost (by simp) rfl fun r b hr => by
    cases r with
    | held => contradiction
    | lost => simp [Kernel.Refers, Held.lose, Held.hold]
    | _ => simp only [reduceCtorEq, false_and, false_or]; exact Iff.rfl
  exact ⟨hex, hk.free_nodup, hk.pipes_nodup, hres, hk.dirs_nodup, hk.count⟩

/-! ### Kernel stacks and pipes -/

theorem dir_setKstack {i : Nat} {x : Holder} :
    (k.setProc i { k.proc i with kstack := f }).Dir H x d ↔ k.Dir H x d := by
  cases x with
  | proc j => by_cases hj : j = i <;> simp [Kernel.Dir, Kernel.setProc, hj]
  | _ => exact Iff.rfl

theorem live_setKstack {i : Nat} :
    (k.setProc i { k.proc i with kstack := f }).Live H d ↔ k.Live H d :=
  exists_congr fun _ => dir_setKstack

/-- A process gets the kernel stack `f`. -/
theorem Accounted.setKstack {i : Nat} (hk : Accounted im k (H.hold (.frame f))) (hi : i < nProc)
    (hold : (k.proc i).kstack = nullFrame) :
    Accounted im (k.setProc i { k.proc i with kstack := f }) H := by
  have hf : f ≠ nullFrame := by
    have := (hk.ref_valid (r := .held) List.mem_cons_self).2
    rintro rfl
    exact absurd this (by decide)
  obtain ⟨hex, hres⟩ := hk.drop (k.setProc i { k.proc i with kstack := f }) H
    (.kstack i) (by simp) rfl fun r b hr => by
    cases r with
    | held => contradiction
    | kstack j =>
      by_cases hj : j = i
      · subst hj
        simp [Kernel.Refers, Kernel.setProc, hi, hold, hf]
      · simp [Kernel.Refers, Kernel.setProc, hj]
    | dir x => simp only [Kernel.Refers, dir_setKstack, reduceCtorEq, false_and, false_or]; exact Iff.rfl
    | tab d j =>
      simp only [Kernel.Refers, live_setKstack, reduceCtorEq, false_and, false_or]; exact Iff.rfl
    | user d pg =>
      simp only [Kernel.Refers, live_setKstack, reduceCtorEq, false_and, false_or]; exact Iff.rfl
    | _ => simp only [reduceCtorEq, false_and, false_or]; exact Iff.rfl
  exact ⟨hex, hk.free_nodup, hk.pipes_nodup, hres, hk.dirs_nodup, hk.count⟩

/-- A kernel stack is taken away from its process. -/
theorem Accounted.clearKstack {i : Nat} (hk : Accounted im k H) (hi : i < nProc)
    (hne : (k.proc i).kstack ≠ nullFrame) :
    Accounted im (k.setProc i { k.proc i with kstack := nullFrame })
      (H.hold (.frame (k.proc i).kstack)) := by
  have href : k.Refers H (.kstack i) (.frame (k.proc i).kstack) := ⟨hi, hne, rfl⟩
  obtain ⟨hex, hres⟩ := hk.grab (k.setProc i { k.proc i with kstack := nullFrame })
    (H.hold (.frame (k.proc i).kstack)) href (by simp) rfl fun r b hr => by
    by_cases hri : r = .kstack i
    · subst hri
      simp [Kernel.Refers, Kernel.setProc]
    · refine (show _ ↔ k.Refers H r b from ?_).trans ⟨fun h => ⟨h, ?_⟩, And.left⟩
      · cases r with
        | held => contradiction
        | kstack j =>
          have hj : j ≠ i := fun e => hri (e ▸ rfl)
          simp [Kernel.Refers, Kernel.setProc, hj]
        | dir x => exact exists_congr fun d => and_congr_left fun _ => dir_setKstack
        | tab d j => exact and_congr_left fun _ => live_setKstack
        | user d pg => exact and_congr_left fun _ => live_setKstack
        | _ => exact Iff.rfl
      · rintro rfl
        exact hri (hk.exact.unique h href)
  exact ⟨hex, hk.free_nodup, hk.pipes_nodup, hres, hk.dirs_nodup, hk.count⟩

theorem Accounted.addPipe (hk : Accounted im k (H.hold (.frame f))) :
    Accounted im { k with pipes := f :: k.pipes } H := by
  obtain ⟨hex, hres⟩ := hk.drop { k with pipes := f :: k.pipes } H
    .pipe (by simp) rfl fun r b hr => by
    cases r with
    | held => contradiction
    | pipe => simp [Kernel.Refers]
    | _ => simp only [reduceCtorEq, false_and, false_or]; exact Iff.rfl
  refine ⟨hex, hk.free_nodup, List.nodup_cons.mpr ⟨fun h => ?_, hk.pipes_nodup⟩, hres,
    hk.dirs_nodup, hk.count⟩
  exact Ref.noConfusion (hk.exact.unique (r := .pipe) (s := .held) (a := .frame f) ⟨f, h, rfl⟩
    List.mem_cons_self)

theorem Accounted.erasePipe (hk : Accounted im k H) (hf : f ∈ k.pipes) :
    Accounted im { k with pipes := k.pipes.erase f } (H.hold (.frame f)) := by
  have href : k.Refers H .pipe (.frame f) := ⟨f, hf, rfl⟩
  obtain ⟨hex, hres⟩ := hk.grab { k with pipes := k.pipes.erase f }
    (H.hold (.frame f)) href (by simp) rfl fun r b hr => by
    by_cases hrp : r = .pipe
    · subst hrp
      simp only [Kernel.Refers, hk.pipes_nodup.mem_erase_iff]
      constructor
      · rintro ⟨g, ⟨hg, hm⟩, rfl⟩
        exact ⟨⟨g, hm, rfl⟩, fun e => hg (Res.frame.inj e)⟩
      · rintro ⟨⟨g, hm, rfl⟩, hne⟩
        exact ⟨g, ⟨fun e => hne (e ▸ rfl), hm⟩, rfl⟩
    · refine (show _ ↔ k.Refers H r b from ?_).trans ⟨fun h => ⟨h, ?_⟩, And.left⟩
      · cases r with
        | held => contradiction
        | pipe => contradiction
        | _ => exact Iff.rfl
      · rintro rfl
        exact hrp (hk.exact.unique h href)
  exact ⟨hex, hk.free_nodup, hk.pipes_nodup.erase f, hres, hk.dirs_nodup, hk.count⟩

end Xv6.Swap
