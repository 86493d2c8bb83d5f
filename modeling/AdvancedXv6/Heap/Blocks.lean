import AdvancedXv6.Heap.State
import AdvancedXv6.Lib.Circle

/-! The memory that the allocator has from `sbrk`, as a list of blocks in the order of their addresses, and what it
means for a process to have its heap laid out so. -/

namespace Xv6.Heap
open Effect Bytes Circle

variable {s t : Process} {a b p q x y start : Nat} {g : Nat × Option Nat} {α : Type} {Q : α → Process → Prop}
  {E : Stop → Process → Prop}

theorem le_pgroundup (a : Nat) : a ≤ pgroundup a := by
  unfold pgroundup pgsize
  omega

/-! ### Headers in memory -/

/-- There is room for a header. -/
def Fits (a : Nat) : Prop := a + 8 ≤ kernbase

/-- The headers at `a` and `b` have no byte in common. -/
def Apart (a b : Nat) : Prop := a + 8 ≤ b ∨ b + 8 ≤ a

theorem Fits.sizeAddr (h : Fits a) : (a + 4) % uint = a + 4 := by
  have hlt : a + 8 ≤ 2 ^ 31 := h
  exact Nat.mod_eq_of_lt (Nat.lt_of_le_of_lt (show a + 4 ≤ 2 ^ 31 by omega) (by decide))

theorem Fits.lt (h : Fits a) : a < uint := by
  have hlt : a + 8 ≤ 2 ^ 31 := h
  exact Nat.lt_of_le_of_lt (show a ≤ 2 ^ 31 by omega) (by decide)

namespace Process

theorem ptr_setPtr (hx : x < uint) : (s.setPtr a x).ptr a = x := word_put_digits hx

theorem size_setSize (hx : x < uint) : (s.setSize a x).size a = x := word_put_digits hx

theorem size_setPtr (ha : Fits a) : (s.setPtr a x).size a = s.size a := by
  rw [size, size, ha.sizeAddr]
  exact word_put_out (.inr (Nat.le_refl _))

theorem ptr_setSize (ha : Fits a) : (s.setSize a x).ptr a = s.ptr a := by
  rw [setSize, ha.sizeAddr]
  exact word_put_out (.inl (Nat.le_refl _))

theorem ptr_setPtr_of_apart (h : Apart a b) : (s.setPtr a x).ptr b = s.ptr b := by
  unfold Apart at h
  exact word_put_out (by omega)

theorem size_setPtr_of_apart (hb : Fits b) (h : Apart a b) : (s.setPtr a x).size b = s.size b := by
  unfold Apart at h
  rw [size, size, hb.sizeAddr]
  exact word_put_out (by omega)

theorem ptr_setSize_of_apart (ha : Fits a) (h : Apart a b) : (s.setSize a x).ptr b = s.ptr b := by
  unfold Apart at h
  rw [setSize, ha.sizeAddr]
  exact word_put_out (by omega)

theorem size_setSize_of_apart (ha : Fits a) (hb : Fits b) (h : Apart a b) : (s.setSize a x).size b = s.size b := by
  unfold Apart at h
  rw [size, size, hb.sizeAddr, setSize, ha.sizeAddr]
  exact word_put_out (by omega)

/-- The header at `a` is mapped. -/
def Mapped (s : Process) (a : Nat) : Prop := a + 8 ≤ s.sz ∧ s.sz ≤ s.top ∧ s.sz < kernbase

theorem Mapped.fits (h : s.Mapped a) : Fits a := h.1.trans (Nat.le_of_lt h.2.2)

@[simp] theorem mapped_setPtr : (s.setPtr p x).Mapped a ↔ s.Mapped a := Iff.rfl

@[simp] theorem mapped_setSize : (s.setSize p x).Mapped a ↔ s.Mapped a := Iff.rfl

end Process

open Process

theorem wp_access {Q : Unit → Process → Prop} (h : a + 4 ≤ s.top) : wp (access a) s Q E ↔ Q () s := by
  rw [access, wp_bind, wp_get, wp_ite, wp_pure]
  exact ⟨fun hw => hw.2 (Nat.not_lt.mpr h), fun hq => ⟨fun hlt => absurd h (Nat.not_le.mpr hlt), fun _ => hq⟩⟩

theorem Process.Mapped.le (h : s.Mapped a) : a + 4 ≤ s.top ∧ (a + 4) % uint + 4 ≤ s.top := by
  have hsz := h.1.trans h.2.1
  rw [h.fits.sizeAddr]
  omega

theorem wp_getPtr {Q : Nat → Process → Prop} (h : s.Mapped p) : wp (getPtr p) s Q E ↔ Q (s.ptr p) s := by
  rw [getPtr, wp_bind, wp_access h.le.1, wp_bind, wp_get, wp_pure]

theorem wp_getSize {Q : Nat → Process → Prop} (h : s.Mapped p) : wp (getSize p) s Q E ↔ Q (s.size p) s := by
  rw [getSize, wp_bind, wp_access h.le.2, wp_bind, wp_get, wp_pure]

theorem wp_setPtr {Q : Unit → Process → Prop} (h : s.Mapped p) : wp (setPtr p x) s Q E ↔ Q () (s.setPtr p x) := by
  rw [setPtr, wp_bind, wp_access h.le.1, wp_modify]

theorem wp_setSize {Q : Unit → Process → Prop} (h : s.Mapped p) : wp (setSize p x) s Q E ↔ Q () (s.setSize p x) := by
  rw [setSize, wp_bind, wp_access h.le.2, wp_modify]

/-! ### Blocks -/

/-- A block with its header: a live one has the number of bytes that were asked for. -/
structure Block where
  units : Nat
  req : Option Nat

def Block.Free (g : Block) : Prop := g.req = none

instance (g : Block) : Decidable g.Free := inferInstanceAs (Decidable (_ = _))

def total : List Block → Nat
  | [] => 0
  | g :: gs => g.units + total gs

/-- The blocks with their addresses, the first one at `a`. -/
def place : Nat → List Block → List (Nat × Block)
  | _, [] => []
  | a, g :: gs => (a, g) :: place (a + headerSize * g.units) gs

/-- The addresses of the free ones. -/
def frees (a : Nat) (gs : List Block) : List Nat := ((place a gs).filter fun x => x.2.Free).map Prod.fst

/-- The live ones. -/
def lives (a : Nat) (gs : List Block) : List (Nat × Block) := (place a gs).filter fun x => ¬x.2.Free

variable {gs pre mid mid' post : List Block} {A C : List Nat}

theorem total_append : total (gs ++ post) = total gs + total post := by
  induction gs with
  | nil => exact (Nat.zero_add _).symm
  | cons g gs ih => rw [List.cons_append, total, total, ih, Nat.add_assoc]

theorem place_append : place a (gs ++ post) = place a gs ++ place (a + headerSize * total gs) post := by
  induction gs generalizing a with
  | nil => rfl
  | cons g gs ih => rw [List.cons_append, place, place, ih, total, Nat.mul_add, Nat.add_assoc, List.cons_append]

theorem frees_append : frees a (gs ++ post) = frees a gs ++ frees (a + headerSize * total gs) post := by
  rw [frees, place_append, List.filter_append, List.map_append, ← frees, ← frees]

theorem mem_frees : b ∈ frees a gs ↔ ∃ g, (b, g) ∈ place a gs ∧ g.Free := by
  simp [frees]

theorem lives_append : lives a (gs ++ post) = lives a gs ++ lives (a + headerSize * total gs) post := by
  rw [lives, place_append, List.filter_append, ← lives, ← lives]

theorem mem_lives {x : Nat × Block} : x ∈ lives a gs ↔ x ∈ place a gs ∧ ¬x.2.Free := by
  simp [lives]

/-- A block lies between the first address and the last. -/
theorem place_bounds {x : Nat × Block} (hx : x ∈ place a gs) :
    a ≤ x.1 ∧ x.1 + headerSize * x.2.units ≤ a + headerSize * total gs := by
  induction gs generalizing a with
  | nil => exact absurd hx List.not_mem_nil
  | cons g gs ih =>
    rw [total, Nat.mul_add]
    rcases List.mem_cons.mp hx with rfl | hx
    · exact ⟨Nat.le_refl a, Nat.add_le_add_left (Nat.le_add_right ..) a⟩
    · have hrest := ih hx
      omega

theorem place_pairwise : (place a gs).Pairwise fun x y => x.1 + headerSize * x.2.units ≤ y.1 := by
  induction gs generalizing a with
  | nil => exact .nil
  | cons g gs ih => exact .cons (fun y hy => (place_bounds hy).1) ih

/-- Two blocks have no byte in common. -/
def Clear (x y : Nat × Block) : Prop :=
  x.1 + headerSize * x.2.units ≤ y.1 ∨ y.1 + headerSize * y.2.units ≤ x.1

instance : Std.Symm Clear := ⟨fun _ _ h => Or.symm h⟩

theorem place_clear {x y : Nat × Block} (hx : x ∈ place a gs) (hy : y ∈ place a gs) (hne : x ≠ y) : Clear x y :=
  (place_pairwise.imp (S := Clear) .inl).forall hx hy hne

theorem place_mem {x : Nat × Block} (hx : x ∈ place a gs) : x.2 ∈ gs := by
  induction gs generalizing a with
  | nil => exact absurd hx List.not_mem_nil
  | cons g gs ih =>
    rcases List.mem_cons.mp hx with rfl | hx
    · exact List.mem_cons_self
    · exact List.mem_cons_of_mem _ (ih hx)

/-- Every byte lies in a block. -/
theorem place_cover (h : a ≤ b) (hb : b < a + headerSize * total gs) :
    ∃ x ∈ place a gs, x.1 ≤ b ∧ b < x.1 + headerSize * x.2.units := by
  induction gs generalizing a with
  | nil => exact absurd hb (by rw [total]; omega)
  | cons g gs ih =>
    by_cases hin : b < a + headerSize * g.units
    · exact ⟨(a, g), List.mem_cons_self, h, hin⟩
    · rw [total, Nat.mul_add] at hb
      obtain ⟨x, hx, hle, hlt⟩ := ih (Nat.not_lt.mp hin) (by omega)
      exact ⟨x, List.mem_cons_of_mem _ hx, hle, hlt⟩

theorem place_split {x : Nat × Block} (hx : x ∈ place a gs) :
    ∃ pre post, gs = pre ++ x.2 :: post ∧ x.1 = a + headerSize * total pre := by
  induction gs generalizing a with
  | nil => exact absurd hx List.not_mem_nil
  | cons g gs ih =>
    rcases List.mem_cons.mp hx with rfl | hx
    · exact ⟨[], gs, rfl, rfl⟩
    · obtain ⟨pre, post, rfl, heq⟩ := ih hx
      exact ⟨g :: pre, post, rfl, by rw [heq, total, Nat.mul_add, Nat.add_assoc]⟩

/-! ### The heap of a process -/

/-- No two free blocks next to each other. -/
def Spaced (gs : List Block) : Prop := gs.IsChain fun g h => ¬(g.Free ∧ h.Free)

/-- The heap of the process, from the address `start` on, consists of the blocks `gs`. -/
structure Laid (start : Nat) (gs : List Block) (s : Process) : Prop where
  base_pos : 0 < s.base
  base_le : s.base + headerSize ≤ start
  sz_eq : s.sz = start + headerSize * total gs
  sz_lt : s.sz < kernbase
  top_eq : s.top = pgroundup s.sz
  pos : ∀ g ∈ gs, 0 < g.units
  sizes : ∀ x ∈ place start gs, s.size x.1 = x.2.units
  size_base : s.size s.base = 0
  ring : Circular s.ptr (s.base :: frees start gs)
  freep : s.freep ∈ s.base :: frees start gs
  spaced : Spaced gs

/-- The addresses of all headers. -/
def headers (base start : Nat) (gs : List Block) : List Nat := base :: (place start gs).map Prod.fst

theorem ring_sub {base : Nat} : base :: frees start gs ⊆ headers base start gs :=
  List.cons_subset_cons base (List.map_subset _ (List.filter_subset_self _))

theorem place_header {base : Nat} {x : Nat × Block} (hx : x ∈ place start gs) : x.1 ∈ headers base start gs :=
  List.mem_cons_of_mem _ (List.mem_map_of_mem hx)

namespace Laid
variable (h : Laid start gs s)
include h

theorem sz_pos : 0 < s.sz := by
  have hle := h.base_le
  have hpos := h.base_pos
  have hsz := h.sz_eq
  omega

theorem sz_le : s.sz ≤ s.top := h.top_eq ▸ le_pgroundup s.sz

theorem mapped (ha : a ∈ headers s.base start gs) : s.Mapped a := by
  have hle := h.base_le
  have hsz := h.sz_eq
  unfold headerSize at hle hsz
  rcases List.mem_cons.mp ha with rfl | ha
  · exact ⟨by omega, h.sz_le, h.sz_lt⟩
  · obtain ⟨x, hx, rfl⟩ := List.mem_map.mp ha
    have hb := place_bounds hx
    have hpos := h.pos _ (place_mem hx)
    unfold headerSize at hb
    exact ⟨by omega, h.sz_le, h.sz_lt⟩

theorem apart (ha : a ∈ headers s.base start gs) (hb : b ∈ headers s.base start gs) (hne : a ≠ b) : Apart a b := by
  have hbase {x : Nat × Block} (hx : x ∈ place start gs) : s.base + 8 ≤ x.1 := h.base_le.trans (place_bounds hx).1
  rcases List.mem_cons.mp ha with rfl | ha
  · obtain ⟨y, hy, rfl⟩ := List.mem_map.mp ((List.mem_cons.mp hb).resolve_left (Ne.symm hne))
    exact .inl (hbase hy)
  · obtain ⟨x, hx, rfl⟩ := List.mem_map.mp ha
    rcases List.mem_cons.mp hb with rfl | hb
    · exact .inr (hbase hx)
    · obtain ⟨y, hy, rfl⟩ := List.mem_map.mp hb
      have hpx := h.pos _ (place_mem hx)
      have hpy := h.pos _ (place_mem hy)
      have hclear := place_clear hx hy fun heq => hne (congrArg Prod.fst heq)
      unfold Clear headerSize at hclear
      unfold Apart
      omega

/-- The nodes of the free list are in the order of their addresses. -/
theorem ring_pairwise : (s.base :: frees start gs).Pairwise (· < ·) := by
  refine .cons (fun y hy => ?_) ?_
  · obtain ⟨g, hg, -⟩ := mem_frees.mp hy
    have hle := (place_bounds hg).1
    have hbase := h.base_le
    unfold headerSize at hbase
    omega
  · have hplace : (place start gs).Pairwise fun x y => x.1 < y.1 :=
      place_pairwise.imp_of_mem fun hx _ hle => by
        have hpos := h.pos _ (place_mem hx)
        unfold headerSize at hle
        omega
    exact List.pairwise_map.mpr (hplace.filter _)

/-- A block is given by its address. -/
theorem place_inj {x y : Nat × Block} (hx : x ∈ place start gs) (hy : y ∈ place start gs) (heq : x.1 = y.1) : x = y := by
  by_contra hne
  have hclear := place_clear hx hy hne
  have hpx := h.pos _ (place_mem hx)
  have hpy := h.pos _ (place_mem hy)
  unfold Clear headerSize at hclear
  omega

theorem ring_nodup : (s.base :: frees start gs).Nodup := h.ring_pairwise.imp Nat.ne_of_lt

theorem freep_ne_zero : s.freep ≠ 0 := by
  have hpos := h.base_pos
  rcases List.mem_cons.mp h.freep with heq | hin
  · omega
  · have hlt := (List.pairwise_cons.mp h.ring_pairwise).1 _ hin
    omega

theorem total_le : headerSize * total gs < kernbase := by
  have hsz := h.sz_eq
  have hlt := h.sz_lt
  omega

end Laid

/-- Two free blocks are not adjacent. -/
theorem place_gap (hpos : ∀ g ∈ gs, 0 < g.units) (h : Spaced gs) :
    (place a gs).Pairwise fun x y => x.2.Free → y.2.Free → x.1 + headerSize * x.2.units < y.1 := by
  induction gs generalizing a with
  | nil => exact .nil
  | cons g gs ih =>
    refine .cons (fun y hy hg hf => ?_) (ih (fun g hg => hpos g (List.mem_cons_of_mem _ hg)) (List.IsChain.tail h))
    cases gs with
    | nil => exact absurd hy List.not_mem_nil
    | cons k gs =>
      have hk : ¬k.Free := fun hk => (List.isChain_cons_cons.mp h).1 ⟨hg, hk⟩
      rcases List.mem_cons.mp hy with rfl | hy
      · exact absurd hf hk
      · have hbound := (place_bounds hy).1
        have hkpos := hpos k (by simp)
        unfold headerSize at hbound ⊢
        dsimp only
        omega

/-- Only the headers are read. -/
theorem Laid.of_headers (h : Laid start gs s) (hbase : t.base = s.base) (hsz : t.sz = s.sz) (htop : t.top = s.top)
    (hfreep : t.freep = s.freep) (hmem : ∀ a ∈ headers s.base start gs, t.ptr a = s.ptr a ∧ t.size a = s.size a) :
    Laid start gs t where
  base_pos := hbase ▸ h.base_pos
  base_le := hbase ▸ h.base_le
  sz_eq := hsz ▸ h.sz_eq
  sz_lt := hsz ▸ h.sz_lt
  top_eq := by rw [htop, hsz, h.top_eq]
  pos := h.pos
  sizes x hx := ((hmem x.1 (place_header hx)).2).trans (h.sizes x hx)
  size_base := by rw [hbase, (hmem _ List.mem_cons_self).2, h.size_base]
  ring := by
    rw [hbase, circular_cons]
    exact Links.congr (l := s.base :: frees start gs) (circular_cons.mp h.ring) fun a ha => (hmem a (ring_sub ha)).1
  freep := by
    rw [hbase, hfreep]
    exact h.freep
  spaced := h.spaced

/-! ### Changes of the heap -/

/-- Of the headers, only the pointer of `q` has been written, and what lies between `lo` and `hi`. -/
structure Touches (q lo hi : Nat) (s t : Process) : Prop where
  base : t.base = s.base
  sz : t.sz = s.sz
  top : t.top = s.top
  ptr : ∀ a, Fits a → a + headerSize ≤ lo ∨ hi ≤ a → Apart q a → t.ptr a = s.ptr a
  size : ∀ a, Fits a → a + headerSize ≤ lo ∨ hi ≤ a → a = q ∨ Apart q a → t.size a = s.size a
  trail : ∃ ws, t.trail = ws ++ s.trail ∧ ∀ w ∈ ws, w = q ∨ lo ≤ w ∧ w + 4 ≤ hi
  mem : ∀ a, a < lo ∨ hi ≤ a → a < q ∨ q + headerSize ≤ a → t.mem a = s.mem a

namespace Touches
variable {lo hi : Nat} (h : Touches q lo hi s t)

theorem refl : Touches q lo hi s s :=
  ⟨rfl, rfl, rfl, fun _ _ _ _ => rfl, fun _ _ _ _ => rfl, ⟨[], rfl, fun _ hw => absurd hw List.not_mem_nil⟩,
    fun _ _ _ => rfl⟩

include h

theorem setPtr (hp : p = q ∨ lo ≤ p ∧ p + headerSize ≤ hi) (hfit : Fits p) : Touches q lo hi s (t.setPtr p x) := by
  unfold headerSize at hp
  have hapart {a : Nat} (hout : a + headerSize ≤ lo ∨ hi ≤ a) (hq : a = q ∨ Apart q a) (hap : a ≠ p) : Apart p a := by
    unfold headerSize at hout
    unfold Apart at hq ⊢
    omega
  refine ⟨h.base, h.sz, h.top, fun a ha hout hq => ?_, fun a ha hout hq => ?_, ?_, fun a hout hq => ?_⟩
  · have hap : a ≠ p := by
      unfold headerSize at hout
      unfold Apart at hq
      omega
    rw [ptr_setPtr_of_apart (hapart hout (.inr hq) hap), h.ptr a ha hout hq]
  · by_cases hap : a = p
    · rw [hap, size_setPtr hfit, ← hap, h.size a ha hout hq]
    · rw [size_setPtr_of_apart ha (hapart hout hq hap), h.size a ha hout hq]
  · obtain ⟨ws, htrail, hws⟩ := h.trail
    refine ⟨p :: ws, congrArg (p :: ·) htrail, fun w hw => ?_⟩
    rcases List.mem_cons.mp hw with rfl | hw
    · omega
    · exact hws w hw
  · unfold headerSize at hq
    exact (put_out (by omega)).trans (h.mem a hout hq)

theorem setSize (hp : lo ≤ p ∧ p + headerSize ≤ hi) (hfit : Fits p) : Touches q lo hi s (t.setSize p x) := by
  unfold headerSize at hp
  have hapart {a : Nat} (hout : a + headerSize ≤ lo ∨ hi ≤ a) : Apart p a := by
    unfold headerSize at hout
    unfold Apart
    omega
  refine ⟨h.base, h.sz, h.top, fun a ha hout hq => ?_, fun a ha hout hq => ?_, ?_, fun a hout hq => ?_⟩
  · rw [ptr_setSize_of_apart hfit (hapart hout), h.ptr a ha hout hq]
  · rw [size_setSize_of_apart hfit ha (hapart hout), h.size a ha hout hq]
  · obtain ⟨ws, htrail, hws⟩ := h.trail
    refine ⟨(p + 4) % uint :: ws, congrArg (_ :: ·) htrail, fun w hw => ?_⟩
    rcases List.mem_cons.mp hw with rfl | hw
    · rw [hfit.sizeAddr]
      omega
    · exact hws w hw
  · rw [Process.setSize, hfit.sizeAddr]
    exact (put_out (by omega)).trans (h.mem a hout hq)

theorem mono {lo' : Nat} (hlo : lo' ≤ lo) : Touches q lo' hi s t where
  base := h.base
  sz := h.sz
  top := h.top
  ptr a ha hout hq := h.ptr a ha (hout.imp_left fun hle => hle.trans hlo) hq
  size a ha hout hq := h.size a ha (hout.imp_left fun hle => hle.trans hlo) hq
  trail := by
    obtain ⟨ws, htrail, hws⟩ := h.trail
    exact ⟨ws, htrail, fun w hw => (hws w hw).imp_right fun hin => ⟨hlo.trans hin.1, hin.2⟩⟩
  mem a hout hq := h.mem a (hout.imp_left fun hlt => Nat.lt_of_lt_of_le hlt hlo) hq

theorem setFreep : Touches q lo hi s { t with freep := x } := ⟨h.base, h.sz, h.top, h.ptr, h.size, h.trail, h.mem⟩

end Touches

/-- The blocks `mid` give way to blocks of the same length, behind the node `q` of the list. -/
theorem Laid.replace {lo hi : Nat} (h : Laid start (pre ++ (mid ++ post)) s) (hlo : lo = start + headerSize * total pre)
    (hhi : hi = lo + headerSize * total mid) (htotal : total mid' = total mid)
    (hq : s.base :: frees start pre = A ++ [q]) (hy : frees hi post ++ [s.base] = y :: C)
    (ht : Touches q lo hi s t) (hpos : ∀ g ∈ mid', 0 < g.units) (hsizes : ∀ x ∈ place lo mid', t.size x.1 = x.2.units)
    (hlink : Links t.ptr (q :: (frees lo mid' ++ [y]))) (hfreep : t.freep = q ∨ t.freep ∈ frees lo mid')
    (hspaced : Spaced (pre ++ (mid' ++ post))) : Laid start (pre ++ (mid' ++ post)) t := by
  have hplace : place start (pre ++ (mid ++ post)) = place start pre ++ (place lo mid ++ place hi post) := by
    rw [place_append, place_append, ← hlo, ← hhi]
  have hplace' : place start (pre ++ (mid' ++ post)) = place start pre ++ (place lo mid' ++ place hi post) := by
    rw [place_append, place_append, ← hlo, htotal, ← hhi]
  have hring : s.base :: (frees start (pre ++ (mid ++ post)) ++ [s.base]) = A ++ q :: (frees lo mid ++ y :: C) := by
    rw [frees_append, frees_append, ← hlo, ← hhi, ← hy, ← List.cons_append, ← List.cons_append, hq]
    simp only [List.append_assoc, List.cons_append, List.nil_append]
  have hring' : s.base :: (frees start (pre ++ (mid' ++ post)) ++ [s.base]) = A ++ q :: (frees lo mid' ++ y :: C) := by
    rw [frees_append, frees_append, ← hlo, htotal, ← hhi, ← hy, ← List.cons_append, ← List.cons_append, hq]
    simp only [List.append_assoc, List.cons_append, List.nil_append]
  have hqring : q ∈ s.base :: frees start (pre ++ (mid ++ post)) := by
    rw [frees_append, ← List.cons_append, hq]
    exact List.mem_append_left _ (List.mem_append_right _ List.mem_cons_self)
  have hqh := ring_sub hqring
  -- the headers before and behind `mid` are as they were
  have hout {x : Nat × Block} (hx : x ∈ place start pre ∨ x ∈ place hi post) :
      x ∈ place start (pre ++ (mid ++ post)) ∧ (x.1 + headerSize ≤ lo ∨ hi ≤ x.1) := by
    rw [hplace, List.mem_append, List.mem_append]
    rcases hx with hx | hx
    · have hunits : 0 < x.2.units := h.pos _ (List.mem_append_left _ (place_mem hx))
      have hbound := (place_bounds hx).2
      rw [← hlo] at hbound
      refine ⟨.inl hx, .inl (Nat.le_trans ?_ hbound)⟩
      unfold headerSize
      omega
    · exact ⟨.inr (.inr hx), .inr (place_bounds hx).1⟩
  have hbase : s.base + headerSize ≤ lo := h.base_le.trans (hlo ▸ Nat.le_add_right ..)
  have hkept {a : Nat} (ha : a ∈ headers s.base start (pre ++ (mid ++ post))) (hr : a + headerSize ≤ lo ∨ hi ≤ a) :
      t.size a = s.size a ∧ (a ≠ q → t.ptr a = s.ptr a) := by
    have hfit := (h.mapped ha).fits
    refine ⟨ht.size a hfit hr ?_, fun hne => ht.ptr a hfit hr (h.apart hqh ha (Ne.symm hne))⟩
    by_cases haq : a = q
    · exact .inl haq
    · exact .inr (h.apart hqh ha (Ne.symm haq))
  have hnode {a : Nat} (ha : a ∈ s.base :: frees start pre ∨ a ∈ frees hi post) (hne : a ≠ q) : t.ptr a = s.ptr a := by
    have hplaced (x : Nat × Block) (hx : x ∈ place start pre ∨ x ∈ place hi post) (hne : x.1 ≠ q) :
        t.ptr x.1 = s.ptr x.1 := (hkept (place_header (hout hx).1) (hout hx).2).2 hne
    rcases ha with ha | ha
    · rcases List.mem_cons.mp ha with rfl | ha
      · exact (hkept List.mem_cons_self (.inl hbase)).2 hne
      · obtain ⟨g, hg, -⟩ := mem_frees.mp ha
        exact hplaced (a, g) (.inl hg) hne
    · obtain ⟨g, hg, -⟩ := mem_frees.mp ha
      exact hplaced (a, g) (.inr hg) hne
  have hnodup := h.ring_nodup
  have hrings : s.base :: frees start (pre ++ (mid ++ post)) = A ++ q :: (frees lo mid ++ frees hi post) := by
    rw [frees_append, frees_append, ← hlo, ← hhi, ← List.cons_append, hq, List.append_assoc]
    rfl
  rw [hrings] at hnodup
  exact {
    base_pos := ht.base ▸ h.base_pos
    base_le := ht.base ▸ h.base_le
    sz_eq := by rw [ht.sz, h.sz_eq, total_append, total_append, total_append, total_append, htotal]
    sz_lt := ht.sz ▸ h.sz_lt
    top_eq := by rw [ht.sz, ht.top]; exact h.top_eq
    pos := fun g hg => by
      have hold (hg : g ∈ pre ∨ g ∈ post) : 0 < g.units := h.pos g (by
        rw [List.mem_append, List.mem_append]
        tauto)
      rw [List.mem_append, List.mem_append] at hg
      rcases hg with hg | hg | hg
      · exact hold (.inl hg)
      · exact hpos g hg
      · exact hold (.inr hg)
    sizes := fun x hx => by
      rw [hplace', List.mem_append, List.mem_append] at hx
      have hold (hx : x ∈ place start pre ∨ x ∈ place hi post) : t.size x.1 = x.2.units := by
        rw [(hkept (place_header (hout hx).1) (hout hx).2).1, h.sizes x (hout hx).1]
      rcases hx with hx | hx | hx
      · exact hold (.inl hx)
      · exact hsizes x hx
      · exact hold (.inr hx)
    size_base := by rw [ht.base, (hkept List.mem_cons_self (.inl hbase)).1, h.size_base]
    ring := by
      have hold := circular_cons.mp h.ring
      rw [hring] at hold
      rw [ht.base, circular_cons, hring']
      refine hold.replace (fun a ha => ?_) ?_ hlink
      · refine hnode (.inl (hq ▸ List.mem_append_left _ ha)) fun heq => ?_
        exact (List.nodup_append.mp hnodup).2.2 a ha q List.mem_cons_self heq
      · rw [← hy]
        have hsuffix : Links s.ptr (frees hi post ++ [s.base]) := by
          rw [hy]
          have hall : Links s.ptr ((A ++ q :: frees lo mid) ++ y :: C) := by rwa [List.append_assoc]
          exact hall.right_of_append
        refine hsuffix.congr fun b hb => hnode (.inr hb) fun heq => ?_
        exact (List.nodup_cons.mp (List.nodup_append.mp hnodup).2.1).1 (heq ▸ List.mem_append_right _ hb)
    freep := by
      rw [ht.base, frees_append, frees_append, ← hlo, ← List.cons_append, hq]
      rcases hfreep with hf | hf
      · rw [hf]
        exact List.mem_append_left _ (List.mem_append_right _ List.mem_cons_self)
      · exact List.mem_append_right _ (List.mem_append_left _ hf)
    spaced := hspaced }

/-- The process has not shrunk, and the allocator has written nothing in these blocks and nothing behind the end. -/
structure Spares (xs : List (Nat × Block)) (s t : Process) : Prop where
  sz : s.sz ≤ t.sz
  trail : ∃ ws, t.trail = ws ++ s.trail ∧
    ∀ w ∈ ws, w + 4 ≤ t.sz ∧ ∀ x ∈ xs, w + 4 ≤ x.1 ∨ x.1 + headerSize * x.2.units ≤ w
  mem : ∀ x ∈ xs, ∀ b, x.1 ≤ b → b < x.1 + headerSize * x.2.units → t.mem b = s.mem b

theorem Spares.refl {xs : List (Nat × Block)} : Spares xs s s :=
  ⟨Nat.le_refl _, ⟨[], rfl, fun _ hw => absurd hw List.not_mem_nil⟩, fun _ _ _ _ _ => rfl⟩

theorem Spares.trans {xs : List (Nat × Block)} {u : Process} (h : Spares xs s t) (h' : Spares xs t u) : Spares xs s u := by
  obtain ⟨ws, ht, hws⟩ := h.trail
  obtain ⟨ws', hu, hws'⟩ := h'.trail
  refine ⟨h.sz.trans h'.sz, ⟨ws' ++ ws, by rw [hu, ht, List.append_assoc], fun w hw => ?_⟩, fun x hx b hle hlt => ?_⟩
  · rcases List.mem_append.mp hw with hw | hw
    · exact hws' w hw
    · exact ⟨(hws w hw).1.trans h'.sz, (hws w hw).2⟩
  · rw [h'.mem x hx b hle hlt, h.mem x hx b hle hlt]

theorem Spares.mono {xs ys : List (Nat × Block)} (h : Spares xs s t) (hsub : ys ⊆ xs) : Spares ys s t := by
  obtain ⟨ws, ht, hws⟩ := h.trail
  exact ⟨h.sz, ⟨ws, ht, fun w hw => ⟨(hws w hw).1, fun x hx => (hws w hw).2 x (hsub hx)⟩⟩, fun x hx => h.mem x (hsub hx)⟩

theorem Laid.spares {lo hi : Nat} (h : Laid start (pre ++ (mid ++ post)) s) (hlo : lo = start + headerSize * total pre)
    (hhi : hi = lo + headerSize * total mid) (hq : q ∈ s.base :: frees start pre) (ht : Touches q lo hi s t) :
    Spares (lives start pre ++ lives hi post) s t := by
  have hplace : place start (pre ++ (mid ++ post)) = place start pre ++ (place lo mid ++ place hi post) := by
    rw [place_append, place_append, ← hlo, ← hhi]
  have hring (hq : q ∈ s.base :: frees start pre) : q ∈ s.base :: frees start (pre ++ (mid ++ post)) := by
    rw [frees_append, ← List.cons_append]
    exact List.mem_append_left _ hq
  -- a live block does not meet `mid`, and not the node `q`, which is not live
  have hout {x : Nat × Block} (hx : x ∈ lives start pre ++ lives hi post) :
      (x.1 + headerSize * x.2.units ≤ lo ∨ hi ≤ x.1) ∧ (q + headerSize ≤ x.1 ∨ x.1 + headerSize * x.2.units ≤ q) := by
    rw [List.mem_append, mem_lives, mem_lives] at hx
    have hin : x ∈ place start (pre ++ (mid ++ post)) ∧ ¬x.2.Free := by
      rw [hplace, List.mem_append, List.mem_append]
      tauto
    refine ⟨?_, ?_⟩
    · rcases hx with hx | hx
      · exact .inl (hlo ▸ (place_bounds hx.1).2)
      · exact .inr (place_bounds hx.1).1
    · rcases List.mem_cons.mp hq with rfl | hq
      · exact .inl (h.base_le.trans (place_bounds hin.1).1)
      · obtain ⟨g, hg, hfree⟩ := mem_frees.mp hq
        have hgin : (q, g) ∈ place start (pre ++ (mid ++ post)) := hplace ▸ List.mem_append_left _ hg
        have hpos : 0 < g.units := h.pos g (place_mem hgin)
        have hclear : Clear (q, g) x := place_clear hgin hin.1 fun heq => hin.2 (heq ▸ hfree)
        unfold Clear headerSize at hclear
        dsimp only at hclear
        unfold headerSize
        omega
  refine ⟨Nat.le_of_eq ht.sz.symm, ?_, fun x hx b hle hlt => ?_⟩
  · obtain ⟨ws, htrail, hws⟩ := ht.trail
    refine ⟨ws, htrail, fun w hw => ⟨?_, fun x hx => ?_⟩⟩
    · have hmap : s.Mapped q := h.mapped (ring_sub (hring hq))
      have hend : hi ≤ s.sz := by
        rw [h.sz_eq, total_append, total_append]
        unfold headerSize at hlo hhi ⊢
        omega
      have hle := hmap.1
      have hw := hws w hw
      rw [ht.sz]
      omega
    · obtain ⟨hmid, hnode⟩ := hout hx
      have hw := hws w hw
      unfold headerSize at hnode hmid ⊢
      omega
  · obtain ⟨hmid, hnode⟩ := hout hx
    exact ht.mem b (by omega) (by omega)

end Xv6.Heap
