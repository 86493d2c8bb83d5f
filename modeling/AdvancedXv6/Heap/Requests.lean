import AdvancedXv6.Heap.Sbrk

/-! Which requests `malloc` honours over the `sbrk` of the kernel. Requests of almost 2^31 bytes and more become an
`int` that is not positive, and those of almost 2^32 bytes overflow before they are rounded. -/

namespace Xv6.Heap
open Effect Bytes Process

variable {start n p : Nat} {gs : List Block} {s t : Process} {grant : Bool} {E : Stop → Process → Prop} {m : Int}

/-- The call has returned 0 and left the process as it was, or a block of `nbytes` bytes that lies in the process and
apart from the live ones; it has not written the live blocks, and nothing behind the end of the process. -/
structure Honours (start : Nat) (gs : List Block) (nbytes : Nat) (s : Process) (p : Nat) (t : Process) : Prop where
  spares : Spares (lives start gs) s t
  failed : p = 0 → t.sz = s.sz
  served : p ≠ 0 → ∃ a, p = a + headerSize ∧ nbytes + headerSize ≤ headerSize * t.size a ∧
    a + headerSize * t.size a ≤ t.sz ∧ ∀ x ∈ lives start gs, Clear x (a, ⟨t.size a, some nbytes⟩)

/-! ### Requests that are too long for an `int` -/

/-- The process has not grown, and the allocator has not taken back what it wrote. -/
def Shrinks (s t : Process) : Prop := t.sz ≤ s.sz ∧ ∃ ws, t.trail = ws ++ s.trail

theorem Shrinks.refl (s : Process) : Shrinks s s := ⟨Nat.le_refl _, [], rfl⟩

theorem Shrinks.trans (s t u : Process) (h : Shrinks s t) (h' : Shrinks t u) : Shrinks s u := by
  obtain ⟨ws, ht⟩ := h.2
  obtain ⟨ws', hu⟩ := h'.2
  exact ⟨h'.1.trans h.1, ws' ++ ws, by rw [hu, ht, List.append_assoc]⟩

section Within

theorem access_shrinks (a : Nat) : Within Shrinks (access a) :=
  .bind Shrinks.trans (.get Shrinks.refl) fun s => by
    split
    · exact .throw Shrinks.refl _
    · exact .pure Shrinks.refl _

theorem getPtr_shrinks (p : Nat) : Within Shrinks (getPtr p) :=
  .bind Shrinks.trans (access_shrinks p) fun _ => .bind Shrinks.trans (.get Shrinks.refl) fun _ => .pure Shrinks.refl _

theorem getSize_shrinks (p : Nat) : Within Shrinks (getSize p) :=
  .bind Shrinks.trans (access_shrinks _) fun _ => .bind Shrinks.trans (.get Shrinks.refl) fun _ => .pure Shrinks.refl _

theorem setPtr_shrinks (p x : Nat) : Within Shrinks (setPtr p x) :=
  .bind Shrinks.trans (access_shrinks p) fun _ => .modify fun _ => ⟨Nat.le_refl _, [p], rfl⟩

theorem setSize_shrinks (p x : Nat) : Within Shrinks (setSize p x) :=
  .bind Shrinks.trans (access_shrinks _) fun _ => .modify fun _ => ⟨Nat.le_refl _, [(p + 4) % uint], rfl⟩

theorem freeLoop_shrinks (bp k p : Nat) : Within Shrinks (freeLoop bp k p) := by
  induction k generalizing p with
  | zero => exact .throw Shrinks.refl _
  | succ k ih =>
    refine .bind Shrinks.trans (getPtr_shrinks p) fun next => ?_
    split
    · exact .pure Shrinks.refl _
    · exact ih next

theorem joinNext_shrinks (bp p : Nat) : Within Shrinks (joinNext bp p) := by
  refine .bind Shrinks.trans (getPtr_shrinks p) fun next => .bind Shrinks.trans (getSize_shrinks bp) fun size => ?_
  split
  · exact .bind Shrinks.trans (getSize_shrinks next) fun _ => .bind Shrinks.trans (setSize_shrinks _ _) fun _ =>
      .bind Shrinks.trans (getPtr_shrinks next) fun _ => setPtr_shrinks _ _
  · exact setPtr_shrinks _ _

theorem joinPrev_shrinks (bp p : Nat) : Within Shrinks (joinPrev bp p) := by
  refine .bind Shrinks.trans (getSize_shrinks p) fun size => ?_
  split
  · exact .bind Shrinks.trans (getSize_shrinks bp) fun _ => .bind Shrinks.trans (setSize_shrinks _ _) fun _ =>
      .bind Shrinks.trans (getPtr_shrinks bp) fun _ => setPtr_shrinks _ _
  · exact setPtr_shrinks _ _

theorem free_shrinks (ap : Nat) : Within Shrinks (free ap) :=
  .bind Shrinks.trans (.get Shrinks.refl) fun _ => .bind Shrinks.trans (freeLoop_shrinks _ _ _) fun _ =>
    .bind Shrinks.trans (joinNext_shrinks _ _) fun _ => .bind Shrinks.trans (joinPrev_shrinks _ _) fun _ =>
      .modify fun _ => ⟨Nat.le_refl _, [], rfl⟩

theorem carve_shrinks (n q p size : Nat) : Within Shrinks (carve n q p size) := by
  have hfreep : Within Shrinks (modify fun s : Process => { s with freep := q } : M Unit) :=
    .modify fun _ => ⟨Nat.le_refl _, [], rfl⟩
  unfold carve
  split
  · exact .bind Shrinks.trans (getPtr_shrinks p) fun _ => .bind Shrinks.trans (setPtr_shrinks _ _) fun _ =>
      .bind Shrinks.trans hfreep fun _ => .pure Shrinks.refl _
  · exact .bind Shrinks.trans (setSize_shrinks _ _) fun _ => .bind Shrinks.trans (setSize_shrinks _ _) fun _ =>
      .bind Shrinks.trans hfreep fun _ => .pure Shrinks.refl _

theorem wp_deallocuvm {oldsz newsz : Nat} : wp (deallocuvm oldsz newsz) s (fun r t => r = oldsz ∧ t = s ∨
    r = newsz ∧ newsz < oldsz ∧ t = { s with top := min s.top (pgroundup newsz) }) E := by
  rw [deallocuvm, wp_ite]
  refine ⟨fun _ => ?_, fun hlt => ?_⟩
  · rw [wp_pure]
    exact .inl ⟨rfl, rfl⟩
  · rw [wp_bind, wp_modify, wp_pure]
    exact .inr ⟨rfl, Nat.not_le.mp hlt, rfl⟩

/-- A call for no bytes or for fewer gives no memory; if it fails, nothing is left of the process. -/
theorem sbrk_shrinks (hm : m ≤ 0) : wp (sbrk grant m) s
    (fun v t => (0 < s.sz → v = s.sz) ∧ t.sz ≤ s.sz ∧ t.trail = s.trail) fun _ t => Shrinks s t := by
  rw [sbrk, wp_bind, wp_get, growproc, wp_bind, wp_bind, wp_get, if_neg (Int.not_lt.mpr hm)]
  have hdone {v : Int} {t : Process} (hsz : t.sz ≤ s.sz) (htrail : t.trail = s.trail) (hv : t.top = 0 ∨ ¬v < 0 ∨ s.sz = 0) :
      wp (do if (← get).top = 0 then throw Stop.fault else if v < 0 then pure minusOne else pure s.sz : M Nat) t
        (fun v t => (0 < s.sz → v = s.sz) ∧ t.sz ≤ s.sz ∧ t.trail = s.trail) fun _ t => Shrinks s t := by
    rw [wp_bind, wp_get, wp_ite, wp_throw, wp_ite, wp_pure, wp_pure]
    refine ⟨fun _ => ⟨hsz, [], htrail⟩, fun htop => ⟨fun hneg => ⟨fun hpos => ?_, hsz, htrail⟩, fun _ => ⟨fun _ => rfl, hsz, htrail⟩⟩⟩
    omega
  rw [wp_ite]
  refine ⟨fun hneg => ?_, fun _ => ?_⟩
  · refine wp_seq (Q := fun r t => r = s.sz ∧ t = s ∨ r < s.sz ∧ t.sz = s.sz ∧ t.trail = s.trail ∧ (r = 0 → t.top = 0))
      (wp_mono wp_deallocuvm ?_ fun _ _ he => he) fun r t ht => ?_
    · rintro r t (⟨rfl, rfl⟩ | ⟨rfl, hlt, rfl⟩)
      · exact .inl ⟨rfl, rfl⟩
      · refine .inr ⟨hlt, rfl, rfl, fun hzero => ?_⟩
        show min s.top (pgroundup _) = 0
        rw [hzero]
        exact Nat.min_zero _
    · have hsz : t.sz ≤ s.sz ∧ r ≤ s.sz ∧ t.trail = s.trail := by
        rcases ht with ⟨rfl, rfl⟩ | ⟨hlt, hsz, htrail, -⟩
        · exact ⟨Nat.le_refl _, Nat.le_refl _, rfl⟩
        · exact ⟨Nat.le_of_eq hsz, Nat.le_of_lt hlt, htrail⟩
      rw [wp_ite]
      refine ⟨fun hz => ?_, fun _ => ?_⟩
      · rw [wp_pure]
        refine hdone hsz.1 hsz.2.2 ?_
        rcases ht with ⟨rfl, rfl⟩ | ⟨-, -, -, hzero⟩
        · exact .inr (.inr hz)
        · exact .inl (hzero hz)
      · rw [wp_bind, wp_modify, wp_pure]
        exact hdone hsz.2.1 hsz.2.2 (.inr (.inl (by decide)))
  · rw [wp_pure]
    exact hdone (Nat.le_refl _) rfl (.inr (.inl (by decide)))

theorem morecore_shrinks (hm : asked n ≤ 0) : Within Shrinks (morecore (sbrk grant) n) := by
  refine .bind Shrinks.trans (fun s => ?_) fun p => ?_
  · exact wp_mono (sbrk_shrinks hm) (fun _ t ht => ⟨ht.2.1, [], ht.2.2⟩) fun _ _ he => he
  · split
    · exact .pure Shrinks.refl _
    · exact .bind Shrinks.trans (setSize_shrinks _ _) fun _ => .bind Shrinks.trans (free_shrinks _) fun _ =>
        .bind Shrinks.trans (.get Shrinks.refl) fun _ => .pure Shrinks.refl _

theorem mallocLoop_shrinks (hm : asked n ≤ 0) (k q p : Nat) : Within Shrinks (mallocLoop (sbrk grant) n k q p) := by
  induction k generalizing q p with
  | zero => exact .throw Shrinks.refl _
  | succ k ih =>
    refine .bind Shrinks.trans (getSize_shrinks p) fun size => ?_
    split
    · exact carve_shrinks _ _ _ _
    · refine .bind Shrinks.trans (.get Shrinks.refl) fun s => ?_
      split
      · refine .bind Shrinks.trans (morecore_shrinks hm) fun r => ?_
        split
        · exact .pure Shrinks.refl _
        · exact .bind Shrinks.trans (getPtr_shrinks r) fun x => ih r x
      · exact .bind Shrinks.trans (getPtr_shrinks p) fun x => ih p x

end Within

/-- The allocator has written behind the end of the process. -/
def Beyond (s t : Process) : Prop := t.sz ≤ s.sz ∧ ∃ ws, t.trail = ws ++ s.trail ∧ ∃ w ∈ ws, s.sz < w + 4

theorem Beyond.mono {u : Process} (h : Beyond s t) (h' : Shrinks t u) : Beyond s u := by
  obtain ⟨hsz, ws, htrail, w, hw, hlt⟩ := h
  obtain ⟨ws', htrail'⟩ := h'.2
  exact ⟨h'.1.trans hsz, ws' ++ ws, by rw [htrail', htrail, List.append_assoc], w, List.mem_append_right _ hw, hlt⟩

theorem Beyond.not_honours {nbytes : Nat} (h : Beyond s t) : ¬Honours start gs nbytes s p t := by
  intro hh
  obtain ⟨hsz, ws, htrail, w, hw, hlt⟩ := h
  obtain ⟨ws', htrail', hws'⟩ := hh.spares.trail
  obtain rfl : ws = ws' := List.append_cancel_right (htrail.symm.trans htrail')
  have hle := (hws' w hw).1
  omega

/-- The header of the block that `morecore` believes to have. -/
theorem Laid.beyond (h : Laid start gs s) (hm : asked n ≤ 0) {f : Nat → M Nat} (hf : ∀ q, Within Shrinks (f q)) :
    wp (Heap.morecore (sbrk grant) n >>= f) s (fun _ t => Beyond s t) fun _ _ => True := by
  rw [wp_bind, Heap.morecore]
  refine wp_seq (wp_mono (sbrk_shrinks hm) (fun _ _ ht => ht) fun _ _ _ => trivial) fun v t ht => ?_
  obtain ⟨hv, hsz, htrail⟩ := ht
  have hlt := h.sz_lt
  have hne : v ≠ minusOne := by
    have hk : kernbase < minusOne := by decide
    rw [hv h.sz_pos]
    omega
  rw [if_neg hne, hv h.sz_pos, setSize, wp_bind, wp_bind, access, wp_bind, wp_get, wp_ite, wp_throw]
  refine ⟨fun _ => trivial, fun _ => ?_⟩
  have haddr : (s.sz + 4) % uint = s.sz + 4 := by
    have hu : kernbase + 4 < uint := by decide
    exact Nat.mod_eq_of_lt (by omega)
  have hbeyond : Beyond s (t.setSize s.sz (request n)) := by
    refine ⟨hsz, [(s.sz + 4) % uint], congrArg (_ :: ·) htrail, _, List.mem_singleton_self _, ?_⟩
    rw [haddr]
    omega
  rw [wp_pure, wp_modify, wp_bind]
  refine wp_mono (free_shrinks _ _) (fun _ u hu => ?_) fun _ _ _ => trivial
  rw [wp_bind, wp_get, wp_pure]
  exact wp_mono (hf _ u) (fun _ _ hx => (hbeyond.mono hu).mono hx) fun _ _ _ => trivial

theorem asked_nonpos (h : 2 ^ 28 ≤ n) (hle : n ≤ 2 ^ 29) : asked n ≤ 0 := by
  have hreq : request n = n := if_neg (by omega)
  unfold asked toInt
  rw [hreq]
  unfold headerSize uint
  split <;> omega

theorem Ready.beyond {nbytes : Nat} (h : Ready start gs s) (hn : 2 ^ 28 ≤ unitsOf nbytes) :
    wp (Heap.malloc (sbrk grant) nbytes) s (fun _ t => Beyond s t) fun _ _ => True := by
  have hm := asked_nonpos hn (unitsOf_bounds nbytes).2
  rw [Heap.malloc]
  refine wp_seq h.initList fun _ t ht => ?_
  obtain ⟨ht, hsz, -, hspares⟩ := ht
  have hstart : ∀ u, Beyond t u → Beyond s u := by
    rintro u ⟨hle, ws, htrail, w, hw, hlt⟩
    obtain ⟨ws', htrail', -⟩ := hspares.trail
    rw [hsz] at hle hlt
    exact ⟨hle, ws ++ ws', by rw [htrail, htrail', List.append_assoc], w, List.mem_append_left _ hw, hlt⟩
  rw [wp_bind, wp_get, wp_bind, wp_getPtr (ht.mapped (ring_sub ht.freep))]
  refine wp_mono (Q := fun _ u => Beyond t u) ?_ (fun _ u hu => hstart u hu) fun _ _ he => he
  refine ht.search (r := 0) (unitsOf_bounds nbytes).1 (Nat.div_le_self rounds 4) (fun hroom => ?_) fun _ j _ =>
    ht.beyond hm fun q => ?_
  · obtain ⟨x, hx, -, hle⟩ := hroom
    have hbound := place_bounds hx
    have htotal := ht.total_le
    unfold headerSize kernbase at *
    omega
  · split
    · exact .pure Shrinks.refl _
    · exact .bind Shrinks.trans (getPtr_shrinks q) fun x => mallocLoop_shrinks hm j q x

/-! ### The law -/

theorem Ready.bounds (h : Ready start gs s) : 0 < s.sz ∧ s.sz < kernbase ∧ s.top = pgroundup s.sz := by
  rcases h with h | ⟨-, h⟩
  · exact ⟨h.sz_pos, h.sz_lt, h.top_eq⟩
  · have hpos := h.base_pos
    have hle := h.base_le
    have hsz := h.sz_eq
    exact ⟨by omega, h.sz_lt, h.top_eq⟩

theorem Served.size {a r : Nat} {gs' : List Block} (h : Served start a n r gs gs' s t) :
    t.size a = n ∧ a + headerSize * n ≤ t.sz := by
  have hin := (mem_lives.mp ((h.live_iff _).mpr (.inr rfl))).1
  exact ⟨h.laid.sizes _ hin, h.laid.sz_eq ▸ (place_bounds hin).2⟩

theorem Served.honours {a nbytes : Nat} {gs' : List Block} (h : Served start a n nbytes gs gs' s t)
    (hn : nbytes + headerSize ≤ headerSize * n) : Honours start gs nbytes s (a + headerSize) t := by
  obtain ⟨hsize, hend⟩ := h.size
  refine ⟨h.spares, fun hz => absurd hz (Nat.succ_ne_zero _), fun _ => ⟨a, rfl, ?_⟩⟩
  rw [hsize]
  exact ⟨hn, hend, h.clear⟩

theorem room_one (h : Ready start gs s) : Room start gs 1 ↔ frees start gs ≠ [] := by
  have hpos : ∀ g ∈ gs, 0 < g.units := by
    rcases h with h | ⟨rfl, -⟩
    · exact h.pos
    · exact fun g hg => absurd hg List.not_mem_nil
  constructor
  · rintro ⟨x, hx, hfree, -⟩
    exact List.ne_nil_of_mem (mem_frees.mpr ⟨x.2, hx, hfree⟩)
  · intro hne
    obtain ⟨a, ha⟩ := List.exists_mem_of_ne_nil _ hne
    obtain ⟨g, hg, hfree⟩ := mem_frees.mp ha
    exact ⟨(a, g), hg, hfree, hpos g (place_mem hg)⟩

theorem asked_short (h : n < 2 ^ 28) : 0 < asked n ∧ asked n < 2 ^ 31 := by
  have hreq : 4096 ≤ request n ∧ request n < 2 ^ 28 := by
    unfold request
    split <;> omega
  unfold asked toInt headerSize uint
  rw [Nat.mod_eq_of_lt (by omega), if_pos (by omega)]
  omega

/-- `malloc` honours the requests of up to 2^31 - 16 bytes, and of the longer ones only those of almost 2^32 that
it fails to serve with one unit. -/
theorem honours_iff {nbytes : Nat} (h : Ready start gs s) (hn : nbytes < uint) :
    wp (malloc (sbrk grant) nbytes) s (Honours start gs nbytes s) (fun _ _ => False) ↔
      nbytes ≤ 2 ^ 31 - 16 ∨
        uint - 7 ≤ nbytes ∧ frees start gs = [] ∧ (kernbase ≤ s.sz + 4096 * headerSize ∨ grant = false) := by
  have hu : uint = 2 ^ 32 := rfl
  by_cases hsmall : nbytes ≤ 2 ^ 31 - 16
  · have hunits : unitsOf nbytes = (nbytes + 7) / 8 + 1 := by
      unfold unitsOf headerSize
      rw [Nat.mod_eq_of_lt (by omega)]
      rfl
    refine ⟨fun _ => .inl hsmall, fun _ => ?_⟩
    obtain ⟨hpos, hlt⟩ := asked_short (n := unitsOf nbytes) (by omega)
    refine wp_mono (h.malloc (sbrk_fresh hpos hlt)) (fun p t ht => ?_) fun _ _ he => he
    rcases ht with ⟨rfl, -, hsz, hspares, -⟩ | ⟨gs', a, rfl, hserved, -⟩
    · exact ⟨hspares, fun _ => hsz, fun hne => absurd rfl hne⟩
    · refine hserved.honours ?_
      unfold headerSize
      omega
  by_cases hlong : uint - 7 ≤ nbytes
  · have hunits : unitsOf nbytes = 1 := by
      unfold unitsOf headerSize
      unfold uint at *
      omega
    have hasked : (pgsize : Int) ≤ asked 1 ∧ asked 1 < 2 ^ 31 ∧ (asked 1).toNat = 4096 * headerSize := by decide
    have hrefuses {u : Process} (hu : Ready start gs u) (hsz : u.sz = s.sz) : sbrk grant (asked 1) u = .ok minusOne u ↔
        kernbase ≤ s.sz + 4096 * headerSize ∨ grant = false := by
      obtain ⟨hpos, hlt, htop⟩ := hu.bounds
      rw [sbrk_refuses hasked.1 hasked.2.1 hpos hlt htop, hasked.2.2, hsz]
    have hfresh : Fresh (sbrk grant) (asked (unitsOf nbytes)) := by
      rw [hunits]
      exact sbrk_fresh (by decide) (by decide)
    have hwp := h.malloc (E := fun _ _ => False) hfresh
    rw [hunits] at hwp
    obtain ⟨p, t, hok, hres⟩ := exists_ok_of_wp hwp
    rw [wp_iff_of_ok hok]
    rcases hres with ⟨rfl, hready, hsz, hspares, hnone, hfail⟩ | ⟨gs', a, rfl, hserved, hwhy⟩
    · refine ⟨fun _ => .inr ⟨hlong, ?_, (hrefuses hready hsz).mp hfail⟩, fun _ => ?_⟩
      · exact not_not.mp fun hne => hnone ((room_one h).mpr hne)
      · exact ⟨hspares, fun _ => hsz, fun hne => absurd rfl hne⟩
    · refine ⟨fun hh => ?_, fun hor => ?_⟩
      · -- one unit has no room for a byte
        obtain ⟨a', ha, hle, -⟩ := hh.served (Nat.succ_ne_zero _)
        obtain rfl : a = a' := Nat.add_right_cancel ha
        rw [hserved.size.1] at hle
        unfold headerSize at hle
        omega
      · obtain ⟨-, hempty, hrefused⟩ := hor.resolve_left hsmall
        rcases hwhy with hroom | ⟨u, hlaid, hsz, hgave⟩
        · exact absurd hempty ((room_one h).mp hroom)
        · exact absurd ((hrefuses (.inl hlaid) hsz).mpr hrefused) hgave
  · have hunits : 2 ^ 28 ≤ unitsOf nbytes := by
      unfold unitsOf headerSize
      rw [Nat.mod_eq_of_lt (by omega)]
      omega
    refine ⟨fun hw => ?_, fun hor => ?_⟩
    · obtain ⟨p, t, hok, hh⟩ := exists_ok_of_wp hw
      exact absurd hh (wp_ok (h.beyond hunits) hok).not_honours
    · exact hor.elim (fun hle => absurd hle hsmall) fun hle => absurd hle.1 hlong

/-- The first call for 100 bytes. -/
theorem honours_iff_loaded :
    wp (malloc (sbrk true) 100) loaded (Honours 8192 [] 100 loaded) (fun _ _ => False) :=
  (honours_iff (.inr ⟨rfl, loaded_raw⟩) (by decide)).mpr (.inl (by decide))

/-- `malloc(4294963192)` takes a page from the process, which then dies of writing behind its end. -/
theorem request_shrinks : ¬wp (malloc (sbrk true) 4294963192) loaded (Honours 8192 [] 4294963192 loaded) (fun _ _ => False) ∧
    ∃ t, malloc (sbrk true) 4294963192 loaded = .error .fault t ∧ loaded.sz = 8192 ∧ t.sz = 4096 := by
  have hrun : (match malloc (sbrk true) 4294963192 loaded with
      | .error .fault t => decide (t.sz = 4096)
      | _ => false) = true := by decide
  split at hrun
  · rename_i t ht
    exact ⟨fun hw => wp_error hw ht, t, ht, rfl, of_decide_eq_true hrun⟩
  · exact absurd hrun Bool.false_ne_true

end Xv6.Heap
