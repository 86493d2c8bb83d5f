import AdvancedXv6.Heap.Sbrk
import AdvancedXv6.Lib.Run

/-! A program that calls `malloc` and `free`, and writes what it has been given. -/

namespace Xv6.Heap
open Effect Bytes Circle Function Process

/-- A process, and the pointers that it has got and not freed, each with the bytes it has asked for. -/
structure Program where
  proc : Process
  live : List (Nat × Nat)

inductive Event
  /-- `malloc(nbytes)`, with what `sbrk` will do -/
  | malloc (nbytes : Nat) (sbrk : Int → M Nat)
  | free (ap : Nat)
  /-- the program writes a byte -/
  | write (a : Nat) (x : UInt8)

namespace Program

/-- What a program may do: it frees what it has, and writes where it has asked for room. -/
def Allows (k : Program) : Event → Prop
  | .malloc _ _ => True
  | .free ap => ∃ x ∈ k.live, x.1 = ap
  | .write a _ => ∃ x ∈ k.live, x.1 ≤ a ∧ a < x.1 + x.2

instance (k : Program) (e : Event) : Decidable (k.Allows e) := by
  cases e <;> unfold Allows <;> infer_instance

/-- `none` where a call does not come back. -/
def call (k : Program) : Event → Option Program
  | .malloc nbytes sbrk =>
    match malloc sbrk nbytes k.proc with
    | .ok p t => some ⟨t, if p = 0 then k.live else (p, nbytes) :: k.live⟩
    | .error _ _ => none
  | .free ap =>
    match free ap k.proc with
    | .ok _ t => some ⟨t, k.live.filter fun x => x.1 ≠ ap⟩
    | .error _ _ => none
  | .write a x => some { k with proc := { k.proc with mem := update k.proc.mem a x } }

def step (k : Program) (e : Event) : Option Program := if k.Allows e then k.call e else none

end Program

/-- The number of units does not overflow, and `sbrk` returns fresh memory or fails. -/
def Event.Legal : Event → Prop
  | .malloc nbytes sbrk => nbytes + headerSize - 1 < uint ∧ Fresh sbrk (asked (unitsOf nbytes))
  | _ => True

/-- The bytes of the block with the header at `a`. -/
def Process.Within (s : Process) (a b : Nat) : Prop := a ≤ b ∧ b < a + headerSize * s.size a

/-- The free list `fs` and the blocks of the program. -/
structure Discipline (start : Nat) (fs : List Nat) (k : Program) : Prop where
  circular : Circular k.proc.ptr (k.proc.base :: fs)
  entered : k.proc.freep ∈ k.proc.base :: fs
  size_base : k.proc.size k.proc.base = 0
  /-- in the order of the addresses, without common bytes, and none at the end of another -/
  ordered : (k.proc.base :: fs).Pairwise fun a b => a + headerSize * k.proc.size a < b
  /-- at least as large as requested -/
  large : ∀ x ∈ k.live, headerSize ≤ x.1 ∧ x.2 + headerSize ≤ headerSize * k.proc.size (x.1 - headerSize)
  live_disjoint : k.live.Pairwise fun x y =>
    ∀ b, k.proc.Within (x.1 - headerSize) b → ¬k.proc.Within (y.1 - headerSize) b
  free_disjoint : ∀ x ∈ k.live, ∀ a ∈ fs, ∀ b, k.proc.Within (x.1 - headerSize) b → ¬k.proc.Within a b
  /-- no unit is lost -/
  complete : ∀ b, start ≤ b ∧ b < k.proc.sz ↔
    (∃ a ∈ fs, k.proc.Within a b) ∨ ∃ x ∈ k.live, k.proc.Within (x.1 - headerSize) b

/-- The block with the header at `a` has not been written by the allocator. -/
def Unwritten (s t : Process) (a : Nat) : Prop :=
  (∃ ws, t.trail = ws ++ s.trail ∧ ∀ w ∈ ws, ∀ b, w ≤ b → b < w + 4 → ¬s.Within a b) ∧
    ∀ b, s.Within a b → t.mem b = s.mem b

variable {start : Nat} {gs : List Block} {k k' : Program} {s t : Process} {e : Event} {es : List Event} {p n a u : Nat}

/-! ### The invariant -/

/-- The blocks of the program are the live ones of the heap. -/
structure Kept (start : Nat) (gs : List Block) (k : Program) : Prop where
  ready : Ready start gs k.proc
  live_iff : ∀ p n, (p, n) ∈ k.live ↔ ∃ a u, p = a + headerSize ∧ (a, ⟨u, some n⟩) ∈ lives start gs
  nodup : (k.live.map Prod.fst).Nodup
  large : ∀ a u n, (a, ⟨u, some n⟩) ∈ lives start gs → n + headerSize ≤ headerSize * u

theorem Laid.within_iff (h : Laid start gs s) {x : Nat × Block} (hx : x ∈ place start gs) {b : Nat} :
    s.Within x.1 b ↔ x.1 ≤ b ∧ b < x.1 + headerSize * x.2.units := by
  rw [Process.Within, h.sizes x hx]

theorem Laid.within_unique (h : Laid start gs s) {x y : Nat × Block} (hx : x ∈ place start gs) (hy : y ∈ place start gs)
    (hne : x ≠ y) {b : Nat} (hb : s.Within x.1 b) : ¬s.Within y.1 b := by
  have hclear := place_clear hx hy hne
  rw [h.within_iff hx] at hb
  rw [h.within_iff hy]
  unfold Clear at hclear
  omega

namespace Kept
variable (h : Kept start gs k)
include h

theorem laid (hx : (p, n) ∈ k.live) : Laid start gs k.proc := by
  obtain ⟨a, u, -, hin⟩ := (h.live_iff p n).mp hx
  rcases h.ready with hlaid | ⟨rfl, -⟩
  · exact hlaid
  · exact absurd hin List.not_mem_nil

/-- The block behind a pointer. -/
theorem block (hx : (p, n) ∈ k.live) : ∃ a u, p = a + headerSize ∧ (a, ⟨u, some n⟩) ∈ lives start gs ∧ k.proc.size a = u := by
  obtain ⟨a, u, hp, hin⟩ := (h.live_iff p n).mp hx
  exact ⟨a, u, hp, hin, (h.laid hx).sizes _ (mem_lives.mp hin).1⟩

theorem discipline (hlaid : Laid start gs k.proc) : Discipline start (frees start gs) k where
  circular := hlaid.ring
  entered := hlaid.freep
  size_base := hlaid.size_base
  ordered := by
    refine .cons (fun b hb => ?_) (List.pairwise_map.mpr ?_)
    · rw [hlaid.size_base]
      exact (List.pairwise_cons.mp hlaid.ring_pairwise).1 b hb
    · refine List.Pairwise.imp_of_mem (fun {x y} hx hy hgap => ?_) ((place_gap hlaid.pos hlaid.spaced).filter _)
      obtain ⟨hx, hfx⟩ := List.mem_filter.mp hx
      obtain ⟨-, hfy⟩ := List.mem_filter.mp hy
      rw [hlaid.sizes x hx]
      exact hgap (of_decide_eq_true hfx) (of_decide_eq_true hfy)
  large x hx := by
    obtain ⟨a, u, hp, hin, hsize⟩ := h.block hx
    rw [hp, Nat.add_sub_cancel, hsize]
    exact ⟨Nat.le_add_left .., h.large a u x.2 hin⟩
  live_disjoint := by
    refine List.Pairwise.imp_of_mem (fun {x y} hx hy hne b hb => ?_) (List.pairwise_map.mp h.nodup)
    obtain ⟨a, u, hp, hin, -⟩ := h.block hx
    obtain ⟨a', u', hp', hin', -⟩ := h.block hy
    rw [hp, Nat.add_sub_cancel] at hb
    rw [hp', Nat.add_sub_cancel]
    refine hlaid.within_unique (mem_lives.mp hin).1 (mem_lives.mp hin').1 (fun heq => hne ?_) hb
    rw [hp, hp', (Prod.mk.inj heq).1]
  free_disjoint x hx a ha b hbx := by
    obtain ⟨a', u, hp, hin, -⟩ := h.block hx
    obtain ⟨g, hg, hfree⟩ := mem_frees.mp ha
    rw [hp, Nat.add_sub_cancel] at hbx
    exact hlaid.within_unique (y := (a, g)) (mem_lives.mp hin).1 hg (fun heq => (mem_lives.mp hin).2 (heq ▸ hfree)) hbx
  complete b := by
    rw [hlaid.sz_eq]
    constructor
    · rintro ⟨hle, hlt⟩
      obtain ⟨⟨a, g⟩, hx, hin⟩ := place_cover hle hlt
      have hin := (hlaid.within_iff hx).mpr hin
      by_cases hf : g.Free
      · exact .inl ⟨a, mem_frees.mpr ⟨g, hx, hf⟩, hin⟩
      · obtain ⟨u, req⟩ := g
        obtain ⟨n, rfl⟩ := Option.ne_none_iff_exists'.mp hf
        refine .inr ⟨(a + headerSize, n), (h.live_iff _ _).mpr ⟨a, u, rfl, mem_lives.mpr ⟨hx, hf⟩⟩, ?_⟩
        rwa [Nat.add_sub_cancel]
    · have hbounds {x : Nat × Block} (hx : x ∈ place start gs) (hin : k.proc.Within x.1 b) :
          start ≤ b ∧ b < start + headerSize * total gs := by
        have hbound := place_bounds hx
        rw [hlaid.within_iff hx] at hin
        omega
      rintro (⟨a, ha, hin⟩ | ⟨x, hx, hin⟩)
      · obtain ⟨g, hg, -⟩ := mem_frees.mp ha
        exact hbounds hg hin
      · obtain ⟨a, u, hp, hlive, -⟩ := h.block hx
        rw [hp, Nat.add_sub_cancel] at hin
        exact hbounds (mem_lives.mp hlive).1 hin

/-- The blocks that the allocator spares are those that stay with the program. -/
theorem unwritten {x : Nat × Nat} (hx : x ∈ k.live) {xs : List (Nat × Block)} (hs : Spares xs k.proc t)
    (hsub : ∀ a u, x.1 = a + headerSize → (a, ⟨u, some x.2⟩) ∈ lives start gs → (a, ⟨u, some x.2⟩) ∈ xs) :
    Unwritten k.proc t (x.1 - headerSize) := by
  obtain ⟨a, u, hp, hin, -⟩ := h.block hx
  have hxs := hsub a u hp hin
  rw [hp, Nat.add_sub_cancel]
  obtain ⟨ws, htrail, hws⟩ := hs.trail
  refine ⟨⟨ws, htrail, fun w hw b hle hlt hb => ?_⟩, fun b hb => ?_⟩
  · have hout := (hws w hw).2 _ hxs
    rw [(h.laid hx).within_iff (mem_lives.mp hin).1] at hb
    omega
  · rw [(h.laid hx).within_iff (mem_lives.mp hin).1] at hb
    exact hs.mem _ hxs b hb.1 hb.2

theorem malloc {nbytes : Nat} {sbrk : Int → M Nat} (he : (Event.malloc nbytes sbrk).Legal) :
    ∃ k' gs', k.call (.malloc nbytes sbrk) = some k' ∧ Kept start gs' k' ∧
      ∀ x ∈ k.live, x ∈ k'.live → Unwritten k.proc k'.proc (x.1 - headerSize) := by
  obtain ⟨hsmall, hfresh⟩ := he
  obtain ⟨p, t, hok, hres⟩ := exists_ok_of_wp (h.ready.malloc hfresh)
  have hcall : k.call (.malloc nbytes sbrk) = some ⟨t, if p = 0 then k.live else (p, nbytes) :: k.live⟩ := by
    rw [Program.call, hok]
  rcases hres with ⟨rfl, hready, -, hs, -⟩ | ⟨gs', a, hp, hserved, -⟩
  · exact ⟨_, gs, hcall, ⟨hready, h.live_iff, h.nodup, h.large⟩, fun x hx _ => h.unwritten hx hs fun _ _ _ hin => hin⟩
  · have hne : p ≠ 0 := hp ▸ Nat.succ_ne_zero _
    rw [if_neg hne] at hcall
    have hnew : (a, (⟨unitsOf nbytes, some nbytes⟩ : Block)) ∈ lives start gs' := (hserved.live_iff _).mpr (.inr rfl)
    refine ⟨_, gs', hcall, ⟨.inl hserved.laid, fun q n => ?_, ?_, fun b u n hin => ?_⟩,
      fun x hx _ => h.unwritten hx hserved.spares fun _ _ _ hin => hin⟩
    · rw [List.mem_cons, h.live_iff]
      constructor
      · rintro (heq | ⟨b, u, hq, hin⟩)
        · cases heq
          exact ⟨a, _, hp, hnew⟩
        · exact ⟨b, u, hq, (hserved.live_iff _).mpr (.inl hin)⟩
      · rintro ⟨b, u, hq, hin⟩
        rcases (hserved.live_iff _).mp hin with hin | heq
        · exact .inr ⟨b, u, hq, hin⟩
        · cases heq
          exact .inl (by rw [hq, hp])
    · refine List.nodup_cons.mpr ⟨fun hin => ?_, h.nodup⟩
      -- two blocks with one header would meet
      obtain ⟨⟨q, n⟩, hq, heq⟩ := List.mem_map.mp hin
      obtain ⟨b, u, hqb, hlive⟩ := (h.live_iff q n).mp hq
      have hclear := hserved.clear _ hlive
      have hb : b = a := by
        have hpq : q = p := heq
        omega
      have hpos : 0 < u := hserved.laid.pos _ (place_mem (mem_lives.mp ((hserved.live_iff _).mpr (.inl hlive))).1)
      have hpos' := (unitsOf_bounds nbytes).1
      unfold Clear headerSize at hclear
      dsimp only at hclear
      omega
    · rcases (hserved.live_iff _).mp hin with hin | heq
      · exact h.large b u n hin
      · cases heq
        unfold unitsOf
        rw [Nat.mod_eq_of_lt hsmall]
        unfold headerSize
        omega

theorem free {ap : Nat} (ha : k.Allows (.free ap)) :
    ∃ k' gs', k.call (.free ap) = some k' ∧ Kept start gs' k' ∧
      ∀ x ∈ k.live, x ∈ k'.live → Unwritten k.proc k'.proc (x.1 - headerSize) := by
  obtain ⟨⟨p, n⟩, hx, rfl⟩ := ha
  obtain ⟨a, u, hp, hin, -⟩ := h.block hx
  have hlaid := h.laid hx
  obtain ⟨pre, post, hgs, ha⟩ := place_split (mem_lives.mp hin).1
  have hwp := wp_free (E := fun _ _ => False) (hgs ▸ hlaid) (mem_lives.mp hin).2 ha
  obtain ⟨_, t, hok, gs', hfreed⟩ := exists_ok_of_wp hwp
  rw [← hgs] at hfreed
  have hp' : p = a + headerSize := hp
  have hcall : k.call (.free p) = some ⟨t, k.live.filter fun x => x.1 ≠ p⟩ := by
    rw [Program.call, hp', hok]
  have hmem {x : Nat × Nat} (hx : x ∈ k.live.filter fun x => x.1 ≠ p) : x ∈ k.live ∧ x.1 ≠ p := by
    simpa using hx
  have hstay {b v m : Nat} (hb : (b, (⟨v, some m⟩ : Block)) ∈ lives start gs) (hne : b + headerSize ≠ p) :
      (b, (⟨v, some m⟩ : Block)) ∈ lives start gs' :=
    (hfreed.live_iff _).mpr ⟨hb, fun heq => hne (by rw [hp', (Prod.mk.inj heq).1])⟩
  refine ⟨_, gs', hcall, ⟨.inl hfreed.laid, fun q m => ?_, ?_, fun b v m hb => ?_⟩, fun x hx hx' => ?_⟩
  · constructor
    · intro hq
      obtain ⟨hq, hne⟩ := hmem hq
      obtain ⟨b, v, hqb, hb⟩ := (h.live_iff q m).mp hq
      exact ⟨b, v, hqb, hstay hb (hqb ▸ hne)⟩
    · rintro ⟨b, v, hqb, hb⟩
      obtain ⟨hb, hne⟩ := (hfreed.live_iff _).mp hb
      refine List.mem_filter.mpr ⟨(h.live_iff q m).mpr ⟨b, v, hqb, hb⟩, decide_eq_true fun heq => hne ?_⟩
      refine hlaid.place_inj (mem_lives.mp hb).1 (mem_lives.mp hin).1 ?_
      change b = a
      change q = p at heq
      omega
  · exact h.nodup.sublist (List.filter_sublist.map _)
  · exact h.large b v m ((hfreed.live_iff _).mp hb).1
  · exact h.unwritten hx hfreed.spares fun b v hxb hb => hstay hb (hxb ▸ (hmem hx').2)

theorem write {b : Nat} (x : UInt8) (ha : k.Allows (.write b x)) :
    Kept start gs { k with proc := { k.proc with mem := update k.proc.mem b x } } := by
  obtain ⟨y, hy, hle, hlt⟩ := ha
  obtain ⟨a, u, hp, hin, hsize⟩ := h.block hy
  have hlarge := h.large a u y.2 hin
  have hlaid := h.laid hy
  refine ⟨.inl (hlaid.of_headers rfl rfl rfl rfl fun c hc => ?_), h.live_iff, h.nodup, h.large⟩
  -- the byte is not in a header
  have hout : b < c ∨ c + 8 ≤ b := by
    by_cases hca : c = a
    · unfold headerSize at hp
      omega
    · have hpos : 0 < u := hlaid.pos _ (place_mem (mem_lives.mp hin).1)
      have hbelow := hlaid.apart hc (place_header (mem_lives.mp hin).1) hca
      unfold Apart at hbelow
      rcases List.mem_cons.mp hc with rfl | hc
      · have hbase := hlaid.base_le.trans (place_bounds (mem_lives.mp hin).1).1
        unfold headerSize at hp hbase
        dsimp only at hbase
        omega
      · obtain ⟨z, hz, rfl⟩ := List.mem_map.mp hc
        have hclear := place_clear (mem_lives.mp hin).1 hz fun heq => hca (heq ▸ rfl)
        have hzpos := hlaid.pos _ (place_mem hz)
        unfold Clear headerSize at hclear
        unfold headerSize at hp hlarge
        dsimp only at hclear
        omega
  have hfit := (hlaid.mapped hc).fits
  rw [ptr, ptr, size, size, hfit.sizeAddr]
  have hsame {d : Nat} (hd : c ≤ d) (hd' : d < c + 8) : update k.proc.mem b x d = k.proc.mem d :=
    update_of_ne (by omega) ..
  exact ⟨word_congr fun d hd hd' => hsame hd (by omega), word_congr fun d hd hd' => hsame (by omega) (by omega)⟩

/-- Each call that a program may make comes back, and the blocks stay in order. -/
theorem step (he : e.Legal) (ha : k.Allows e) : ∃ k' gs', k.step e = some k' ∧ Kept start gs' k' ∧
    ((∀ a x, e ≠ .write a x) → ∀ x ∈ k.live, x ∈ k'.live → Unwritten k.proc k'.proc (x.1 - headerSize)) := by
  unfold Program.step
  rw [if_pos ha]
  cases e with
  | malloc nbytes sbrk =>
    obtain ⟨k', gs', hk, hkept, hs⟩ := h.malloc he
    exact ⟨k', gs', hk, hkept, fun _ => hs⟩
  | free ap =>
    obtain ⟨k', gs', hk, hkept, hs⟩ := h.free ha
    exact ⟨k', gs', hk, hkept, fun _ => hs⟩
  | write a x => exact ⟨_, gs, rfl, h.write x ha, fun hne => absurd rfl (hne a x)⟩

end Kept

/-- Before the first call. -/
theorem Raw.kept (h : Raw start s) : Kept start [] ⟨s, []⟩ where
  ready := .inr ⟨rfl, h⟩
  live_iff p n := by simp [lives, place]
  nodup := .nil
  large a u n hin := absurd hin List.not_mem_nil

theorem exec_kept (h : Kept start gs k) (hlegal : ∀ e ∈ es, e.Legal) (hes : Run.exec Program.step k es = some k') :
    ∃ gs', Kept start gs' k' := by
  induction es generalizing k gs with
  | nil =>
    cases hes
    exact ⟨gs, h⟩
  | cons e es ih =>
    obtain ⟨t, ht, hes⟩ := Run.exec_cons_some.mp hes
    have ha : k.Allows e := (Option.ite_none_right_eq_some.mp ht).1
    obtain ⟨t', gs', ht', hkept, -⟩ := h.step (hlegal e List.mem_cons_self) ha
    cases ht'.symm.trans ht
    exact ih hkept (fun e he => hlegal e (List.mem_cons_of_mem _ he)) hes

/-! ### The discipline -/

/-- After any calls the free list and the blocks of the program are in order, and every further call comes back
without writing the blocks that the program has and keeps. -/
theorem heap_discipline (h : Raw start s) (hlegal : ∀ e ∈ es, e.Legal)
    (hes : Run.exec Program.step ⟨s, []⟩ es = some k) :
    (k.proc.freep = 0 ∧ k.live = [] ∧ k.proc.sz = start ∨ ∃ fs, Discipline start fs k) ∧
      ∀ e, e.Legal → k.Allows e → ∃ k', k.step e = some k' ∧
        ((∀ a x, e ≠ .write a x) → ∀ x ∈ k.live, x ∈ k'.live → Unwritten k.proc k'.proc (x.1 - headerSize)) := by
  obtain ⟨gs, hkept⟩ := exec_kept h.kept hlegal hes
  refine ⟨?_, fun e he ha => ?_⟩
  · rcases hkept.ready with hlaid | ⟨rfl, hraw⟩
    · exact .inr ⟨frees start gs, hkept.discipline hlaid⟩
    · refine .inl ⟨hraw.freep, List.eq_nil_iff_forall_not_mem.mpr fun x hx => ?_, hraw.sz_eq⟩
      obtain ⟨a, u, -, hin⟩ := (hkept.live_iff x.1 x.2).mp hx
      exact absurd hin List.not_mem_nil
  · obtain ⟨k', -, hk, -, hs⟩ := hkept.step he ha
    exact ⟨k', hk, hs⟩

/-- Two blocks, the first of which is freed. -/
def calls : List Event := [.malloc 10 (sbrk true), .malloc 100 (sbrk true), .free 40944]

theorem heap_discipline_calls : ∃ k fs, Run.exec Program.step ⟨loaded, []⟩ calls = some k ∧ k.live = [(40832, 100)] ∧
    Discipline 8192 fs k := by
  obtain ⟨k, hk, hlive⟩ : ∃ k, Run.exec Program.step ⟨loaded, []⟩ calls = some k ∧
      decide (k.live = [(40832, 100)]) = true := (Option.any_eq_true _ _).mp (by decide +kernel)
  have hlive := of_decide_eq_true hlive
  have hlegal : ∀ e ∈ calls, e.Legal := by
    intro e he
    simp only [calls, List.mem_cons, List.not_mem_nil, or_false] at he
    rcases he with rfl | rfl | rfl
    · exact ⟨by decide, sbrk_fresh (by decide) (by decide)⟩
    · exact ⟨by decide, sbrk_fresh (by decide) (by decide)⟩
    · trivial
  rcases (heap_discipline loaded_raw hlegal hk).1 with ⟨-, hnil, -⟩ | ⟨fs, hd⟩
  · rw [hlive] at hnil
    exact absurd hnil (List.cons_ne_nil _ _)
  · exact ⟨k, fs, hk, hlive, hd⟩

end Xv6.Heap
