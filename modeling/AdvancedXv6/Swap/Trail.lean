import AdvancedXv6.Swap.Proc

/-! The history variable `trail` only grows, in any state and whatever the outcome; only `swap_in`
adds a page-in to it, and only `copyuvm` a shared slot. -/

namespace Xv6.Swap
open Effect

variable (im : Image) {k k' : Kernel} {ev : Event} {P P' : Event → Prop}

def Event.isFetch : Event → Bool
  | .fetch _ _ => true
  | _ => false

/-- How often `swap_in` has run. -/
def fetches (tr : List Event) : Nat := tr.countP Event.isFetch

def NoFetch (ev : Event) : Prop := ev.isFetch = false

def NoShare (ev : Event) : Prop := ∀ d va, ev ≠ .share d va

/-- What goes on in the background. -/
def Plain : Event → Prop
  | .reload | .evict _ _ => True
  | _ => False

theorem Plain.noFetch (h : Plain ev) : NoFetch ev := by
  cases ev with
  | fetch d va => exact h.elim
  | _ => rfl

theorem Plain.noShare (h : Plain ev) : NoShare ev := by
  rintro d va rfl
  exact h

/-- Between the two states only events as in `P` were recorded. -/
def Longer (P : Event → Prop) (k k' : Kernel) : Prop := ∃ evs, k'.trail = evs ++ k.trail ∧ ∀ ev ∈ evs, P ev

namespace Longer

theorem refl (k : Kernel) : Longer P k k := ⟨[], rfl, by simp⟩

theorem trans (k₁ k₂ k₃ : Kernel) (h : Longer P k₁ k₂) (h' : Longer P k₂ k₃) : Longer P k₁ k₃ := by
  obtain ⟨evs, htrail, hP⟩ := h
  obtain ⟨evs', htrail', hP'⟩ := h'
  refine ⟨evs' ++ evs, by rw [htrail', htrail, List.append_assoc], fun ev hev => ?_⟩
  exact (List.mem_append.mp hev).elim (hP' ev) (hP ev)

theorem cons (h : k'.trail = ev :: k.trail) (hev : P ev) : Longer P k k' := ⟨[ev], h, by simpa using hev⟩

theorem mono (h : Longer P k k') (hP : ∀ ev, P ev → P' ev) : Longer P' k k' := by
  obtain ⟨evs, htrail, hev⟩ := h
  exact ⟨evs, htrail, fun ev hmem => hP ev (hev ev hmem)⟩

theorem trail (h : Longer P k k') : k.trail <:+ k'.trail := by
  obtain ⟨evs, htrail, -⟩ := h
  exact ⟨evs, htrail.symm⟩

theorem noFetch (h : Longer Plain k k') : Longer NoFetch k k' := h.mono fun _ => Plain.noFetch

theorem noShare (h : Longer Plain k k') : Longer NoShare k k' := h.mono fun _ => Plain.noShare

theorem fetches (h : Longer NoFetch k k') : fetches k'.trail = fetches k.trail := by
  obtain ⟨evs, htrail, hev⟩ := h
  have hzero : evs.countP Event.isFetch = 0 := List.countP_eq_zero.mpr fun ev hmem => by
    rw [hev ev hmem]
    exact Bool.false_ne_true
  rw [htrail, Swap.fetches, List.countP_append, hzero, Nat.zero_add, Swap.fetches]

end Longer

/-- The program records events as in `P` at most. -/
def Logs {α : Type} (P : Event → Prop) (m : Kern α) : Prop := Within (Longer P) m

namespace Logs

protected theorem pure {α : Type} (a : α) : Logs P (pure a) := Within.pure Longer.refl a

protected theorem get : Logs P get := Within.get Longer.refl

protected theorem throw {α : Type} (e : Panic) : Logs P (throw e : Kern α) := Within.throw Longer.refl e

protected theorem bind {α β : Type} {m : Kern α} {f : α → Kern β} (hm : Logs P m)
    (hf : ∀ a, Logs P (f a)) : Logs P (m >>= f) := Within.bind Longer.trans hm hf

/-- A change that records nothing. -/
protected theorem silent {f : Kernel → Kernel} (h : ∀ k, (f k).trail = k.trail) : Logs P (modify f) :=
  Within.modify fun k => ⟨[], h k, by simp⟩

protected theorem event {f : Kernel → Kernel} (h : ∀ k, ∃ ev, (f k).trail = ev :: k.trail ∧ P ev) :
    Logs P (modify f) :=
  Within.modify fun k => by
    obtain ⟨ev, htrail, hev⟩ := h k
    exact .cons htrail hev

protected theorem ite {α : Type} {c : Prop} [Decidable c] {m n : Kern α} (hm : Logs P m)
    (hn : Logs P n) : Logs P (if c then m else n) := by
  split
  · exact hm
  · exact hn

theorem mono {α : Type} {m : Kern α} (hm : Logs P m) (hP : ∀ ev, P ev → P' ev) : Logs P' m :=
  fun k => wp_mono (hm k) (fun _ _ h => h.mono hP) fun _ _ h => h.mono hP

theorem noFetch {α : Type} {m : Kern α} (hm : Logs Plain m) : Logs NoFetch m := hm.mono fun _ => Plain.noFetch

theorem noShare {α : Type} {m : Kern α} (hm : Logs Plain m) : Logs NoShare m := hm.mono fun _ => Plain.noShare

end Logs

/-! ### The allocator -/

theorem acquireKmem_logs : Logs Plain acquireKmem :=
  .bind .get fun _ => .ite (.ite (.bind (.throw _) fun _ => .silent fun _ => rfl)
    (.silent fun _ => rfl)) (.pure _)

theorem releaseKmem_logs : Logs Plain releaseKmem :=
  .bind .get fun _ => .ite (.ite (.bind (.throw _) fun _ => .silent fun _ => rfl)
    (.silent fun _ => rfl)) (.pure _)

theorem getFreePages_logs : Logs Plain getFreePages :=
  .bind acquireKmem_logs fun _ => .bind .get fun _ => .bind releaseKmem_logs fun _ => .pure _

theorem kfree_logs (v : Nat) : Logs Plain (kfree im v) := by
  have hrest : Logs Plain (do
      modify fun k => k.setPage v (fun _ => 0x01010101)
      acquireKmem
      modify fun k => { k with
        mem := Function.update k.mem v (Function.update (k.mem v) 0 (linkWord k.freelist))
        freelist := v :: k.freelist
        freePagesCount := k.freePagesCount + 1 }
      releaseKmem : Kern Unit) :=
    .bind (.silent fun _ => rfl) fun _ => .bind acquireKmem_logs fun _ =>
      .bind (.silent fun _ => rfl) fun _ => releaseKmem_logs
  rw [kfree]
  exact .ite (.bind (.throw _) fun _ => hrest) hrest

/-! ### Eviction -/

theorem waitDisk_logs : Logs Plain waitDisk := by
  refine .bind .get fun k => ?_
  cases k.cur with
  | none => exact .throw _
  | some p => exact .event fun k => ⟨_, rfl, trivial⟩

theorem bread_logs (b : Nat) : Logs Plain (bread b) := by
  refine .bind .get fun k => ?_
  have hrest : Logs Plain (do
      waitDisk
      modify fun k => k.useBuf b
      pure (k.disk b) : Kern Block) :=
    .bind waitDisk_logs fun _ => .bind (.silent fun _ => rfl) fun _ => .pure _
  exact .ite (.bind (.silent fun _ => rfl) fun _ => .pure _)
    (.ite (.bind (.throw _) fun _ => hrest) hrest)

theorem bwrite_logs (b : Nat) (data : Block) : Logs Plain (bwrite b data) := by
  have hrest : Logs Plain (do
      modify fun k => { k with disk := Function.update k.disk b data }
      waitDisk : Kern Unit) := .bind (.silent fun _ => rfl) fun _ => waitDisk_logs
  exact .ite (.bind (.throw _) fun _ => hrest) hrest

theorem writeToSwap_logs (mem : Nat) (slot : Int) : Logs Plain (writeToSwap mem slot) :=
  Within.forEach Longer.refl Longer.trans (fun _ => Logs.bind (bread_logs _) fun _ =>
    .bind .get fun _ => bwrite_logs _ _) _

theorem readBlock_logs (mem : Nat) (slot : Int) (j : Nat) : Logs Plain (readBlock mem slot j) :=
  .bind (bread_logs _) fun _ => .silent fun _ => rfl

theorem readFromSwap_logs (mem : Nat) (slot : Int) : Logs Plain (readFromSwap mem slot) :=
  Within.forEach Longer.refl Longer.trans (readBlock_logs mem slot) _

theorem findFreeSlot_logs : Logs Plain findFreeSlot := by
  refine .bind .get fun k => ?_
  split
  · exact .bind (.silent fun _ => rfl) fun _ => .pure _
  · exact .pure _

theorem savePerm_logs (slot : Int) (perm : Word) : Logs Plain (savePerm slot perm) :=
  .silent fun k => by split <;> rfl

theorem victimLoop_logs (ps : List Nat) (victim : Option Nat) (maxRss : Int) :
    Logs Plain (victimLoop ps victim maxRss) := by
  induction ps generalizing victim maxRss with
  | nil => exact .pure _
  | cons p ps ih =>
    exact .bind .get fun _ => .ite (.bind (.silent fun _ => rfl) fun _ => .bind .get fun _ =>
      .ite (ih _ _) (ih _ _)) (ih _ _)

theorem secondChance_logs (d : Nat) (vas : List Nat) : Logs Plain (secondChance d vas) := by
  induction vas with
  | nil => exact .pure _
  | cons va vas ih =>
    refine .bind .get fun k => ?_
    cases k.walk d va with
    | none => exact ih
    | some q => exact .ite ih (.ite (.pure _) (.bind (.silent fun _ => rfl) fun _ => ih))

theorem swapOutBegin_logs : Logs Plain swapOutBegin := by
  refine .bind (victimLoop_logs _ _ _) fun victim => ?_
  cases victim with
  | none => exact .throw _
  | some v =>
    refine .bind .get fun k₁ => .bind (secondChance_logs _ _) fun found => .bind .get fun k => ?_
    dsimp only
    split
    · exact .throw _
    · split
      · exact .throw _
      · refine .bind findFreeSlot_logs fun slot => .ite (.bind (.throw _) fun _ => ?_) ?_
        all_goals exact .bind (savePerm_logs _ _) fun _ => .pure _

theorem swapOutOnePage_logs : Logs Plain (swapOutOnePage im) :=
  .bind swapOutBegin_logs fun _ => .bind (writeToSwap_logs _ _) fun _ =>
    .bind (.event fun _ => ⟨_, rfl, trivial⟩) fun _ => kfree_logs im _

theorem swapOutIfNeeded_logs : Logs Plain (swapOutIfNeeded im) :=
  .bind getFreePages_logs fun _ => .bind .get fun _ => .ite
    (.bind (Within.times Longer.refl Longer.trans (swapOutOnePage_logs im) _) fun _ =>
      .silent fun _ => rfl) (.pure _)

theorem kalloc_logs : Logs Plain (kalloc im) := by
  refine .bind .get fun k => .ite (.bind acquireKmem_logs fun _ => .bind .get fun k => ?_)
    (.bind (swapOutIfNeeded_logs im) fun _ => .bind acquireKmem_logs fun _ => .bind .get fun k => ?_)
  · split
    · exact .bind (.silent fun _ => rfl) fun _ => .bind releaseKmem_logs fun _ => .pure _
    · exact .bind releaseKmem_logs fun _ => .pure _
  · split
    · exact .bind (.silent fun _ => rfl) fun _ => .bind releaseKmem_logs fun _ => .pure _
    · exact .pure _

/-! ### Page tables -/

theorem walkpgdir_logs (d va : Nat) (alloc : Bool) : Logs Plain (walkpgdir im d va alloc) := by
  refine .bind .get fun k => ?_
  cases k.walk d va with
  | some q => exact .pure _
  | none =>
    refine .ite (.pure _) (.bind (kalloc_logs im) fun r => ?_)
    cases r with
    | none => exact .pure _
    | some t => exact .bind (.silent fun _ => rfl) fun _ => .bind (.silent fun _ => rfl) fun _ => .pure _

theorem mapLoop_logs (d : Nat) (perm : Word) (n a f : Nat) : Logs Plain (mapLoop im d perm n a f) := by
  induction n generalizing a f with
  | zero => exact .pure _
  | succ n ih =>
    refine .bind (walkpgdir_logs im d a true) fun r => ?_
    cases r with
    | none => exact .pure _
    | some q =>
      refine .bind .get fun k => .ite (.bind (.throw _) fun _ => ?_) ?_
      all_goals exact .bind (.silent fun _ => rfl) fun _ => ih _ _

theorem mappages_logs (d va size f : Nat) (perm : Word) : Logs Plain (mappages im d va size f perm) :=
  mapLoop_logs im d perm _ _ _

theorem deallocLoop_logs (d oldsz n a : Nat) : Logs Plain (deallocLoop im d oldsz n a) := by
  induction n generalizing a with
  | zero => exact .pure _
  | succ n ih =>
    refine .ite (.bind .get fun k => ?_) (.pure _)
    cases k.walk d a with
    | none => exact ih _
    | some q =>
      have hfree : Logs Plain (do
          kfree im (frameOf (k.load q))
          modify fun k => k.setPte d a q 0
          deallocLoop im d oldsz n (a + pgSize) : Kern Unit) :=
        .bind (kfree_logs im _) fun _ => .bind (.silent fun _ => rfl) fun _ => ih _
      exact .ite (.ite (.bind (.throw _) fun _ => hfree) hfree)
        (.ite (.bind (.silent fun _ => rfl) fun _ => .bind (.silent fun _ => rfl) fun _ => ih _) (ih _))

theorem freeTables_logs (d : Nat) (is : List Nat) : Logs Plain (freeTables im d is) := by
  induction is with
  | nil => exact .pure _
  | cons i is ih => exact .bind .get fun _ => .ite (.bind (kfree_logs im _) fun _ => ih) ih

theorem freevm_logs (d : Nat) : Logs Plain (freevm im d) := by
  have hrest : Logs Plain (do
      let _ ← deallocuvm im d kernBase 0
      freeTables im d (List.range nPdEntries)
      kfree im d : Kern Unit) :=
    .bind (.ite (.pure _) (.bind (deallocLoop_logs im _ _ _ _) fun _ => .pure _)) fun _ =>
      .bind (freeTables_logs im _ _) fun _ => kfree_logs im _
  exact .ite (.bind (.throw _) fun _ => hrest) hrest

theorem copyLoop_logs (d c : Nat) (vas : List Nat) : Logs NoFetch (copyLoop im d c vas) := by
  induction vas with
  | nil => exact .pure _
  | cons va vas ih =>
    refine .bind .get fun k => ?_
    cases k.walk d va with
    | none => exact .throw _
    | some q =>
      refine .ite (.throw _) (.ite (.bind (kalloc_logs im).noFetch fun r => ?_)
        (.bind (.event fun _ => ⟨_, rfl, rfl⟩) fun _ => .bind (mappages_logs im _ _ _ _ _).noFetch fun _ =>
          .ite (.pure _) ih))
      cases r with
      | none => exact .pure _
      | some mem =>
        exact .bind (.event fun _ => ⟨_, rfl, rfl⟩) fun _ => .bind (mappages_logs im _ _ _ _ _).noFetch fun _ =>
          .ite (.bind (kfree_logs im _).noFetch fun _ => .pure _) ih

theorem mapKernel_logs (d : Nat) (es : List KmapEntry) : Logs Plain (mapKernel im d es) := by
  induction es with
  | nil => exact .pure _
  | cons e es ih => exact .bind (mappages_logs im _ _ _ _ _) fun _ => .ite (.pure _) ih

theorem setupkvm_logs : Logs Plain (setupkvm im) := by
  refine .bind (kalloc_logs im) fun r => ?_
  cases r with
  | none => exact .pure _
  | some d =>
    have hrest : Logs Plain (do
        if ← mapKernel im d (kmap im) then pure (some d)
        else do
          freevm im d
          pure none : Kern (Option Nat)) :=
      .bind (mapKernel_logs im d _) fun _ => .ite (.pure _) (.bind (freevm_logs im d) fun _ => .pure _)
    exact .bind (.silent fun _ => rfl) fun _ => .ite (.bind (.throw _) fun _ => hrest) hrest

theorem switchuvm_logs (p : Nat) : Logs Plain (switchuvm p) := .event fun _ => ⟨_, rfl, trivial⟩

theorem switchkvm_logs : Logs Plain switchkvm := .event fun _ => ⟨_, rfl, trivial⟩

theorem deallocuvm_logs (d oldsz newsz : Nat) : Logs Plain (deallocuvm im d oldsz newsz) :=
  .ite (.pure _) (.bind (deallocLoop_logs im _ _ _ _) fun _ => .pure _)

theorem allocLoop_logs (d oldsz newsz : Nat) (as : List Nat) : Logs Plain (allocLoop im d oldsz newsz as) := by
  induction as with
  | nil => exact .pure _
  | cons a as ih =>
    refine .bind (kalloc_logs im) fun r => ?_
    cases r with
    | none => exact .bind (deallocuvm_logs im _ _ _) fun _ => .pure _
    | some mem =>
      exact .bind (.silent fun _ => rfl) fun _ => .bind (mappages_logs im _ _ _ _ _) fun _ =>
        .ite (.bind (deallocuvm_logs im _ _ _) fun _ => .bind (kfree_logs im _) fun _ => .pure _) ih

theorem allocuvm_logs (d oldsz newsz : Nat) : Logs Plain (allocuvm im d oldsz newsz) := by
  refine .ite (.pure _) (.ite (.pure _) (.bind (allocLoop_logs im _ _ _ _) fun _ =>
    .ite (.bind .get fun k => ?_) (.pure _)))
  cases k.cur with
  | none => exact .throw _
  | some p => exact .bind (.silent fun _ => rfl) fun _ => .pure _

theorem copyuvm_logs (d sz : Nat) : Logs NoFetch (copyuvm im d sz) := by
  refine .bind (setupkvm_logs im).noFetch fun r => ?_
  cases r with
  | none => exact .pure _
  | some c => exact .bind (copyLoop_logs im d c _) fun _ => .ite (.pure _) (.bind (freevm_logs im c).noFetch fun _ => .pure _)

/-! ### Processes -/

theorem myproc_logs : Logs Plain myproc := by
  refine .bind .get fun k => ?_
  cases k.cur with
  | none => exact .throw _
  | some p => exact .pure _

theorem unuse_logs (p : Nat) : Logs Plain (unuse p) := .silent fun _ => rfl

theorem allocproc_logs : Logs Plain (allocproc im) := by
  refine .bind .get fun k => ?_
  split
  · exact .pure _
  · refine .bind (.silent fun _ => rfl) fun _ => .bind (kalloc_logs im) fun r => ?_
    cases r with
    | none => exact .bind (unuse_logs _) fun _ => .pure _
    | some f => exact .bind (.silent fun _ => rfl) fun _ => .pure _

theorem growproc_logs (n : Int) : Logs Plain (growproc im n) := by
  have hend (p : Nat) (r : Nat) : Logs Plain (do
      modify fun k => k.setProc p { k.proc p with sz := r }
      switchuvm p
      pure 0 : Kern Int) := .bind (.silent fun _ => rfl) fun _ => .bind (switchuvm_logs p) fun _ => .pure _
  refine .bind myproc_logs fun p => .bind .get fun k => .ite (.bind .get fun _ => ?_)
    (.ite (.bind .get fun _ => ?_) (.bind (switchuvm_logs p) fun _ => .pure _))
  · exact .bind (allocuvm_logs im _ _ _) fun r => .ite (.pure _) (hend p r)
  · exact .bind (deallocuvm_logs im _ _ _) fun r => .ite (.pure _) (hend p r)

theorem fork_logs : Logs NoFetch (fork im) := by
  refine .bind myproc_logs.noFetch fun p => .bind (allocproc_logs im).noFetch fun r => ?_
  cases r with
  | none => exact .pure _
  | some np =>
    refine .bind .get fun k => .bind (copyuvm_logs im _ _) fun r => ?_
    cases r with
    | none =>
      exact .bind .get fun _ => .bind (kfree_logs im _).noFetch fun _ => .bind (unuse_logs np).noFetch fun _ => .pure _
    | some c => exact .bind (.silent fun _ => rfl) fun _ => .bind .get fun _ => .pure _

theorem exit_logs : Logs Plain exit := by
  have hrest (p : Nat) : Logs Plain (do
      modify fun k => { k with proc := k.reparent p }
      modify fun k => { k.setProc p { k.proc p with state := .zombie } with cur := none }
      switchkvm : Kern Unit) :=
    .bind (.silent fun _ => rfl) fun _ => .bind (.silent fun _ => rfl) fun _ => switchkvm_logs
  exact .bind myproc_logs fun p => .bind .get fun _ => .ite (.bind (.throw _) fun _ => hrest p) (hrest p)

theorem wait_logs : Logs Plain (wait im) := by
  refine .bind myproc_logs fun p => .bind .get fun k => ?_
  split
  · exact .pure _
  · exact .bind (kfree_logs im _) fun _ => .bind (.silent fun _ => rfl) fun _ => .bind (freevm_logs im _) fun _ =>
      .bind (.silent fun _ => rfl) fun _ => .pure _

theorem pipealloc_logs : Logs Plain (pipealloc im) := by
  refine .bind (kalloc_logs im) fun r => ?_
  cases r with
  | none => exact .pure _
  | some f => exact .bind (.silent fun _ => rfl) fun _ => .pure _

theorem pipeclose_logs (f : Nat) : Logs Plain (pipeclose im f) :=
  .bind (kfree_logs im f) fun _ => .silent fun _ => rfl

theorem dispatch_logs (q : Nat) : Logs Plain (dispatch q) :=
  .bind (.silent fun _ => rfl) fun _ => .bind (switchuvm_logs q) fun _ => .silent fun _ => rfl

theorem sched_logs (s : ProcState) : Logs Plain (sched s) :=
  .bind myproc_logs fun _ => .bind (.silent fun _ => rfl) fun _ => switchkvm_logs

theorem wakeup_logs (chan : Nat → Bool) : Logs Plain (wakeup chan) := .silent fun _ => rfl

theorem kill_logs (pid : Nat) : Logs Plain (kill pid) := by
  refine .bind .get fun k => ?_
  split
  · exact .pure _
  · exact .bind (.silent fun _ => rfl) fun _ => .pure _

theorem userLoad_logs (va : Nat) : Logs Plain (userLoad va) := by
  refine .bind .get fun k => ?_
  cases k.walk k.cr3 va with
  | none => exact .pure _
  | some q => exact .ite (.bind (.silent fun _ => rfl) fun _ => .pure _) (.pure _)

theorem userStore_logs (va : Nat) (b : BitVec 8) : Logs Plain (userStore va b) := by
  refine .bind .get fun k => ?_
  cases k.walk k.cr3 va with
  | none => exact .pure _
  | some q =>
    exact .ite (.bind (.silent fun _ => rfl) fun _ => .bind (.silent fun _ => rfl) fun _ => .pure _) (.pure _)

/-! ### Page-ins -/

theorem swapIn_logs (p va slot : Nat) : Logs NoShare (swapIn im p va slot) := by
  refine .bind (swapOutIfNeeded_logs im).noShare fun _ => .bind (kalloc_logs im).noShare fun r => ?_
  cases r with
  | none => exact .throw _
  | some mem =>
    refine .bind (readFromSwap_logs mem slot).noShare fun _ => .bind .get fun k => ?_
    cases k.walk (k.proc p).pgdir va with
    | none => exact .throw _
    | some q => exact .event fun _ => ⟨_, rfl, fun _ _ => Event.noConfusion⟩

theorem pgflt_logs (va : Nat) : Logs NoShare (pgflt im va) := by
  refine .bind myproc_logs.noShare fun p => .bind .get fun k => ?_
  cases k.walk (k.proc p).pgdir va with
  | none => exact .silent fun _ => rfl
  | some q =>
    exact .ite (.silent fun _ => rfl) (.ite (swapIn_logs im p va _) (.silent fun _ => rfl))

theorem trapPgflt_logs (va : Nat) (user : Bool) : Logs NoShare (trapPgflt im va user) :=
  .bind (pgflt_logs im va) fun _ => .bind myproc_logs.noShare fun _ => .bind .get fun _ =>
    .ite (.bind exit_logs.noShare fun _ => .pure _) (.pure _)

theorem touch_logs (va : Nat) : Logs NoShare (touch im va) :=
  .bind myproc_logs.noShare fun _ => .bind .get fun _ => .ite (.bind (pgflt_logs im va) fun _ =>
    .bind .get fun _ => .ite (.throw _) (.pure _)) (.pure _)

theorem touchRange_logs (va n : Nat) : Logs NoShare (touchRange im va n) :=
  Within.forEach Longer.refl Longer.trans (touch_logs im) _

/-! ### `exec` -/

theorem loadLoop_logs (d addr : Nat) (read : Nat → Option (Page → Page)) (is : List Nat) :
    Logs Plain (loadLoop d addr read is) := by
  induction is with
  | nil => exact .pure _
  | cons i is ih =>
    refine .bind .get fun k => ?_
    cases k.walk d (addr + i * pgSize) with
    | none => exact .throw _
    | some q =>
      dsimp only
      cases read i with
      | none => exact .pure _
      | some w => exact .bind (.silent fun _ => rfl) fun _ => ih

theorem loadSegments_logs (d : Nat) (phs : List Segment) (sz : Nat) : Logs Plain (loadSegments im d phs sz) := by
  induction phs generalizing sz with
  | nil => exact .pure _
  | cons ph phs ih =>
    exact .ite (.pure _) (.ite (.pure _) (.bind (allocuvm_logs im _ _ _) fun sz => .ite (.pure _)
      (.ite (.pure _) (.bind (.ite (.throw _) (loadLoop_logs _ _ _ _)) fun _ => .ite (ih _) (.pure _)))))

theorem clearpteu_logs (d uva : Nat) : Logs Plain (clearpteu d uva) := by
  refine .bind .get fun k => ?_
  cases k.walk d uva with
  | none => exact .throw _
  | some q => exact .silent fun _ => rfl

theorem copyoutLoop_logs (d n va : Nat) (buf : List (BitVec 8)) : Logs Plain (copyoutLoop d n va buf) := by
  induction n generalizing va buf with
  | zero => exact .pure _
  | succ n ih =>
    refine .ite (.pure _) (.bind (.bind .get fun k => ?_) fun r => ?_)
    · cases k.walk d (pgRoundDown va) with
      | none => exact .throw _
      | some q => exact .ite (.pure _) (.ite (.pure _) (.pure _))
    · cases r with
      | none => exact .pure _
      | some f => exact .bind (.silent fun _ => rfl) fun _ => ih _ _

theorem pushArgs_logs (d : Nat) (ss : List UserString) (sp : Nat) (ustack : List Nat) :
    Logs NoShare (pushArgs im d ss sp ustack) := by
  induction ss generalizing sp ustack with
  | nil => exact .pure _
  | cons s ss ih =>
    exact .ite (.pure _) (.bind (touchRange_logs im _ _) fun _ => .bind (touchRange_logs im _ _) fun _ =>
      .bind (copyoutLoop_logs _ _ _ _).noShare fun _ => .ite (ih _ _) (.pure _))

theorem execImage_logs (d : Nat) (phs : List Segment) (path : UserString) (argv : List UserString) :
    Logs NoShare (execImage im d phs path argv) := by
  refine .bind (loadSegments_logs im d phs 0).noShare fun r => ?_
  cases r with
  | none => exact .pure _
  | some sz =>
    refine .bind (allocuvm_logs im _ _ _).noShare fun sz => .ite (.pure _)
      (.bind (clearpteu_logs _ _).noShare fun _ => .bind (pushArgs_logs im d argv sz []) fun r => ?_)
    cases r with
    | none => exact .pure _
    | some q =>
      exact .bind (copyoutLoop_logs _ _ _ _).noShare fun _ => .ite
        (.bind (touchRange_logs im _ _) fun _ => .bind myproc_logs.noShare fun p => .bind .get fun _ =>
          .bind (.silent fun _ => rfl) fun _ => .bind (switchuvm_logs p).noShare fun _ =>
            .bind (freevm_logs im _).noShare fun _ => .pure _) (.pure _)

theorem exec_logs (phs : Option (List Segment)) (path : UserString) (argv : List UserString) :
    Logs NoShare (exec im phs path argv) := by
  cases phs with
  | none => exact .pure _
  | some phs =>
    refine .bind (setupkvm_logs im).noShare fun r => ?_
    cases r with
    | none => exact .pure _
    | some d =>
      exact .bind (execImage_logs im d phs path argv) fun _ =>
        .ite (.pure _) (.bind (freevm_logs im d).noShare fun _ => .pure _)

end Xv6.Swap
