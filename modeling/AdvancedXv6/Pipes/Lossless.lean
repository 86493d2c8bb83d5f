import AdvancedXv6.Lib.Ring
import AdvancedXv6.Pipes.State

/-! What a pipe loses, and when its page is freed: the invariant of a pipe and its two files. -/

namespace Xv6.Pipes
open Function

def Pipe.isOpen (p : Pipe) (writable : Bool) : Bool := if writable then p.writeopen else p.readopen

/-- The calls of an end. -/
def Mode.Uses : Mode → Bool → Prop
  | .writing .., w => w = true
  | .reading .., w => w = false
  | _, _ => False

namespace Sys
variable {s t u : Sys} {c d addr k i : Nat} {n r : Int} {w : Bool} {chan : Chan} {mode : Mode} {e : Event}

/-- The ring holds what has been accepted and not yet delivered. -/
structure Buffer (s : Sys) : Prop where
  pending : ∃ xs, s.accepted = s.delivered ++ xs ∧ Ring.Holds pipesize s.pipe.data s.delivered.length xs
  nread : s.pipe.nread = BitVec.ofNat 32 s.delivered.length
  nwrite : s.pipe.nwrite = BitVec.ofNat 32 s.accepted.length

namespace Buffer

theorem level (h : s.Buffer) : s.delivered.length ≤ s.accepted.length ∧
    s.accepted.length - s.delivered.length ≤ pipesize := by
  obtain ⟨xs, hxs, hring⟩ := h.pending
  have hlen : s.accepted.length = s.delivered.length + xs.length := by rw [hxs, List.length_append]
  have := hring.fits
  omega

theorem full_iff (h : s.Buffer) : s.pipe.nwrite = s.pipe.nread + BitVec.ofNat 32 pipesize ↔
    s.accepted.length = s.delivered.length + pipesize := by
  rw [h.nread, h.nwrite]
  exact Ring.full_iff h.level.1 h.level.2 (by decide)

theorem empty_iff (h : s.Buffer) : s.pipe.nread = s.pipe.nwrite ↔
    s.delivered.length = s.accepted.length := by
  rw [h.nread, h.nwrite]
  exact Ring.ofNat_inj h.level.1 (Nat.lt_of_le_of_lt h.level.2 (by decide))

theorem put (h : s.Buffer) (hfull : s.pipe.nwrite ≠ s.pipe.nread + BitVec.ofNat 32 pipesize) (c addr : Nat) :
    (s.put c addr).Buffer := by
  obtain ⟨xs, hxs, hring⟩ := h.pending
  have hlen : s.accepted.length = s.delivered.length + xs.length := by rw [hxs, List.length_append]
  have hlt : xs.length < pipesize := by
    refine Nat.lt_of_le_of_ne hring.fits fun heq => hfull (h.full_iff.mpr ?_)
    rw [hlen, heq]
  have hcell : s.pipe.nwrite.toNat % pipesize = (s.delivered.length + xs.length) % pipesize := by
    rw [h.nwrite, hlen]
    exact Ring.cell_ofNat (by decide) _
  refine ⟨⟨xs ++ [(s.proc c).mem addr], ?_, ?_⟩, h.nread, ?_⟩
  · exact (congrArg (· ++ [(s.proc c).mem addr]) hxs).trans (List.append_assoc ..)
  · have hput := hring.push hlt ((s.proc c).mem addr)
    rw [← hcell] at hput
    exact hput
  · have hlen' : (s.put c addr).accepted.length = s.accepted.length + 1 := by
      unfold Sys.put
      rw [List.length_append, List.length_singleton]
    rw [hlen', ← Ring.ofNat_succ, ← h.nwrite]
    rfl

theorem take (h : s.Buffer) (hne : s.pipe.nread ≠ s.pipe.nwrite) (c addr : Nat) : (s.take c addr).Buffer := by
  obtain ⟨xs, hxs, hring⟩ := h.pending
  have hcell : s.pipe.nread.toNat % pipesize = s.delivered.length % pipesize := by
    rw [h.nread]
    exact Ring.cell_ofNat (by decide) _
  cases xs with
  | nil =>
    rw [List.append_nil] at hxs
    exact absurd (h.empty_iff.mpr (congrArg List.length hxs).symm) hne
  | cons x xs =>
    have hx : s.pipe.data (s.pipe.nread.toNat % pipesize) = x := by
      rw [hcell]
      exact hring.head
    have hdel : (s.take c addr).delivered = s.delivered ++ [x] := congrArg (s.delivered ++ [·]) hx
    have hlen : (s.take c addr).delivered.length = s.delivered.length + 1 := by
      rw [hdel, List.length_append, List.length_singleton]
    refine ⟨⟨xs, ?_, ?_⟩, ?_, h.nwrite⟩
    · rw [hdel, List.append_assoc]
      exact hxs
    · rw [hlen]
      exact hring.pop
    · rw [hlen]
      exact (congrArg (· + 1) h.nread).trans (Ring.ofNat_succ _)

theorem wakeup (h : s.Buffer) (chan : Chan) : (s.wakeup chan).Buffer := ⟨h.pending, h.nread, h.nwrite⟩

theorem setProc (h : s.Buffer) (c : Nat) (f : Proc → Proc) : (s.setProc c f).Buffer :=
  ⟨h.pending, h.nread, h.nwrite⟩

end Buffer

/-- What a call of `c` on the pipe leaves alone. -/
structure Within (c : Nat) (s t : Sys) : Prop where
  ref : t.ref = s.ref
  fds : t.fds = s.fds
  freed : t.freed = s.freed
  panic : t.panic = s.panic
  isOpen : ∀ w, t.pipe.isOpen w = s.pipe.isOpen w
  mode : ∀ d, d ≠ c → (t.proc d).mode = (s.proc d).mode

namespace Within

theorem trans (h : Within c s t) (h' : Within c t u) : Within c s u where
  ref := h'.ref.trans h.ref
  fds := h'.fds.trans h.fds
  freed := h'.freed.trans h.freed
  panic := h'.panic.trans h.panic
  isOpen w := (h'.isOpen w).trans (h.isOpen w)
  mode d hd := (h'.mode d hd).trans (h.mode d hd)

theorem setProc (c : Nat) (f : Proc → Proc) : Within c s (s.setProc c f) :=
  ⟨rfl, rfl, rfl, rfl, fun _ => rfl, fun _ hd => by rw [setProc_of_ne hd]⟩

theorem wakeup (c : Nat) (chan : Chan) : Within c s (s.wakeup chan) :=
  ⟨rfl, rfl, rfl, rfl, fun _ => rfl, fun _ _ => rfl⟩

theorem put (c addr : Nat) : Within c s (s.put c addr) := ⟨rfl, rfl, rfl, rfl, fun _ => rfl, fun _ _ => rfl⟩

theorem take (c addr : Nat) : Within c s (s.take c addr) :=
  ⟨rfl, rfl, rfl, rfl, fun _ => rfl, fun _ hd => congrArg Proc.mode (update_of_ne hd ..)⟩

end Within

theorem ret_mode (s : Sys) (c : Nat) (r : Int) : ((s.ret c r).proc c).mode = .user := by
  unfold ret
  rw [setProc_self]

theorem ret_eax (s : Sys) (c : Nat) (r : Int) : ((s.ret c r).proc c).eax = r := by
  unfold ret
  rw [setProc_self]

theorem sleep_mode (s : Sys) (c : Nat) (chan : Chan) (mode : Mode) :
    ((s.sleep c chan mode).proc c).mode = mode := by
  unfold sleep
  rw [setProc_self]

/-- A call of an end that is over or asleep, and what it has left alone. -/
structure Calls (c : Nat) (w : Bool) (s t : Sys) : Prop where
  buffer : t.Buffer
  within : Within c s t
  mode : (t.proc c).mode = .user ∨ (t.proc c).mode.Uses w

theorem Calls.after (h : Within c s t) (h' : Calls c w t u) : Calls c w s u :=
  ⟨h'.buffer, h.trans h'.within, h'.mode⟩

theorem Calls.ret (h : s.Buffer) (c : Nat) (w : Bool) (r : Int) : Calls c w s (s.ret c r) :=
  ⟨h.setProc .., .setProc .., .inl (ret_mode ..)⟩

theorem Calls.sleep (h : s.Buffer) (chan : Chan) (hm : mode.Uses w) : Calls c w s (s.sleep c chan mode) :=
  ⟨h.setProc .., .setProc .., .inr ((sleep_mode ..).symm ▸ hm)⟩

theorem writeLoop_spec (h : s.Buffer) (c addr : Nat) (n : Int) (k i : Nat) :
    Calls c true s (writeLoop c addr n k i s) := by
  induction k generalizing i s with
  | zero => exact .after (.wakeup c _) (.ret (h.wakeup _) ..)
  | succ k ih =>
    rw [writeLoop]
    split
    · split
      · exact .ret h ..
      · exact .after (.wakeup c _) (.sleep (h.wakeup _) _ rfl)
    · rename_i hfull
      exact .after (.put c _) (ih (h.put hfull ..) _)

theorem readLoop_spec (h : s.Buffer) (c addr k i : Nat) : Calls c false s (readLoop c addr k i s) := by
  induction k generalizing i s with
  | zero => exact .after (.wakeup c _) (.ret (h.wakeup _) ..)
  | succ k ih =>
    rw [readLoop]
    split
    · exact .after (.wakeup c _) (.ret (h.wakeup _) ..)
    · rename_i hne
      exact .after (.take c _) (ih (h.take hne ..) _)

theorem readLoop_eax (s : Sys) (c addr k i : Nat) : (i : Int) ≤ ((readLoop c addr k i s).proc c).eax := by
  induction k generalizing i s with
  | zero => exact Int.le_of_eq (ret_eax ..).symm
  | succ k ih =>
    rw [readLoop]
    split
    · exact Int.le_of_eq (ret_eax ..).symm
    · exact Int.le_trans (by omega) (ih ..)

theorem piperead_spec (h : s.Buffer) (c addr : Nat) (n : Int) : Calls c false s (s.piperead c addr n) := by
  rw [piperead]
  split
  · split
    · exact .ret h ..
    · exact .sleep h _ rfl
  · exact readLoop_spec h ..

/-- `piperead` returns 0 at the end of the data. -/
theorem piperead_zero (hmode : ((s.piperead c addr n).proc c).mode = .user)
    (hzero : ((s.piperead c addr n).proc c).eax = 0) :
    n ≤ 0 ∨ (s.piperead c addr n).pipe.nread = (s.piperead c addr n).pipe.nwrite ∧
      (s.piperead c addr n).pipe.writeopen = false := by
  rw [piperead] at hmode hzero ⊢
  by_cases hwait : s.pipe.nread = s.pipe.nwrite ∧ s.pipe.writeopen
  · rw [if_pos hwait] at hmode hzero
    cases hk : (s.proc c).killed with
    | true =>
      rw [if_pos hk, ret_eax] at hzero
      exact absurd hzero (by decide)
    | false =>
      rw [if_neg (by rw [hk]; exact Bool.false_ne_true), sleep_mode] at hmode
      exact Mode.noConfusion hmode
  · rw [if_neg hwait] at hzero ⊢
    cases hn : n.toNat with
    | zero => exact .inl (Int.toNat_eq_zero.mp hn)
    | succ k =>
      rw [hn, readLoop] at hzero
      rw [readLoop]
      by_cases hempty : s.pipe.nread = s.pipe.nwrite
      · rw [if_pos hempty]
        exact .inr ⟨hempty, Bool.eq_false_iff.mpr fun hopen => hwait ⟨hempty, hopen⟩⟩
      · rw [if_neg hempty] at hzero
        have := readLoop_eax (s.take c (addr + 0)) c addr k (0 + 1)
        omega

/-! ### The files of the two ends -/

/-- A file has as many references as there are descriptors of it; its end is open while it has
some, or while its last one is being closed. -/
structure Wf (s : Sys) : Prop where
  buffer : s.Buffer
  ref : ∀ w, s.ref w = (s.fds w).length
  uses : ∀ c w, (s.proc c).mode.Uses w → c ∈ s.fds w
  closing : ∀ c w, (s.proc c).mode = .closing w → s.fds w = []
  alone : ∀ c d w, (s.proc c).mode = .closing w → (s.proc d).mode = .closing w → c = d
  isOpen : ∀ w, s.pipe.isOpen w = true ↔ s.fds w ≠ [] ∨ ∃ c, (s.proc c).mode = .closing w
  freed : s.freed = if s.pipe.isOpen true || s.pipe.isOpen false then 0 else 1
  panic : s.panic = false

theorem uses_eq {w' : Bool} (h : mode.Uses w) (h' : mode.Uses w') : w' = w := by
  cases mode with
  | user => exact h.elim
  | writing => exact h'.trans h.symm
  | reading => exact h'.trans h.symm
  | closing => exact h.elim

namespace Wf

theorem within (h : s.Wf) (hb : t.Buffer) (hw : Within c s t) (huses : ∀ w, (t.proc c).mode.Uses w → c ∈ s.fds w)
    (hclosing : ∀ w, (t.proc c).mode = .closing w ↔ (s.proc c).mode = .closing w) : t.Wf := by
  have hmode : ∀ d w, (t.proc d).mode = .closing w ↔ (s.proc d).mode = .closing w := by
    intro d w
    by_cases hd : d = c
    · rw [hd]
      exact hclosing w
    · rw [hw.mode d hd]
  constructor
  · exact hb
  · intro w
    rw [hw.ref, hw.fds]
    exact h.ref w
  · intro d w hd
    rw [hw.fds]
    by_cases hdc : d = c
    · rw [hdc] at hd ⊢
      exact huses w hd
    · rw [hw.mode d hdc] at hd
      exact h.uses d w hd
  · intro d w hd
    rw [hw.fds]
    exact h.closing d w ((hmode d w).mp hd)
  · intro d d' w hd hd'
    exact h.alone d d' w ((hmode d w).mp hd) ((hmode d' w).mp hd')
  · intro w
    rw [hw.isOpen, hw.fds, h.isOpen w]
    exact or_congr_right (exists_congr fun d => (hmode d w).symm)
  · rw [hw.freed, hw.isOpen, hw.isOpen]
    exact h.freed
  · exact hw.panic.trans h.panic

theorem calls (h : s.Wf) (hfd : c ∈ s.fds w) (hc : (s.proc c).mode = .user ∨ (s.proc c).mode.Uses w)
    (ht : Calls c w s t) : t.Wf := by
  apply h.within ht.buffer ht.within
  · intro w' hw'
    obtain hm | hm := ht.mode
    · rw [hm] at hw'
      exact hw'.elim
    · rw [uses_eq hm hw']
      exact hfd
  · intro w'
    apply iff_of_false
    · intro hw'
      have hm := ht.mode
      rw [hw'] at hm
      exact hm.elim Mode.noConfusion id
    · intro hw'
      rw [hw'] at hc
      exact hc.elim Mode.noConfusion id

/-- Nothing but the sleep of a process, its memory or its killing changes. -/
theorem idle (h : s.Wf) (hb : t.Buffer) (hw : Within c s t) (hm : (t.proc c).mode = (s.proc c).mode) : t.Wf :=
  h.within hb hw (fun w hu => h.uses c w (hm ▸ hu)) fun w => by rw [hm]

/-- The descriptors of an end that is held, and stays held, change. -/
theorem share (h : s.Wf) (hne : s.fds w ≠ []) {fds : List Nat} (hfds : fds ≠ [])
    (huses : ∀ e, (s.proc e).mode.Uses w → e ∈ fds) :
    ({ s with ref := update s.ref w fds.length, fds := update s.fds w fds } : Sys).Wf := by
  constructor
  · exact ⟨h.buffer.pending, h.buffer.nread, h.buffer.nwrite⟩
  · intro w'
    change update s.ref w fds.length w' = (update s.fds w fds w').length
    by_cases hw : w' = w
    · subst hw
      rw [update_self, update_self]
    · rw [update_of_ne hw, update_of_ne hw]
      exact h.ref w'
  · intro e w' he
    change e ∈ update s.fds w fds w'
    by_cases hw : w' = w
    · subst hw
      rw [update_self]
      exact huses e he
    · rw [update_of_ne hw]
      exact h.uses e w' he
  · intro e w' he
    have hnil := h.closing e w' he
    have hw : w' ≠ w := fun hw => hne (hw ▸ hnil)
    exact (update_of_ne hw ..).trans hnil
  · exact h.alone
  · intro w'
    change s.pipe.isOpen w' = true ↔ update s.fds w fds w' ≠ [] ∨ ∃ c, (s.proc c).mode = .closing w'
    by_cases hw : w' = w
    · subst hw
      rw [update_self]
      exact iff_of_true ((h.isOpen w').mpr (.inl hne)) (.inl hfds)
    · rw [update_of_ne hw]
      exact h.isOpen w'
  · exact h.freed
  · exact h.panic

theorem filedup (h : s.Wf) (hfd : c ∈ s.fds w) (d : Nat) : (s.filedup d w).Wf := by
  have hpos : 0 < (s.fds w).length := List.length_pos_of_mem hfd
  have href := h.ref w
  unfold Sys.filedup
  rw [if_neg (by omega), href]
  exact h.share (List.ne_nil_of_mem hfd) (List.cons_ne_nil d _)
    fun e he => List.mem_cons_of_mem _ (h.uses e w he)

/-- The last descriptor of an end goes; the end stays open until `pipeclose`. -/
theorem close (h : s.Wf) (hc : (s.proc c).mode = .user) (hfd : c ∈ s.fds w) (halone : ∀ e, e ≠ c → e ∉ s.fds w) :
    (({ s with ref := update s.ref w 0, fds := update s.fds w [] } : Sys).setProc c fun p =>
      { p with mode := .closing w }).Wf := by
  have hne : s.fds w ≠ [] := List.ne_nil_of_mem hfd
  set t := ({ s with ref := update s.ref w 0, fds := update s.fds w [] } : Sys).setProc c fun p =>
    { p with mode := .closing w } with ht
  have hmode : (t.proc c).mode = .closing w := by
    rw [ht, setProc_self]
  have hmode' : ∀ e, e ≠ c → (t.proc e).mode = (s.proc e).mode := by
    intro e he
    rw [ht, setProc_of_ne he]
  have hnil : t.fds w = [] := update_self ..
  have hsame : ∀ w', w' ≠ w → t.fds w' = s.fds w' := fun w' hw => update_of_ne hw ..
  have hclosing : ∀ e w', w' ≠ w → ((t.proc e).mode = .closing w' ↔ (s.proc e).mode = .closing w') := by
    intro e w' hw
    by_cases he : e = c
    · rw [he, hmode, hc]
      exact iff_of_false (fun heq => hw (Mode.closing.inj heq).symm) Mode.noConfusion
    · rw [hmode' e he]
  constructor
  · exact ⟨h.buffer.pending, h.buffer.nread, h.buffer.nwrite⟩
  · intro w'
    by_cases hw : w' = w
    · rw [hw, hnil]
      exact update_self ..
    · rw [hsame w' hw, ← h.ref w']
      exact update_of_ne hw ..
  · intro e w' he
    by_cases hec : e = c
    · rw [hec, hmode] at he
      exact he.elim
    · rw [hmode' e hec] at he
      have hmem := h.uses e w' he
      have hw : w' ≠ w := fun hw => halone e hec (hw ▸ hmem)
      rw [hsame w' hw]
      exact hmem
  · intro e w' he
    by_cases hw : w' = w
    · rw [hw]
      exact hnil
    · rw [hsame w' hw]
      exact h.closing e w' ((hclosing e w' hw).mp he)
  · intro e e' w' he he'
    by_cases hw : w' = w
    · -- before the step nobody was closing this end
      have honly : ∀ e, (t.proc e).mode = .closing w' → e = c := by
        intro e he
        by_contra hec
        rw [hmode' e hec, hw] at he
        exact hne (h.closing e w he)
      rw [honly e he, honly e' he']
    · exact h.alone e e' w' ((hclosing e w' hw).mp he) ((hclosing e' w' hw).mp he')
  · intro w'
    by_cases hw : w' = w
    · rw [hw]
      exact iff_of_true ((h.isOpen w).mpr (.inl hne)) (.inr ⟨c, hmode⟩)
    · rw [hsame w' hw]
      exact (h.isOpen w').trans (or_congr_right (exists_congr fun e => (hclosing e w' hw).symm))
  · exact h.freed
  · exact h.panic

theorem fileclose (h : s.Wf) (hc : (s.proc c).mode = .user) (hfd : c ∈ s.fds w) : (s.fileclose c w).Wf := by
  have hpos : 0 < (s.fds w).length := List.length_pos_of_mem hfd
  have hne : s.fds w ≠ [] := List.ne_nil_of_mem hfd
  have huser : ∀ e w', (s.proc e).mode.Uses w' → e ≠ c := by
    intro e w' he hec
    rw [hec, hc] at he
    exact he
  have hunref : s.unref c w = { s with
      ref := update s.ref w ((s.fds w).erase c).length
      fds := update s.fds w ((s.fds w).erase c) } := by
    unfold unref
    rw [h.ref w, List.length_erase_of_mem hfd]
  unfold Sys.fileclose
  rw [if_neg (by rw [h.ref w]; omega), hunref]
  have href : ∀ k, update s.ref w k w = k := fun k => update_self ..
  by_cases hmore : 0 < ((s.fds w).erase c).length
  · rw [if_pos (Nat.lt_of_lt_of_eq hmore (href _).symm)]
    exact h.share hne (List.ne_nil_of_length_pos hmore)
      fun e he => (List.mem_erase_of_ne (huser e w he)).mpr (h.uses e w he)
  · -- the last descriptor: the end stays open until `pipeclose`
    have hnil : (s.fds w).erase c = [] := List.length_eq_zero_iff.mp (Nat.eq_zero_of_not_pos hmore)
    have halone : ∀ e, e ≠ c → e ∉ s.fds w := by
      intro e he hmem
      have := (List.mem_erase_of_ne he).mpr hmem
      rw [hnil] at this
      exact absurd this List.not_mem_nil
    rw [if_neg fun hlt => hmore (Nat.lt_of_lt_of_eq hlt (href _)), hnil]
    exact h.close hc hfd halone

theorem pipeclose (h : s.Wf) (hc : (s.proc c).mode = .closing w) : (s.pipeclose c w).Wf := by
  have hopen : s.pipe.isOpen w = true := (h.isOpen w).mpr (.inr ⟨c, hc⟩)
  have hshut : (s.pipeclose c w).pipe.isOpen w = false := by cases w <;> rfl
  have hother : ∀ w', w' ≠ w → (s.pipeclose c w).pipe.isOpen w' = s.pipe.isOpen w' := by
    intro w' hw
    cases w' <;> cases w <;> first | exact absurd rfl hw | rfl
  have hmode : ((s.pipeclose c w).proc c).mode = .user := by
    unfold Sys.pipeclose
    dsimp only
    rw [setProc_self]
  have hmode' : ∀ e, e ≠ c → ((s.pipeclose c w).proc e).mode = (s.proc e).mode := by
    intro e he
    unfold Sys.pipeclose
    dsimp only
    rw [setProc_of_ne he]
    rfl
  have hclosing : ∀ e w', ((s.pipeclose c w).proc e).mode = .closing w' → e ≠ c ∧ w' ≠ w := by
    intro e w' he
    have hec : e ≠ c := by
      rintro rfl
      rw [hmode] at he
      exact Mode.noConfusion he
    refine ⟨hec, fun hw => hec ?_⟩
    rw [hmode' e hec, hw] at he
    exact h.alone e c w he hc
  constructor
  · obtain ⟨hp, hr, hw⟩ := h.buffer
    cases w <;> exact ⟨hp, hr, hw⟩
  · exact h.ref
  · intro e w' he
    by_cases hec : e = c
    · rw [hec, hmode] at he
      exact he.elim
    · rw [hmode' e hec] at he
      exact h.uses e w' he
  · intro e w' he
    have hec := (hclosing e w' he).1
    rw [hmode' e hec] at he
    exact h.closing e w' he
  · intro e e' w' he he'
    rw [hmode' e (hclosing e w' he).1] at he
    rw [hmode' e' (hclosing e' w' he').1] at he'
    exact h.alone e e' w' he he'
  · intro w'
    by_cases hw : w' = w
    · rw [hw, hshut]
      apply iff_of_false Bool.false_ne_true
      rintro (hne | ⟨e, he⟩)
      · exact hne (h.closing c w hc)
      · exact (hclosing e w he).2 rfl
    · rw [hother w' hw]
      refine (h.isOpen w').trans (or_congr_right (exists_congr fun e => ?_))
      by_cases hec : e = c
      · rw [hec, hmode, hc]
        exact iff_of_false (fun heq => hw (Mode.closing.inj heq).symm) Mode.noConfusion
      · rw [hmode' e hec]
  · have hzero : s.freed = 0 := by
      rw [h.freed]
      cases w <;> simp [hopen]
    unfold Sys.pipeclose
    change (if (setOpen s.pipe w).writeopen || (setOpen s.pipe w).readopen then s.freed else s.freed + 1) = _
    rw [hzero]
    rfl
  · exact h.panic

end Wf

theorem wf_opened (data : Nat → UInt8) (mem : Nat → Nat → UInt8) (c : Nat) : (opened data mem c).Wf where
  buffer := ⟨⟨[], rfl, .nil⟩, rfl, rfl⟩
  ref _ := rfl
  uses _ _ h := h.elim
  closing _ _ h := Mode.noConfusion h
  alone _ _ _ h := Mode.noConfusion h
  isOpen w := by
    cases w <;> exact iff_of_true rfl (.inl (List.cons_ne_nil c []))
  freed := rfl
  panic := rfl

theorem Wf.step (h : s.Wf) (ht : s.step e = some t) : t.Wf := by
  cases e with
  | write c addr n =>
    obtain ⟨⟨hc, hfd⟩, ht⟩ := Option.ite_none_right_eq_some.mp ht
    rw [← Option.some.inj ht]
    exact h.calls hfd (.inl hc) (writeLoop_spec h.buffer ..)
  | read c addr n =>
    obtain ⟨⟨hc, hfd⟩, ht⟩ := Option.ite_none_right_eq_some.mp ht
    rw [← Option.some.inj ht]
    exact h.calls hfd (.inl hc) (piperead_spec h.buffer ..)
  | resume c =>
    obtain ⟨-, ht⟩ := Option.ite_none_left_eq_some.mp ht
    cases hm : (s.proc c).mode with
    | user =>
      rw [hm] at ht
      cases ht
    | writing addr n i =>
      rw [hm] at ht
      rw [← Option.some.inj ht]
      have huses : (s.proc c).mode.Uses true := hm ▸ rfl
      exact h.calls (h.uses c true huses) (.inr huses) (writeLoop_spec h.buffer ..)
    | reading addr n =>
      rw [hm] at ht
      rw [← Option.some.inj ht]
      have huses : (s.proc c).mode.Uses false := hm ▸ rfl
      exact h.calls (h.uses c false huses) (.inr huses) (piperead_spec h.buffer ..)
    | closing w =>
      rw [hm] at ht
      rw [← Option.some.inj ht]
      exact h.pipeclose hm
  | kill c =>
    rw [← Option.some.inj ht]
    exact h.idle (h.buffer.setProc ..) (.setProc c _) (by rw [setProc_self])
  | dup c d w =>
    obtain ⟨⟨-, hfd⟩, ht⟩ := Option.ite_none_right_eq_some.mp ht
    rw [← Option.some.inj ht]
    exact h.filedup hfd d
  | close c w =>
    obtain ⟨⟨hc, hfd⟩, ht⟩ := Option.ite_none_right_eq_some.mp ht
    rw [← Option.some.inj ht]
    exact h.fileclose hc hfd
  | store c addr b =>
    obtain ⟨hc, ht⟩ := Option.ite_none_right_eq_some.mp ht
    rw [← Option.some.inj ht]
    exact h.idle (h.buffer.setProc ..) (.setProc c _) (by rw [setProc_self])

/-! ### Runs -/

/-- The writers' end is closed and everything is read. -/
def Drained (s : Sys) : Prop := s.pipe.nread = s.pipe.nwrite ∧ s.pipe.writeopen = false ∧ s.fds true = []

/-- The process and the length of the `piperead` that goes on in the event. -/
def reads (s : Sys) : Event → Option (Nat × Int)
  | .read c _ n => some (c, n)
  | .resume c => match (s.proc c).mode with
    | .reading _ n => some (c, n)
    | _ => none
  | _ => none

/-- A `piperead` that returns 0 has met the end of the data. -/
def EndOfData (s : Sys) (e : Event) (t : Sys) : Prop :=
  ∀ c n, s.reads e = some (c, n) → (t.proc c).mode = .user → (t.proc c).eax = 0 → n ≤ 0 ∨ t.Drained

structure Lossless (s : Sys) : Prop where
  fifo : s.delivered <+: s.accepted
  level : (s.pipe.nwrite - s.pipe.nread).toNat ≤ pipesize
  freed_le : s.freed ≤ 1
  freed_iff : s.freed = 1 ↔ ∀ w, s.fds w = [] ∧ ∀ c, (s.proc c).mode ≠ .closing w
  unused : s.freed = 1 → ∀ c, (s.proc c).mode = .user
  panic : s.panic = false

theorem Wf.shut_iff (h : s.Wf) : s.pipe.isOpen w = false ↔ s.fds w = [] ∧ ∀ c, (s.proc c).mode ≠ .closing w := by
  rw [← Bool.not_eq_true, h.isOpen w, not_or, not_not, not_exists]

theorem Wf.freed_iff (h : s.Wf) : s.freed = 1 ↔ ∀ w, s.fds w = [] ∧ ∀ c, (s.proc c).mode ≠ .closing w := by
  rw [h.freed, Bool.forall_bool, ← h.shut_iff, ← h.shut_iff]
  cases s.pipe.isOpen true <;> cases s.pipe.isOpen false <;> decide

theorem Wf.lossless (h : s.Wf) : s.Lossless where
  fifo := by
    obtain ⟨xs, hxs, -⟩ := h.buffer.pending
    exact ⟨xs, hxs.symm⟩
  level := by
    obtain ⟨hle, hlevel⟩ := h.buffer.level
    rw [h.buffer.nwrite, h.buffer.nread, Ring.sub_ofNat hle (Nat.lt_of_le_of_lt hlevel (by decide))]
    exact hlevel
  freed_le := by
    rw [h.freed]
    split <;> decide
  freed_iff := h.freed_iff
  unused hfreed c := by
    have hall := h.freed_iff.mp hfreed
    cases hm : (s.proc c).mode with
    | user => rfl
    | writing =>
      have := h.uses c true (hm ▸ rfl)
      rw [(hall true).1] at this
      exact absurd this List.not_mem_nil
    | reading =>
      have := h.uses c false (hm ▸ rfl)
      rw [(hall false).1] at this
      exact absurd this List.not_mem_nil
    | closing w => exact absurd hm ((hall w).2 c)
  panic := h.panic

theorem Wf.endOfData (h : s.Wf) (ht : s.step e = some t) : s.EndOfData e t := by
  intro c n hreads hmode hzero
  have hread : ∃ addr, t = s.piperead c addr n := by
    cases e with
    | read d addr m =>
      obtain ⟨rfl, rfl⟩ := Prod.mk.inj (Option.some.inj hreads)
      exact ⟨addr, (Option.some.inj (Option.ite_none_right_eq_some.mp ht).2).symm⟩
    | resume d =>
      obtain ⟨-, ht⟩ := Option.ite_none_left_eq_some.mp ht
      unfold reads at hreads
      cases hm : (s.proc d).mode with
      | reading addr m =>
        simp only [hm] at hreads ht
        obtain ⟨rfl, rfl⟩ := Prod.mk.inj (Option.some.inj hreads)
        exact ⟨addr, (Option.some.inj ht).symm⟩
      | _ =>
        simp only [hm] at hreads
        cases hreads
    | _ => cases hreads
  obtain ⟨addr, rfl⟩ := hread
  refine (piperead_zero hmode hzero).imp_right fun hend => ⟨hend.1, hend.2, ?_⟩
  have hshut : (s.piperead c addr n).pipe.isOpen true = false := hend.2
  exact ((h.step ht).shut_iff.mp hshut).1

/-- Whatever readers and writers do, and however often the counters wrap. -/
theorem pipe_lossless {data : Nat → UInt8} {mem : Nat → Nat → UInt8} {es : List Event}
    (h : Run.exec step (opened data mem c) es = some s) :
    s.Lossless ∧ ∀ e t, s.step e = some t → s.EndOfData e t := by
  have hw : s.Wf := Run.invariant (fun _ _ _ hw ht => Wf.step hw ht) (wf_opened data mem c) h
  exact ⟨hw.lossless, fun e t ht => hw.endOfData ht⟩

/-- A child gets three bytes, closes nothing and reads on; the writer writes no more and closes. -/
theorem pipe_lossless_child : ∃ s, Run.exec step (opened (fun _ => 0) (fun _ a => UInt8.ofNat a) 0)
    [.dup 0 1 false, .read 1 0 5, .write 0 65 3, .resume 1, .close 0 true, .resume 0, .read 1 0 5] = some s ∧
    s.delivered = [65, 66, 67] ∧ (s.proc 1).eax = 0 ∧ s.Lossless := by
  have hrun : (Run.exec step (opened (fun _ => 0) (fun _ a => UInt8.ofNat a) 0)
      [.dup 0 1 false, .read 1 0 5, .write 0 65 3, .resume 1, .close 0 true, .resume 0, .read 1 0 5]).map
      (fun s => (s.delivered, (s.proc 1).eax)) = some ([65, 66, 67], 0) := by
    decide
  obtain ⟨s, hs, hval⟩ := Option.map_eq_some_iff.mp hrun
  obtain ⟨hdel, heax⟩ := Prod.mk.inj hval
  exact ⟨s, hs, hdel, heax, (pipe_lossless hs).1⟩

end Sys

end Xv6.Pipes
