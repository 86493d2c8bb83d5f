import AdvancedXv6.Lib.Ring
import AdvancedXv6.Console.State

/-! The console hands its input out in order, and edits only the line that is not yet committed. -/

namespace Xv6.Console
open Function

namespace Input
variable {i : Input} {done pending editing : List UInt8} {b x : UInt8} {k : Nat}

/-- The ring behind the indexes: what has been read, what is committed and what is edited. -/
structure Holds (i : Input) (done pending editing : List UInt8) : Prop where
  ring : Ring.Holds inputBuf i.buf done.length (pending ++ editing)
  r : i.r = BitVec.ofNat 32 done.length
  w : i.w = BitVec.ofNat 32 (done.length + pending.length)
  e : i.e = BitVec.ofNat 32 (done.length + pending.length + editing.length)

namespace Holds

theorem fits (h : i.Holds done pending editing) : pending.length + editing.length ≤ inputBuf := by
  rw [← List.length_append]
  exact h.ring.fits

theorem lt_word (h : k ≤ inputBuf) : k < 2 ^ 32 := Nat.lt_of_le_of_lt h (by decide)

theorem cell (b a : Nat) : (BitVec.ofNat 32 a + BitVec.ofNat 32 b).toNat % inputBuf = (a + b) % inputBuf := by
  rw [← BitVec.ofNat_add]
  exact Ring.cell_ofNat (by decide) _

theorem unread_length (h : i.Holds done pending editing) : (i.w - i.r).toNat = pending.length := by
  have hfits := h.fits
  rw [h.w, h.r, Ring.sub_ofNat (by omega) (by rw [Nat.add_sub_cancel_left]; exact lt_word (by omega))]
  exact Nat.add_sub_cancel_left ..

theorem line_length (h : i.Holds done pending editing) : (i.e - i.w).toNat = editing.length := by
  have hfits := h.fits
  rw [h.e, h.w, Ring.sub_ofNat (by omega) (by rw [Nat.add_sub_cancel_left]; exact lt_word (by omega))]
  exact Nat.add_sub_cancel_left ..

theorem length (h : i.Holds done pending editing) : (i.e - i.r).toNat = pending.length + editing.length := by
  have hfits := h.fits
  rw [h.e, h.r, Nat.add_assoc,
    Ring.sub_ofNat (by omega) (by rw [Nat.add_sub_cancel_left]; exact lt_word (by omega))]
  exact Nat.add_sub_cancel_left ..

theorem unread (h : i.Holds done pending editing) : i.unread = pending := by
  unfold Input.unread
  rw [h.unread_length, h.r]
  simp only [cell]
  exact h.ring.of_append.read

theorem line (h : i.Holds done pending editing) : i.line = editing := by
  unfold Input.line
  rw [h.line_length, h.w]
  simp only [cell]
  exact h.ring.drop.read

theorem edited_iff (h : i.Holds done pending editing) : i.e ≠ i.w ↔ editing ≠ [] := by
  have hlen := h.line_length
  constructor
  · rintro hne rfl
    refine hne (h.e.trans (Eq.trans ?_ h.w.symm))
    rw [List.length_nil, Nat.add_zero]
  · intro hne heq
    rw [heq, BitVec.sub_self] at hlen
    exact hne (List.length_eq_zero_iff.mp hlen.symm)

/-- An edit takes the last character of the line away. -/
theorem erase (h : i.Holds done pending editing) (hne : i.e ≠ i.w) :
    ({ i with e := i.e - 1 } : Input).Holds done pending editing.dropLast := by
  have hedit := h.edited_iff.mp hne
  have hlast : pending ++ editing = pending ++ editing.dropLast ++ [editing.getLast hedit] := by
    rw [List.append_assoc, List.dropLast_append_getLast]
  have hlen : editing.length = editing.dropLast.length + 1 := by
    have := List.length_pos_of_ne_nil hedit
    rw [List.length_dropLast]
    omega
  refine ⟨(hlast ▸ h.ring).of_append, h.r, h.w, ?_⟩
  change i.e - 1 = _
  rw [h.e, hlen, ← Nat.add_assoc, ← Ring.ofNat_succ, BitVec.add_sub_cancel]

theorem killLoop (h : i.Holds done pending editing) (k : Nat) :
    ∃ rest, (Input.killLoop k i).Holds done pending rest := by
  induction k generalizing i editing with
  | zero => exact ⟨editing, h⟩
  | succ k ih =>
    rw [Input.killLoop]
    split
    · rename_i hcond
      exact ih (h.erase hcond.1)
    · exact ⟨editing, h⟩

theorem backspace (h : i.Holds done pending editing) : ∃ rest, i.backspace.Holds done pending rest := by
  unfold Input.backspace
  split
  · rename_i hne
    exact ⟨_, h.erase hne⟩
  · exact ⟨editing, h⟩

theorem store (h : i.Holds done pending editing) (hroom : i.e - i.r < BitVec.ofNat 32 inputBuf) (b : UInt8) :
    (i.store b).Holds done pending (editing ++ [b]) := by
  have hlt : (pending ++ editing).length < inputBuf := by
    rw [List.length_append, ← h.length]
    exact BitVec.lt_def.mp hroom
  have hcell : i.e.toNat % inputBuf = (done.length + (pending ++ editing).length) % inputBuf := by
    rw [h.e, List.length_append, ← Nat.add_assoc]
    exact Ring.cell_ofNat (by decide) _
  refine ⟨?_, h.r, h.w, ?_⟩
  · rw [← List.append_assoc]
    unfold Input.store
    rw [hcell]
    exact h.ring.push hlt b
  · change i.e + 1 = _
    rw [h.e, Ring.ofNat_succ, List.length_append, List.length_singleton, ← Nat.add_assoc]

theorem commit (h : i.Holds done pending editing) :
    ({ i with w := i.e } : Input).Holds done (pending ++ editing) [] := by
  have hlen : done.length + (pending ++ editing).length = done.length + pending.length + editing.length := by
    rw [List.length_append, Nat.add_assoc]
  refine ⟨?_, h.r, h.e.trans ?_, h.e.trans ?_⟩
  · rw [List.append_nil]
    exact h.ring
  · rw [hlen]
  · rw [hlen, List.length_nil, Nat.add_zero]

theorem unread_iff (h : i.Holds done pending editing) : i.r ≠ i.w ↔ pending ≠ [] := by
  have hlen := h.unread_length
  constructor
  · rintro hne rfl
    refine hne (h.r.trans (Eq.trans ?_ h.w.symm))
    rw [List.length_nil, Nat.add_zero]
  · intro hne heq
    rw [heq, BitVec.sub_self] at hlen
    exact hne (List.length_eq_zero_iff.mp hlen.symm)

theorem head (h : i.Holds done (x :: pending) editing) : i.buf (i.r.toNat % inputBuf) = x := by
  have hcell : i.r.toNat % inputBuf = done.length % inputBuf := by
    rw [h.r]
    exact Ring.cell_ofNat (by decide) _
  rw [hcell]
  exact h.ring.head

theorem next (h : i.Holds done (x :: pending) editing) :
    ({ i with r := i.r + 1 } : Input).Holds (done ++ [x]) pending editing := by
  have hlen : (done ++ [x]).length = done.length + 1 := by rw [List.length_append, List.length_singleton]
  have hsum : done.length + (x :: pending).length = (done ++ [x]).length + pending.length := by
    rw [hlen, List.length_cons]
    omega
  refine ⟨?_, ?_, ?_, ?_⟩
  · rw [hlen]
    exact h.ring.pop
  · change i.r + 1 = _
    rw [h.r, hlen, Ring.ofNat_succ]
  · rw [← hsum]
    exact h.w
  · rw [← hsum]
    exact h.e

end Holds

/-- The loop of `C('U')` ends by its own test. -/
theorem killLoop_done (h : (i.e - i.w).toNat ≤ k) :
    ¬((killLoop k i).e ≠ (killLoop k i).w ∧ (killLoop k i).last ≠ newline) := by
  induction k generalizing i with
  | zero =>
    rintro ⟨hne, -⟩
    apply hne
    change i.e = i.w
    bv_omega
  | succ k ih =>
    rw [killLoop]
    split
    · rename_i hcond
      apply ih
      have hne := hcond.1
      change (i.e - 1 - i.w).toNat ≤ k
      bv_omega
    · rename_i hcond
      exact hcond

end Input

/-- The character that an item comes from. -/
def Item.char : Item → UInt8
  | .byte b => b
  | .eof => ctrl 'D'

def Item.byte? : Item → Option UInt8
  | .byte b => some b
  | .eof => none

/-- The buffer of a call holds what the call has copied. -/
def Proc.Copied (p : Proc) : Prop := ∀ k (h : k < p.got.length), p.mem (p.arg + k) = p.got[k]

/-- Where the loop of `consoleread` is. -/
def Proc.At (p : Proc) (dst n target : Nat) : Prop :=
  dst = p.arg + p.got.length ∧ p.got.length + n = target ∧ p.Copied

theorem Proc.Copied.push {p : Proc} (h : p.Copied) (b : UInt8) : (p.push (p.arg + p.got.length) b).Copied := by
  intro k hk
  change k < (p.got ++ [b]).length at hk
  change update p.mem (p.arg + p.got.length) b (p.arg + k) = (p.got ++ [b])[k]
  rw [List.length_append, List.length_singleton] at hk
  obtain hlt | rfl := Nat.lt_succ_iff_lt_or_eq.mp hk
  · rw [update_of_ne (by omega), h k hlt, List.getElem_append_left hlt]
  · rw [update_self, List.getElem_concat_length rfl]

namespace Sys
variable {s t u : Sys} {c dst n target : Nat} {e : Event} {xs ys : List Item} {pending editing : List UInt8}

/-- The characters that readers have taken. -/
def consumed (s : Sys) : List UInt8 := s.taken.map fun x => x.2.char

/-- What is committed has been taken, or waits in the ring. -/
structure Good (s : Sys) (pending editing : List UInt8) : Prop where
  split : s.committed = s.consumed ++ pending
  input : s.input.Holds s.consumed pending editing
  bytes : ∀ c b, (c, Item.byte b) ∈ s.taken → b ≠ ctrl 'D'

theorem Good.edited (h : s.Good pending editing) {i : Input} {rest : List UInt8}
    (hi : i.Holds s.consumed pending rest) : ({ s with input := i } : Sys).Good pending rest :=
  ⟨h.split, hi, h.bytes⟩

theorem Good.commit (h : s.Good pending editing) : s.commit.Good (pending ++ editing) [] := by
  refine ⟨?_, h.input.commit, h.bytes⟩
  change s.committed ++ s.input.line = s.consumed ++ (pending ++ editing)
  rw [h.input.line, h.split, List.append_assoc]

theorem Good.wakeup (h : s.Good pending editing) : s.wakeup.Good pending editing := ⟨h.split, h.input, h.bytes⟩

theorem Good.setProc (h : s.Good pending editing) (c : Nat) (f : Proc → Proc) :
    (s.setProc c f).Good pending editing := ⟨h.split, h.input, h.bytes⟩

/-- What the interrupt handler leaves alone: it only adds to what is committed. -/
structure Typed (s t : Sys) : Prop where
  good : ∃ pending editing, t.Good pending editing
  grows : s.committed <+: t.committed
  taken : t.taken = s.taken
  mode : ∀ c, (t.proc c).mode = (s.proc c).mode
  arg : ∀ c, (t.proc c).arg = (s.proc c).arg
  got : ∀ c, (t.proc c).got = (s.proc c).got
  mem : ∀ c, (t.proc c).mem = (s.proc c).mem

theorem Typed.edit (h : s.Good pending editing) {i : Input} (hi : ∃ rest, i.Holds s.consumed pending rest) :
    Typed s { s with input := i } := by
  obtain ⟨rest, hrest⟩ := hi
  exact ⟨⟨pending, rest, h.edited hrest⟩, List.prefix_rfl, rfl, fun _ => rfl, fun _ => rfl, fun _ => rfl, fun _ => rfl⟩

theorem Typed.trans (h : Typed s t) (h' : Typed t u) : Typed s u where
  good := h'.good
  grows := h.grows.trans h'.grows
  taken := h'.taken.trans h.taken
  mode c := (h'.mode c).trans (h.mode c)
  arg c := (h'.arg c).trans (h.arg c)
  got c := (h'.got c).trans (h.got c)
  mem c := (h'.mem c).trans (h.mem c)

theorem type_typed (h : s.Good pending editing) (b : UInt8) : Typed s (s.type b) := by
  unfold type
  dsimp only
  generalize (if b = carriageReturn then newline else b) = x
  split
  · rename_i hroom
    have hstore := h.edited (h.input.store hroom.2 x)
    split
    · refine ⟨⟨_, _, hstore.commit.wakeup⟩, ?_, rfl, fun _ => rfl, fun _ => rfl, fun _ => rfl, fun _ => rfl⟩
      exact List.prefix_append ..
    · exact ⟨⟨_, _, hstore⟩, List.prefix_rfl, rfl, fun _ => rfl, fun _ => rfl, fun _ => rfl, fun _ => rfl⟩
  · exact .edit h ⟨editing, h.input⟩

theorem key_typed (h : s.Good pending editing) (b : UInt8) : Typed s (s.key b) := by
  unfold key
  split
  · exact .edit h ⟨editing, h.input⟩
  · split
    · exact .edit h (h.input.killLoop _)
    · split
      · exact .edit h h.input.backspace
      · exact type_typed h b

theorem keys_typed (h : s.Good pending editing) (cs : List UInt8) : Typed s (cs.foldl key s) := by
  induction cs generalizing s pending editing with
  | nil => exact .edit h ⟨editing, h.input⟩
  | cons b cs ih =>
    have hkey := key_typed h b
    obtain ⟨pending', editing', hgood⟩ := hkey.good
    exact hkey.trans (ih hgood)

theorem consoleintr_typed (h : s.Good pending editing) (cs : List UInt8) : Typed s (s.consoleintr cs) := by
  have hkeys := keys_typed h cs
  obtain ⟨p, e, hgood⟩ := hkeys.good
  exact ⟨⟨p, e, hgood.split, hgood.input, hgood.bytes⟩, hkeys.grows, hkeys.taken, hkeys.mode, hkeys.arg,
    hkeys.got, hkeys.mem⟩

/-! ### Readers -/

/-- A part of `consoleread` takes `xs` for `c`. -/
structure Takes (c : Nat) (s t : Sys) (xs : List Item) : Prop where
  good : ∃ pending editing, t.Good pending editing
  committed : t.committed = s.committed
  taken : t.taken = s.taken ++ xs.map (Prod.mk c)
  got : (t.proc c).got = (s.proc c).got ++ xs.filterMap Item.byte?
  copied : (t.proc c).Copied
  others : ∀ d, d ≠ c → t.proc d = s.proc d

namespace Takes

theorem trans (h : Takes c s t xs) (h' : Takes c t u ys) : Takes c s u (xs ++ ys) where
  good := h'.good
  committed := h'.committed.trans h.committed
  taken := by rw [h'.taken, h.taken, List.append_assoc, List.map_append]
  got := by rw [h'.got, h.got, List.append_assoc, List.filterMap_append]
  copied := h'.copied
  others d hd := (h'.others d hd).trans (h.others d hd)

/-- Nothing is taken. -/
theorem setProc (h : s.Good pending editing) {f : Proc → Proc} (hgot : (f (s.proc c)).got = (s.proc c).got)
    (hcopied : (f (s.proc c)).Copied) : Takes c s (s.setProc c f) [] where
  good := ⟨_, _, h.setProc c f⟩
  committed := rfl
  taken := (List.append_nil _).symm
  got := by
    rw [setProc_self, hgot]
    exact (List.append_nil _).symm
  copied := by
    rw [setProc_self]
    exact hcopied
  others d hd := setProc_of_ne hd ..

theorem refl (h : s.Good pending editing) (hcopied : (s.proc c).Copied) : Takes c s s [] :=
  ⟨⟨_, _, h⟩, rfl, (List.append_nil _).symm, (List.append_nil _).symm, hcopied, fun _ _ => rfl⟩

theorem ret (h : s.Good pending editing) (hcopied : (s.proc c).Copied) (r : Int) : Takes c s (s.ret c r) [] :=
  setProc h rfl hcopied

end Takes

theorem Good.take (h : s.Good (x :: pending) editing) (i : Item) (hi : i.char = x)
    (hbyte : ∀ b, i = .byte b → b ≠ ctrl 'D') (hinput : t.input = { s.input with r := s.input.r + 1 })
    (hcommitted : t.committed = s.committed) (htaken : t.taken = s.taken ++ [(c, i)]) : t.Good pending editing := by
  have hconsumed : t.consumed = s.consumed ++ [x] := by
    unfold consumed
    rw [htaken, List.map_append, ← hi]
    rfl
  refine ⟨?_, ?_, fun d b hb => ?_⟩
  · rw [hcommitted, h.split, hconsumed, List.append_assoc]
    rfl
  · rw [hinput, hconsumed]
    exact h.input.next
  · rw [htaken] at hb
    obtain hold | hnew := List.mem_append.mp hb
    · exact h.bytes d b hold
    · exact hbyte b (Prod.mk.inj (List.mem_singleton.mp hnew)).2.symm

theorem takes_copy (h : s.Good (x :: pending) editing) (hx : x ≠ ctrl 'D') (hat : (s.proc c).At dst n target) :
    (s.next.copy c dst x).Good pending editing ∧ Takes c s (s.next.copy c dst x) [.byte x] := by
  have hgood : (s.next.copy c dst x).Good pending editing :=
    h.take (.byte x) rfl (fun b hb => Item.byte.inj hb ▸ hx) rfl rfl rfl
  have hproc : (s.next.copy c dst x).proc c = (s.proc c).push dst x := setProc_self s.next c (·.push dst x)
  refine ⟨hgood, ⟨_, _, hgood⟩, rfl, rfl, ?_, ?_, fun d hd => setProc_of_ne hd s.next (·.push dst x)⟩
  · rw [hproc]
    rfl
  · rw [hproc, hat.1]
    exact hat.2.2.push x

theorem takes_mark (h : s.Good (ctrl 'D' :: pending) editing) (hcopied : (s.proc c).Copied) :
    (s.next.mark c).Good pending editing ∧ Takes c s (s.next.mark c) [.eof] := by
  have hgood : (s.next.mark c).Good pending editing := h.take .eof rfl (fun _ hb => Item.noConfusion hb) rfl rfl rfl
  exact ⟨hgood, ⟨_, _, hgood⟩, rfl, rfl, (List.append_nil _).symm, hcopied, fun _ _ => rfl⟩

theorem back_next (s : Sys) : s.next.back = s := by
  unfold next back
  dsimp only
  rw [BitVec.add_sub_cancel]

/-- What the loop of `consoleread` ends with: the call has returned what it has copied, or -1
because its process was killed, or it sleeps. -/
structure Reads (c target : Nat) (s t : Sys) (xs : List Item) : Prop extends Takes c s t xs where
  at_ : ∀ dst n target', (t.proc c).mode = .reading dst n target' →
    target' = target ∧ 0 < target ∧ (t.proc c).At dst n target
  returned : (t.proc c).mode = .user → (t.proc c).eax = -1 ∨ (t.proc c).eax = (t.proc c).got.length
  eof : 0 < target → (.eof ∈ xs ↔ (t.proc c).mode = .user ∧ (t.proc c).eax = 0)
  once : .eof ∈ xs → (s.proc c).got = [] ∧ xs = [.eof]

theorem ret_mode (s : Sys) (c : Nat) (r : Int) : ((s.ret c r).proc c).mode = .user := by
  unfold ret
  rw [setProc_self]

theorem ret_eax (s : Sys) (c : Nat) (r : Int) : ((s.ret c r).proc c).eax = r := by
  unfold ret
  rw [setProc_self]

/-- The call returns after it has taken `xs`. -/
theorem Reads.of_ret {r : Int} (h : Takes c s t xs) (hr : r = -1 ∨ r = (t.proc c).got.length)
    (heof : 0 < target → (.eof ∈ xs ↔ r = 0)) (honce : .eof ∈ xs → (s.proc c).got = [] ∧ xs = [.eof]) :
    Reads c target s (t.ret c r) xs := by
  obtain ⟨p, e, hgood⟩ := h.good
  have hret := h.trans (.ret hgood h.copied r)
  rw [List.append_nil] at hret
  refine ⟨hret, fun dst n target' hm => ?_, fun _ => ?_, fun hpos => ?_, honce⟩
  · rw [ret_mode] at hm
    exact Mode.noConfusion hm
  · rw [ret_eax, hret.got, ← h.got]
    exact hr
  · rw [heof hpos, ret_mode, ret_eax]
    exact (and_iff_right rfl).symm

/-- The loop goes on after it has copied a character. -/
theorem Reads.after {b : UInt8} (h : Takes c s t [.byte b]) (h' : Reads c target t u ys) :
    Reads c target s u (.byte b :: ys) := by
  have hgot : (t.proc c).got ≠ [] := by
    rw [h.got]
    exact List.append_ne_nil_of_right_ne_nil _ (List.cons_ne_nil b [])
  have hnot : .eof ∉ ys := fun hmem => hgot (h'.once hmem).1
  have hmem : .eof ∈ Item.byte b :: ys ↔ .eof ∈ ys := by
    rw [List.mem_cons, or_iff_right Item.noConfusion]
  exact ⟨h.trans h'.toTakes, h'.at_, h'.returned, fun hpos => hmem.trans (h'.eof hpos),
    fun heof => absurd (hmem.mp heof) hnot⟩

/-- The call waits where it is. -/
theorem Reads.wait (h : s.Good pending editing) (hat : (s.proc c).At dst n target) (hn : 0 < n) :
    Reads c target s (s.setProc c fun p => { p with asleep := true, mode := .reading dst n target }) [] := by
  refine ⟨.setProc h rfl hat.2.2, fun dst' n' target' hm => ?_, fun hm => ?_, fun _ => ?_, fun heof => ?_⟩
  · rw [setProc_self] at hm ⊢
    obtain ⟨rfl, rfl, rfl⟩ := Mode.reading.inj hm
    have := hat.2.1
    exact ⟨rfl, by omega, hat⟩
  · rw [setProc_self] at hm
    exact Mode.noConfusion hm
  · rw [setProc_self]
    exact iff_of_false List.not_mem_nil fun hm => Mode.noConfusion hm.1
  · exact absurd heof List.not_mem_nil

/-- The call returns without taking any more. -/
theorem Reads.stop {r : Int} (h : s.Good pending editing) (hcopied : (s.proc c).Copied)
    (hr : r = -1 ∨ r = (s.proc c).got.length) (hzero : 0 < target → r ≠ 0) : Reads c target s (s.ret c r) [] :=
  .of_ret (.refl h hcopied) hr (fun hpos => iff_of_false List.not_mem_nil (hzero hpos))
    fun heof => absurd heof List.not_mem_nil

theorem readLoop_spec (h : s.Good pending editing) (hat : (s.proc c).At dst n target) :
    ∃ xs, Reads c target s (readLoop c target n dst s) xs := by
  induction n generalizing s dst pending with
  | zero =>
    have hlen := hat.2.1
    exact ⟨[], .stop h hat.2.2 (.inr (by omega)) fun hpos => by omega⟩
  | succ n ih =>
    have hlen := hat.2.1
    rw [readLoop]
    by_cases hempty : s.input.r = s.input.w
    · rw [if_pos hempty]
      split
      · exact ⟨[], .stop h hat.2.2 (.inl rfl) fun _ => by decide⟩
      · exact ⟨[], .wait h hat (Nat.succ_pos n)⟩
    · rw [if_neg hempty]
      obtain ⟨x, rest, rfl⟩ := List.exists_cons_of_ne_nil (h.input.unread_iff.mp hempty)
      dsimp only
      rw [h.input.head]
      by_cases hx : x = ctrl 'D'
      · subst hx
        rw [if_pos rfl]
        by_cases hsome : n + 1 < target
        · rw [if_pos hsome, back_next]
          exact ⟨[], .stop h hat.2.2 (.inr (by omega)) fun _ => by omega⟩
        · -- the first character of the call: it returns 0
          rw [if_neg hsome]
          have hnil : (s.proc c).got = [] := List.length_eq_zero_iff.mp (by omega)
          refine ⟨[.eof], .of_ret (takes_mark h hat.2.2).2 (.inr ?_) (fun _ => ?_) fun _ => ⟨hnil, rfl⟩⟩
          · rw [(takes_mark h hat.2.2).2.got, hnil]
            change _ = ((0 : Nat) : Int)
            omega
          · exact iff_of_true List.mem_cons_self (by omega)
      · rw [if_neg hx]
        obtain ⟨hgood, hcopy⟩ := takes_copy h hx hat
        have hmore : ((s.next.copy c dst x).proc c).got.length = (s.proc c).got.length + 1 := by
          rw [hcopy.got, List.length_append]
          rfl
        split
        · have hnot : Item.eof ∉ [Item.byte x] := by simp
          refine ⟨[.byte x], .of_ret hcopy (.inr ?_) (fun _ => iff_of_false hnot ?_) fun heof => absurd heof hnot⟩
          · rw [hmore]
            omega
          · omega
        · have hproc : (s.next.copy c dst x).proc c = (s.proc c).push dst x := setProc_self s.next c (·.push dst x)
          have hat' : ((s.next.copy c dst x).proc c).At (dst + 1) n target := by
            refine ⟨?_, ?_, hcopy.copied⟩
            · rw [hmore, hproc, hat.1]
              exact Nat.add_assoc ..
            · rw [hmore]
              omega
          obtain ⟨ys, hys⟩ := ih hgood hat'
          exact ⟨.byte x :: ys, Reads.after hcopy hys⟩

/-! ### Runs -/

/-- The input and the calls that are under way. -/
structure Wf (s : Sys) : Prop where
  good : ∃ pending editing, s.Good pending editing
  at_ : ∀ c dst n target, (s.proc c).mode = .reading dst n target → (s.proc c).At dst n target

/-- The process and the length of the `consoleread` that goes on in the event. -/
def reads (s : Sys) : Event → Option (Nat × Nat)
  | .read c _ n => some (c, n)
  | .resume c => match (s.proc c).mode with
    | .reading _ _ target => some (c, target)
    | .user => none
  | _ => none

/-- What the call that goes on in the event has copied before it. -/
def copied (s : Sys) (c : Nat) : Event → List UInt8
  | .read .. => []
  | _ => (s.proc c).got

/-- What a step of a `consoleread` of length `target` does: it takes the next characters, and
returns 0 at a mark, and only there, or else as many bytes as it has copied, or -1. -/
structure Round (s : Sys) (e : Event) (c target : Nat) (t : Sys) (xs : List Item) : Prop where
  committed : t.committed = s.committed
  taken : t.taken = s.taken ++ xs.map (Prod.mk c)
  got : (t.proc c).got = s.copied c e ++ xs.filterMap Item.byte?
  copied : (t.proc c).Copied
  returned : (t.proc c).mode = .user → (t.proc c).eax = -1 ∨ (t.proc c).eax = (t.proc c).got.length
  eof : 0 < target → (.eof ∈ xs ↔ (t.proc c).mode = .user ∧ (t.proc c).eax = 0)
  once : .eof ∈ xs → xs = [.eof]

/-- Nothing but a reader takes characters, and what is committed stays. -/
structure Delivers (s : Sys) (e : Event) (t : Sys) : Prop where
  grows : s.committed <+: t.committed
  idle : s.reads e = none → t.taken = s.taken
  round : ∀ c target, s.reads e = some (c, target) → ∃ xs, Round s e c target t xs

structure InOrder (s : Sys) : Prop where
  committed_le : (s.input.w - s.input.r).toNat ≤ (s.input.e - s.input.r).toNat
  level : (s.input.e - s.input.r).toNat ≤ inputBuf
  order : s.committed = s.consumed ++ s.input.unread
  bytes : ∀ c b, (c, Item.byte b) ∈ s.taken → b ≠ ctrl 'D'

theorem Wf.inOrder (h : s.Wf) : s.InOrder := by
  obtain ⟨pending, editing, hgood⟩ := h.good
  constructor
  · rw [hgood.input.unread_length, hgood.input.length]
    exact Nat.le_add_right ..
  · rw [hgood.input.length]
    exact hgood.input.fits
  · rw [hgood.input.unread]
    exact hgood.split
  · exact hgood.bytes

/-- Where a step leaves every process at its place, and takes nothing. -/
theorem Wf.quiet (h : s.Wf) (ht : Typed s t) : t.Wf := by
  refine ⟨ht.good, fun c dst n target hm => ?_⟩
  rw [ht.mode] at hm
  have hat := h.at_ c dst n target hm
  unfold Proc.At Proc.Copied at hat ⊢
  simp only [ht.arg, ht.got, ht.mem]
  exact hat

theorem Delivers.quiet (ht : Typed s t) (hr : s.reads e = none) : s.Delivers e t :=
  ⟨ht.grows, fun _ => ht.taken, fun c target hsome => by rw [hr] at hsome; cases hsome⟩

/-- A round of a reader, from the state `u` in which its loop starts. -/
theorem Wf.read (h : s.Wf) (hu : Takes c s u [] ∨ ∃ dst, u = s.setProc c fun p => { p with arg := dst, got := [] })
    (hgot : (u.proc c).got = s.copied c e) (ht : Reads c target u t xs) (hr : s.reads e = some (c, target)) :
    t.Wf ∧ s.Delivers e t := by
  have hsame : u.committed = s.committed ∧ u.taken = s.taken ∧ ∀ d, d ≠ c → u.proc d = s.proc d := by
    obtain hu | ⟨dst, rfl⟩ := hu
    · exact ⟨hu.committed, hu.taken.trans (List.append_nil _), hu.others⟩
    · exact ⟨rfl, rfl, fun d hd => setProc_of_ne hd ..⟩
  obtain ⟨hcommitted, htaken, hothers⟩ := hsame
  constructor
  · refine ⟨ht.good, fun d dst n target hm => ?_⟩
    by_cases hd : d = c
    · subst hd
      obtain ⟨rfl, -, hat⟩ := ht.at_ dst n target hm
      exact hat
    · rw [ht.others d hd, hothers d hd] at hm ⊢
      exact h.at_ d dst n target hm
  · constructor
    · rw [ht.committed, hcommitted]
    · intro hnone
      rw [hr] at hnone
      cases hnone
    · intro d target' hsome
      rw [hr] at hsome
      obtain ⟨rfl, rfl⟩ := Prod.mk.inj (Option.some.inj hsome)
      refine ⟨xs, ht.committed.trans hcommitted, ?_, ?_, ht.copied, ht.returned, ht.eof, fun heof => (ht.once heof).2⟩
      · rw [ht.taken, htaken]
      · rw [ht.got, hgot]

theorem Wf.step (h : s.Wf) (ht : s.step e = some t) : t.Wf ∧ s.Delivers e t := by
  obtain ⟨pending, editing, hgood⟩ := h.good
  cases e with
  | intr cs =>
    rw [← Option.some.inj ht]
    have hquiet := consoleintr_typed hgood cs
    exact ⟨h.quiet hquiet, .quiet hquiet rfl⟩
  | read c dst n =>
    obtain ⟨hm, ht⟩ := Option.ite_none_right_eq_some.mp ht
    rw [← Option.some.inj ht]
    have hat : ((s.setProc c fun p => { p with arg := dst, got := [] }).proc c).At dst n n := by
      rw [setProc_self]
      exact ⟨rfl, Nat.zero_add n, fun k hk => absurd hk (Nat.not_lt_zero k)⟩
    obtain ⟨xs, hxs⟩ := readLoop_spec (hgood.setProc ..) hat
    refine h.read (.inr ⟨dst, rfl⟩) ?_ hxs rfl
    rw [setProc_self]
    rfl
  | resume c =>
    obtain ⟨-, ht⟩ := Option.ite_none_left_eq_some.mp ht
    cases hm : (s.proc c).mode with
    | user =>
      rw [hm] at ht
      cases ht
    | reading dst n target =>
      rw [hm] at ht
      rw [← Option.some.inj ht]
      have hat := h.at_ c dst n target hm
      obtain ⟨xs, hxs⟩ := readLoop_spec hgood hat
      refine h.read (.inl (.refl hgood hat.2.2)) rfl hxs ?_
      simp only [reads, hm]
  | kill c =>
    rw [← Option.some.inj ht]
    have hquiet : Typed s (s.setProc c fun p => { p with killed := true, asleep := false }) := by
      refine ⟨⟨_, _, hgood.setProc ..⟩, List.prefix_rfl, rfl, fun d => ?_, fun d => ?_, fun d => ?_, fun d => ?_⟩
      all_goals
        by_cases hd : d = c
        · rw [hd, setProc_self]
        · rw [setProc_of_ne hd]
    exact ⟨h.quiet hquiet, .quiet hquiet rfl⟩
  | store c addr b =>
    obtain ⟨hm, ht⟩ := Option.ite_none_right_eq_some.mp ht
    rw [← Option.some.inj ht]
    constructor
    · refine ⟨⟨_, _, hgood.setProc ..⟩, fun d dst n target hd => ?_⟩
      by_cases hdc : d = c
      · -- user code is not in a call
        rw [hdc, setProc_self] at hd
        rw [hm] at hd
        exact Mode.noConfusion hd
      · rw [setProc_of_ne hdc] at hd ⊢
        exact h.at_ d dst n target hd
    · exact ⟨List.prefix_rfl, fun _ => rfl, fun _ _ hsome => by cases hsome⟩

theorem wf_boot (mem : Nat → Nat → UInt8) : (boot mem).Wf where
  good := ⟨[], [], rfl, ⟨.nil, rfl, rfl, rfl⟩, fun _ _ hb => absurd hb List.not_mem_nil⟩
  at_ _ _ _ _ h := Mode.noConfusion h

/-- Whatever is typed, and whoever reads, with any counts, and however often the indexes wrap. -/
theorem input_ordered {mem : Nat → Nat → UInt8} {es : List Event} (h : Run.exec step (boot mem) es = some s) :
    s.InOrder ∧ ∀ e t, s.step e = some t → s.Delivers e t := by
  have hw : s.Wf := Run.invariant (fun _ _ _ hw ht => (Wf.step hw ht).1) (wf_boot mem) h
  exact ⟨hw.inOrder, fun e t ht => (hw.step ht).2⟩

/-- A line with a correction, and an end of file after it. -/
theorem input_ordered_line : ∃ s, Run.exec step (boot fun _ _ => 0)
    [.read 0 100 8, .intr [97, 98, ctrl 'H', 99, 13, ctrl 'D'], .resume 0, .read 1 100 8] = some s ∧
    s.taken = [(0, .byte 97), (0, .byte 99), (0, .byte 10), (1, .eof)] ∧ (s.proc 1).eax = 0 ∧ s.InOrder := by
  have hrun : (Run.exec step (boot fun _ _ => 0)
      [.read 0 100 8, .intr [97, 98, ctrl 'H', 99, 13, ctrl 'D'], .resume 0, .read 1 100 8]).map
      (fun s => (s.taken, (s.proc 1).eax)) = some ([(0, .byte 97), (0, .byte 99), (0, .byte 10), (1, .eof)], 0) := by
    decide
  obtain ⟨s, hs, hval⟩ := Option.map_eq_some_iff.mp hrun
  obtain ⟨htaken, heax⟩ := Prod.mk.inj hval
  exact ⟨s, hs, htaken, heax, (input_ordered hs).1⟩

end Sys

end Xv6.Console
