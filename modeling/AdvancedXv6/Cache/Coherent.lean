import AdvancedXv6.Cache.Commit

/-! What every run of the buffer cache keeps, from `binit` on. -/

namespace Xv6.Cache
open Function Links
open Log (Block sb logSize)

namespace Sys
variable {s t : Sys} {c d n : Nat} {b b' : Slot} {e : Event} {es : List Event}

structure Wf (s : Sys) : Prop where
  sound : Sound s
  flow : Flow s

namespace Wf

theorem flow_step (h : Wf s) (ht : s.step e = some t) (hp : t.panic = none)
    (hd : ∃ is, Does e.proc (s.setTodo e.proc is) t) : Flow t := by
  obtain ⟨hs, hf⟩ := h
  unfold step at ht
  split at ht
  · cases ht
  cases e with
  | bread c n =>
    obtain ⟨hc, ht⟩ := Option.ite_none_right_eq_some.mp ht
    obtain rfl := Option.some.inj ht
    exact hf.client hs.owned (hs.bget hc.1 hp) hc.2 bget_todo
  | modify c b x =>
    obtain ⟨hc, ht⟩ := Option.ite_none_right_eq_some.mp ht
    obtain rfl := Option.some.inj ht
    exact hf.client hs.owned (.modify b x hc.1.1 hc.2) hc.1.2 rfl
  | bwrite c b =>
    obtain ⟨hc, ht⟩ := Option.ite_none_right_eq_some.mp ht
    obtain rfl := Option.some.inj ht
    exact hf.client hs.owned (hs.bwrite hc.1.1 hc.2 hp) hc.1.2 bwrite_todo
  | logWrite c b =>
    obtain ⟨hc, ht⟩ := Option.ite_none_right_eq_some.mp ht
    obtain rfl := Option.some.inj ht
    exact hf.client hs.owned (Sound.logTests hc.1.1 hc.2 hp) hc.1.2 logTests_todo
  | brelse c b =>
    obtain ⟨hc, ht⟩ := Option.ite_none_right_eq_some.mp ht
    obtain rfl := Option.some.inj ht
    exact hf.client hs.owned (.brelse b hc.1.1 hc.2.1 hc.2.2) hc.1.2 brelse_todo
  | beginOp c =>
    obtain ⟨-, ht⟩ := Option.ite_none_right_eq_some.mp ht
    obtain ⟨-, ht⟩ := Option.ite_none_left_eq_some.mp ht
    obtain rfl := Option.some.inj ht
    exact ⟨hf.flows, hf.logs⟩
  | endOp c =>
    obtain ⟨hc, ht⟩ := Option.ite_none_right_eq_some.mp ht
    obtain rfl := Option.some.inj ht
    obtain ⟨is, hd⟩ := hd
    have hmode : ∀ b, (s.endOp c).mode c ≠ .log b := by
      intro b
      have hrun : (s.endOp c).mode c = .run := by
        rw [← hc.1.1]
        unfold endOp
        dsimp only
        split
        · rfl
        · split <;> rfl
      rw [hrun]
      exact Mode.noConfusion
    refine hf.step_of hs.owned hd ?_ fun b hb => absurd hb (hmode b)
    have htodo : (s.endOp c).todo c = [] ∨ (s.endOp c).todo c = [.commit, .finish] := by
      unfold endOp
      dsimp only
      split
      · exact .inl hc.1.2
      · split
        · exact .inr (update_self ..)
        · exact .inl hc.1.2
    obtain htodo | htodo := htodo <;> rw [show Event.proc (.endOp c) = c from rfl, htodo] <;> rfl
  | instr c =>
    dsimp only at ht
    split at ht
    · rename_i i rest hm htodo
      exact hf.instr hs hm htodo ht hp
    · cases ht
  | resume c => exact hf.resume hs ht hp
  | intr =>
    obtain ⟨cmd, hcmd, rfl⟩ := Option.map_eq_some_iff.mp ht
    obtain ⟨b, queue, hq, heq⟩ := hs.queue.ideintr_eq hcmd hp
    rw [heq]
    exact ⟨hf.flows, hf.logs⟩

theorem step_does (h : Wf s) (ht : s.step e = some t) (hp : t.panic = none) :
    ∃ is, Does e.proc (s.setTodo e.proc is) t :=
  h.sound.step_does ht hp fun _ _ _ _ hm htodo hb => h.flow.untouched hm htodo hb

theorem step (h : Wf s) (ht : s.step e = some t) (hp : t.panic = none) : Wf t := by
  have hd := h.step_does ht hp
  refine ⟨?_, h.flow_step ht hp hd⟩
  obtain ⟨is, hd⟩ := hd
  exact (h.sound.setTodo _ is).does hd

theorem exec (h : s.panic = none → Wf s) (hes : Run.exec Sys.step s es = some t) : t.panic = none → Wf t := by
  refine Run.invariant (I := fun s => s.panic = none → Wf s) (fun s e t h ht hp => ?_) h hes
  refine (h ?_).step ht hp
  unfold Sys.step at ht
  split at ht
  · cases ht
  · exact Option.not_isSome_iff_eq_none.mp ‹_›

end Wf

section Boot

theorem push_foldl (l done : List Slot) (h : Circle s.next s.prev done) (hnew : ∀ b ∈ l, b ∉ done)
    (hnodup : l.Nodup) : Circle (l.foldl push s).next (l.foldl push s).prev (l.reverse ++ done) := by
  induction l generalizing s done with
  | nil => exact h
  | cons b l ih =>
    rw [List.nodup_cons] at hnodup
    rw [List.foldl_cons, List.reverse_cons, List.append_assoc]
    refine ih (b :: done) (h.push (hnew b List.mem_cons_self)) (fun b' hb' hmem => ?_) hnodup.2
    obtain rfl | hmem := List.mem_cons.mp hmem
    · exact hnodup.1 hb'
    · exact hnew b' (List.mem_cons_of_mem b hb') hmem

/-- `binit` links the buffers, and changes nothing else. -/
theorem push_foldl_eq (l : List Slot) :
    ∃ next prev, l.foldl push s = { s with next, prev } := by
  induction l generalizing s with
  | nil => exact ⟨s.next, s.prev, rfl⟩
  | cons b l ih => exact ih

theorem boot_wf (d : Image) : Wf (boot d) := by
  have hlisted : (boot d).Listed := by
    refine ⟨(List.finRange nbuf).reverse ++ [], push_foldl _ [] ⟨List.nodup_nil, rfl, rfl⟩ ?_ (List.nodup_finRange nbuf), ?_⟩
    · exact fun _ _ => List.not_mem_nil
    · intro b
      rw [List.append_nil, List.mem_reverse]
      exact List.mem_finRange b
  obtain ⟨next, prev, heq⟩ : ∃ next prev, boot d = { start d with next, prev } := push_foldl_eq _
  rw [heq] at hlisted ⊢
  refine ⟨⟨hlisted, ?_, ?_, ?_⟩, ?_, ?_⟩
  · constructor
    · exact fun _ => rfl
    · exact fun _ _ => rfl
    · exact fun _ _ => rfl
    · exact fun _ _ _ hb => absurd hb List.not_mem_nil
    · exact fun _ _ _ => False.elim
    · exact fun _ _ => False.elim
  · have hdev : ∀ (b : Slot) n, ¬((start d).buf b).Holds n := fun _ _ hb => absurd hb.1 Nat.zero_ne_one
    constructor
    · exact fun b _ n hb _ => absurd hb (hdev b n)
    · exact fun _ hb => absurd hb Bool.false_ne_true
    · exact fun _ hb => absurd hb Bool.false_ne_true
    · exact fun _ hb _ => absurd hb Bool.false_ne_true
    · exact fun _ _ => rfl
    · exact fun _ hb => absurd hb Bool.false_ne_true
    · exact fun _ _ hb => absurd hb List.not_mem_nil
    · exact fun _ hn => absurd hn Bool.false_ne_true
  · constructor
    · exact fun _ hb => absurd hb List.not_mem_nil
    · exact fun _ _ => False.elim
    · exact List.nodup_nil
    · rfl
  · intro c
    change flows (update (fun _ => []) 0 recoverFromLog c) [] = true
    by_cases hc : c = 0
    · rw [hc, update_self]
      rfl
    · rw [update_of_ne hc]
      rfl
  · exact fun _ _ => Mode.noConfusion

end Boot

structure Coherent (s : Sys) : Prop where
  /-- the list has every buffer, each once -/
  listed : s.Listed
  unique : ∀ b b' n, (s.buf b).Holds n → (s.buf b').Holds n → b = b'
  /-- a block that is passed to `log_write` stays in a buffer, which has what was written -/
  pinned : ∀ n, s.pinned n = true →
    ∃ b, (s.buf b).Holds n ∧ (s.touched b = false → (s.buf b).data = s.written n)

/-- What a step from `s` to `t` does with the contents of blocks. -/
structure Coheres (s t : Sys) : Prop where
  /-- what `bread` returns is what has been written last -/
  reads : ∀ c n b, t.held c = (n, b) :: s.held c → (t.buf b).Holds n ∧ (t.buf b).data = t.written n
  kept : ∀ b n, (s.buf b).Holds n → s.pinned n = true → (t.buf b).Holds n

theorem Wf.coherent (h : Wf s) : s.Coherent where
  listed := h.sound.listed
  unique := h.sound.content.unique
  pinned n hn := by
    obtain ⟨b, hb, hd, -⟩ := h.sound.content.pinned n hn
    refine ⟨b, hb, fun ht => ?_⟩
    rw [h.sound.content.data b (h.sound.content.dirty b hd) ht, hb.2]

theorem Does.kept (hd : Does c s t) (hb : (s.buf b).Holds n) (hdirty : (s.buf b).dirty = true) :
    (t.buf b).Holds n := by
  have hsame : ∀ {x y : Buf}, (x.dev, x.blockno) = (y.dev, y.blockno) → y.Holds n → x.Holds n := by
    intro x y heq hy
    obtain ⟨hdev, hno⟩ := Prod.mk.inj heq
    exact ⟨hdev.trans hy.1, hno.trans hy.2⟩
  have hset : ∀ b' x, (x.dev, x.blockno) = ((s.buf b').dev, (s.buf b').blockno) →
      (((s.setBuf b' x).buf b).dev, ((s.setBuf b' x).buf b).blockno) = ((s.buf b).dev, (s.buf b).blockno) :=
    fun b' x hx => Sound.buf_setBuf (fun x => (x.dev, x.blockno)) x hx b
  cases hd with
  | note => exact hb
  | hit n' b' => exact hsame (hset b' _ rfl) hb
  | recycle n' b' hm hnew hfree hclean =>
    have hne : b ≠ b' := by
      intro heq
      rw [heq, hclean] at hdirty
      cases hdirty
    exact hsame (congrArg (fun x : Buf => (x.dev, x.blockno)) (update_of_ne hne ..)) hb
  | modify b' x => exact hsame (hset b' _ rfl) hb
  | bwrite b' => exact hsame (hset b' _ rfl) hb
  | logTests => exact hb
  | brelse b' =>
    unfold Sys.brelse
    split
    · exact hsame (hset b' _ rfl) hb
    · exact hb
  | acquire n' b' => exact hsame (hset b' _ rfl) hb
  | load => exact hb
  | ret => exact hb
  | saved => exact hb
  | logAppend b' => exact hsame (hset b' _ rfl) hb
  | drop b' =>
    unfold Sys.drop
    dsimp only
    split <;> exact hsame (hset b' _ rfl) hb
  | intr b' queue => exact hsame (hset b' _ rfl) hb

/-- Only a `bread` that returns adds to what its process holds. -/
theorem Does.returned (hd : Does c s t) (h : Owned s) (hheld : t.held d = (n, b) :: s.held d) :
    d = c ∧ t = s.ret c n b ∧ (s.mode c).owns b = 1 := by
  have hlong : ∀ l, l.length ≤ (s.held d).length → t.held d ≠ l := by
    intro l hl heq
    rw [hheld] at heq
    rw [← heq] at hl
    exact absurd hl (Nat.not_succ_le_self _)
  by_cases hdc : d = c
  · refine ⟨hdc, ?_⟩
    subst hdc
    cases hd with
    | ret n' b' hm =>
      have hnow : (s.ret d n' b').held d = (n', b') :: s.held d := update_self ..
      rw [hnow] at hheld
      obtain ⟨hpair, -⟩ := List.cons.inj hheld
      obtain ⟨rfl, rfl⟩ := Prod.mk.inj hpair
      refine ⟨rfl, ?_⟩
      obtain hm | hm := hm <;> rw [hm.1] <;> exact if_pos rfl
    | brelse b' hm hb =>
      refine absurd ?_ (hlong ((s.held d).eraseP (·.2 = b')) (List.length_eraseP_le ..))
      unfold Sys.brelse
      rw [if_pos (show s.holding d b' from h.holding hb)]
      exact update_self ..
    | drop b' hm =>
      refine absurd ?_ (hlong _ (Nat.le_refl _))
      unfold Sys.drop
      dsimp only
      split <;> rfl
    | _ => exact absurd rfl (hlong _ (Nat.le_refl _))
  · exact absurd (hd.others h hdc).2.1 (hlong _ (Nat.le_refl _))

theorem Wf.coheres (h : Wf s) (ht : s.step e = some t) (hp : t.panic = none) : Coheres s t := by
  obtain ⟨is, hd⟩ := h.step_does ht hp
  have hs := h.sound.setTodo e.proc is
  constructor
  · intro c n b hheld
    obtain ⟨rfl, rfl, hown⟩ := hd.returned hs.owned hheld
    have hnow := (h.step ht hp).sound
    have hmem : (n, b) ∈ ((s.setTodo e.proc is).ret e.proc n b).held e.proc := by
      rw [hheld]
      exact List.mem_cons_self
    have hholds := hnow.owned.held e.proc n b hmem
    refine ⟨hholds, ?_⟩
    rw [hnow.content.data b (hnow.content.valid e.proc b (List.mem_map_of_mem hmem)) (hs.untouched hown), hholds.2]
  · intro b n hb hn
    obtain ⟨b', hb', hdirty, -⟩ := h.sound.content.pinned n hn
    obtain rfl := h.sound.content.unique b b' n hb hb'
    exact hd.kept hb hdirty

/-- In every run: one buffer at most for a block, every buffer in the list once, `bread` returns what
has been written last, and a block that is logged stays until it is written to its place. -/
theorem cache_coherent {d : Image} (hes : Run.exec step (boot d) es = some s) (hp : s.panic = none) :
    s.Coherent ∧ ∀ e t, s.step e = some t → t.panic = none → Coheres s t := by
  have h := Wf.exec (fun _ => boot_wf d) hes hp
  exact ⟨h.coherent, fun e t ht hpt => h.coheres ht hpt⟩

section Runs

def zeroed : Image := ⟨fun _ _ => 0, Nat.zero_le _⟩

/-- The buffer that the first `bread` after the recovery takes. -/
def second : Slot := ⟨1, Nat.le_add_left 2 28⟩

/-- Process 0 recovers an empty log. -/
def recovery : List Event :=
  [.instr 0, .resume 0, .resume 0, .intr, .resume 0, .instr 0, .instr 0, .resume 0, .instr 0, .instr 0,
    .instr 0, .resume 0, .resume 0, .instr 0, .instr 0, .intr, .resume 0, .instr 0, .resume 0]

/-- Process 1 logs a block, and has not ended its operation. -/
def logged : List Event :=
  recovery ++ [.beginOp 1, .bread 1 7000, .resume 1, .resume 1, .intr, .resume 1, .modify 1 second fun _ => 1,
    .logWrite 1 second, .resume 1, .brelse 1 second, .resume 1]

theorem cache_coherent_logged : ∃ s t, Run.exec step (boot zeroed) (logged ++ [.bread 2 7000, .resume 2]) = some s ∧
    s.step (.resume 2) = some t ∧ s.pinned 7000 = true ∧ t.held 2 = [(7000, second)] ∧ (t.buf second).data 0 = 1 ∧
    s.Coherent ∧ Coheres s t := by
  have hrun : ((Run.exec step (boot zeroed) (logged ++ [.bread 2 7000, .resume 2])).bind fun s =>
      (s.step (.resume 2)).map fun t =>
        (s.pinned 7000, t.held 2, (t.buf second).data 0, s.panic.isNone, t.panic.isNone)) =
      some (true, [(7000, second)], 1, true, true) := by
    decide
  obtain ⟨s, hs, hmap⟩ := Option.bind_eq_some_iff.mp hrun
  obtain ⟨t, ht, hval⟩ := Option.map_eq_some_iff.mp hmap
  simp only [Prod.mk.injEq, Option.isNone_iff_eq_none] at hval
  obtain ⟨hpin, hheld, hdata, hp, hpt⟩ := hval
  obtain ⟨hcoherent, hsteps⟩ := cache_coherent hs hp
  exact ⟨s, t, hs, ht, hpin, hheld, hdata, hcoherent, hsteps _ t ht hpt⟩

/-- Process 2 gives the logged block to `bwrite`, and 29 others take the other buffers. -/
def rewritten : List Event :=
  logged ++ [.bread 2 7000, .resume 2, .resume 2, .modify 2 second fun _ => 2, .bwrite 2 second, .intr, .resume 2,
    .brelse 2 second, .resume 2] ++ (List.range 29).map fun i => .bread (3 + i) (7001 + i)

/-- A block that is in the log of an open operation loses its buffer. -/
theorem evicted_uncommitted : ∃ s t, Run.exec step (boot zeroed) rewritten = some s ∧
    s.step (.bread 32 8000) = some t ∧ t.panic = none ∧ 0 < s.outstanding ∧ s.committing = false ∧
    (∃ i, i < s.lh.n ∧ s.lh.block i = 7000) ∧ (s.buf second).Holds 7000 ∧ ∀ b, ¬(t.buf b).Holds 7000 := by
  have hrun : ((Run.exec step (boot zeroed) rewritten).bind fun s => (s.step (.bread 32 8000)).map fun t =>
      (t.panic.isNone, decide (0 < s.outstanding), s.committing, decide (0 < s.lh.n ∧ s.lh.block 0 = 7000),
        decide ((s.buf second).dev = rootDev ∧ (s.buf second).blockno = 7000),
        (List.finRange nbuf).all fun b => (t.buf b).blockno ≠ 7000)) = some (true, true, false, true, true, true) := by
    decide +kernel
  obtain ⟨s, hs, hmap⟩ := Option.bind_eq_some_iff.mp hrun
  obtain ⟨t, ht, hval⟩ := Option.map_eq_some_iff.mp hmap
  simp only [Prod.mk.injEq, Option.isNone_iff_eq_none, decide_eq_true_eq] at hval
  obtain ⟨hpt, hout, hcommitting, hlogged, hholds, hall⟩ := hval
  refine ⟨s, t, hs, ht, hpt, hout, hcommitting, ⟨0, hlogged⟩, hholds, fun b hb => ?_⟩
  exact of_decide_eq_true (List.all_eq_true.mp hall b (List.mem_finRange b)) hb.2

end Runs

end Sys

end Xv6.Cache
