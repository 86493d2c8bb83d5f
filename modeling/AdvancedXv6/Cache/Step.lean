import AdvancedXv6.Cache.Content
import Mathlib.Data.Fintype.Card

/-! What a step can do to the buffers, and what every step keeps. -/

namespace Xv6.Cache
open Function Links
open Log (Block Header sb)

namespace Sys
variable {s t : Sys} {c d n : Nat} {b b' : Slot} {m : Mode} {x : Buf} {e : Event} {i : Instr} {rest : List Instr}

/-- Every buffer is in the list once. -/
def Listed (s : Sys) : Prop := ∃ l, Circle s.next s.prev l ∧ ∀ b, b ∈ l

structure Sound (s : Sys) : Prop where
  listed : s.Listed
  owned : Owned s
  content : Content s
  queue : Queue s

/-- What a process does to the buffers in one step that does not panic. -/
inductive Does (c : Nat) (s : Sys) : Sys → Prop
  | note (lh : Header) (o : Int) (committing : Bool) (todo : Nat → List Instr) (pinned : Nat → Bool)
      (inOp : Nat → Bool) (hpinned : ∀ n, pinned n = true → s.pinned n = true)
      (htodo : ∀ d, d ≠ c → todo d = s.todo d) :
      Does c s { s with lh, outstanding := o, committing, todo, pinned, inOp }
  | hit (n : Nat) (b : Slot) (hm : s.mode c = .run) (hb : (s.buf b).Holds n) :
      Does c s (s.take c n b { s.buf b with refcnt := (s.buf b).refcnt + 1 })
  | recycle (n : Nat) (b : Slot) (hm : s.mode c = .run) (hnew : ∀ b', ¬(s.buf b').Holds n)
      (hfree : (s.buf b).refcnt = 0) (hclean : (s.buf b).dirty = false) :
      Does c s (s.take c n b
        { s.buf b with dev := rootDev, blockno := n, valid := false, dirty := false, refcnt := 1 })
  | modify (b : Slot) (x : Block) (hm : s.mode c = .run) (hb : b ∈ s.slots c) : Does c s (s.modify b x)
  | bwrite (b : Slot) (hm : s.mode c = .run) (hb : b ∈ s.slots c) :
      Does c s ((s.mark b false).enqueue c b (.save b))
  | logTests (b : Slot) (hm : s.mode c = .run) (hb : b ∈ s.slots c) : Does c s (s.setMode c (.log b))
  | brelse (b : Slot) (hm : s.mode c = .run) (hb : b ∈ s.slots c) (ht : s.touched b = false) :
      Does c s (s.brelse c b)
  | acquire (n : Nat) (b : Slot) (hm : s.mode c = .lock n b) (hfree : (s.buf b).lock = none) :
      Does c s ((s.setBuf b { s.buf b with lock := some c }).setMode c (.fill n b))
  | load (n : Nat) (b : Slot) (hm : s.mode c = .fill n b) (hv : (s.buf b).valid = false) :
      Does c s (s.enqueue c b (.load n b))
  | ret (n : Nat) (b : Slot) (hm : s.mode c = .fill n b ∧ (s.buf b).valid = true ∨
      s.mode c = .load n b ∧ (s.buf b).ready = true) : Does c s (s.ret c n b)
  | saved (b : Slot) (hm : s.mode c = .save b) (hready : (s.buf b).ready = true) : Does c s (s.setMode c .run)
  | logAppend (b : Slot) (hm : s.mode c = .log b) : Does c s (s.logAppend c b)
  | drop (b : Slot) (hm : s.mode c = .drop b) : Does c s (s.drop c b)
  | intr (b : Slot) (queue : List Slot) (hq : s.idequeue = b :: queue) : Does c s (s.served b queue)

namespace Listed

theorem circle (h : s.Listed) : ∃ l, Circle s.next s.prev l ∧ (∀ b, b ∈ l) ∧ l.length ≤ nbuf := by
  obtain ⟨l, hl, hall⟩ := h
  refine ⟨l, hl, hall, ?_⟩
  have hcard := hl.1.length_le_card
  rw [Fintype.card_fin] at hcard
  exact hcard

theorem lookup_eq_none (h : s.Listed) (hn : s.lookup n = none) : ∀ b, ¬(s.buf b).Holds n := by
  obtain ⟨l, hl, hall, hlen⟩ := h.circle
  unfold lookup at hn
  rw [hl.2.find _ hlen, List.find?_eq_none] at hn
  intro b hb
  exact hn b (hall b) (decide_eq_true hb)

theorem lookup_eq_some (h : s.Listed) (hn : s.lookup n = some b) : (s.buf b).Holds n := by
  obtain ⟨l, hl, -, hlen⟩ := h.circle
  unfold lookup at hn
  rw [hl.2.find _ hlen] at hn
  have hfound := List.find?_some hn
  obtain ⟨hdev, hno⟩ := of_decide_eq_true hfound
  exact ⟨hdev, hno⟩

theorem unused_eq_some (h : s.Listed) (hb : s.unused = some b) :
    (s.buf b).refcnt = 0 ∧ (s.buf b).dirty = false := by
  obtain ⟨l, hl, -, hlen⟩ := h.circle
  unfold unused at hb
  rw [hl.reverse.2.find _ (List.length_reverse.trans_le hlen)] at hb
  have hfound := List.find?_some hb
  exact of_decide_eq_true hfound

theorem drop (h : s.Listed) (c : Nat) (b : Slot) : (s.drop c b).Listed := by
  obtain ⟨l, hl, hall⟩ := h
  unfold Sys.drop
  dsimp only
  split
  · obtain ⟨l₁, l₂, rfl⟩ := List.append_of_mem (hall b)
    have hb : b ∉ l₁ ++ l₂ := by
      have hnodup := List.perm_middle.nodup_iff.mp hl.1
      rw [List.nodup_cons] at hnodup
      exact hnodup.1
    refine ⟨b :: (l₁ ++ l₂), hl.unlink.push hb, fun b' => ?_⟩
    exact List.perm_middle.mem_iff.mp (hall b')
  · exact ⟨l, hl, hall⟩

end Listed

namespace Sound

theorem bget (h : Sound s) (hm : s.mode c = .run) (hp : (s.bget c n).panic = none) : Does c s (s.bget c n) := by
  unfold Sys.bget at hp ⊢
  cases hl : s.lookup n with
  | some b => exact .hit n b hm (h.listed.lookup_eq_some hl)
  | none =>
    rw [hl] at hp
    cases hu : s.unused with
    | some b =>
      obtain ⟨hfree, hclean⟩ := h.listed.unused_eq_some hu
      exact .recycle n b hm (h.listed.lookup_eq_none hl) hfree hclean
    | none =>
      rw [hu] at hp
      cases hp

theorem bwrite (h : Sound s) (hm : s.mode c = .run) (hb : b ∈ s.slots c) (hp : (s.bwrite c b).panic = none) :
    Does c s (s.bwrite c b) := by
  have hio : ¬(s.mode c).Io b := by
    rw [hm]
    exact id
  unfold Sys.bwrite at hp ⊢
  rw [if_pos (show s.holding c b from h.owned.holding hb)] at hp ⊢
  have hq : Queue (s.mark b false) := h.queue.mark h.owned hb hio false
  rw [(hq.iderw_eq (h.queue.not_mem h.owned hb hio) hp).1]
  exact .bwrite b hm hb

theorem logTests (hm : s.mode c = .run) (hb : b ∈ s.slots c) (hp : (s.logTests c b).panic = none) :
    Does c s (s.logTests c b) := by
  unfold Sys.logTests at hp ⊢
  split at hp
  · cases hp
  · split at hp
    · cases hp
    · rw [if_neg ‹_›, if_neg ‹_›]
      exact .logTests b hm hb

theorem resume (h : Sound s) (ht : s.resume c = some t) (hp : t.panic = none) : Does c s t := by
  unfold Sys.resume at ht
  cases hm : s.mode c with
  | run =>
    rw [hm] at ht
    cases ht
  | lock n b =>
    rw [hm] at ht
    dsimp only at ht
    split at ht
    · obtain rfl := Option.some.inj ht
      exact .acquire n b hm ‹_›
    · cases ht
  | fill n b =>
    rw [hm] at ht
    obtain rfl := Option.some.inj ht
    unfold Sys.bread at hp ⊢
    split at hp
    · rw [if_pos ‹_›]
      exact .ret n b (.inl ⟨hm, ‹_›⟩)
    · rename_i hv
      have hnot : b ∉ s.idequeue := by
        intro hmem
        obtain ⟨d, hd⟩ := h.queue.queued b hmem
        have hlock : (s.buf b).lock = some c := by
          apply h.owned.holding_of_asks
          rw [hm]
          exact if_pos rfl
        obtain rfl := Option.some.inj (hlock.symm.trans (h.owned.lock_of_io hd))
        rw [hm] at hd
        exact hd
      rw [if_neg hv, (h.queue.iderw_eq hnot hp).1]
      exact .load n b hm (Bool.eq_false_iff.mpr hv)
  | load n b =>
    rw [hm] at ht
    dsimp only at ht
    split at ht
    · obtain rfl := Option.some.inj ht
      exact .ret n b (.inr ⟨hm, ‹_›⟩)
    · cases ht
  | save b =>
    rw [hm] at ht
    dsimp only at ht
    split at ht
    · obtain rfl := Option.some.inj ht
      exact .saved b hm ‹_›
    · cases ht
  | log b =>
    rw [hm] at ht
    obtain rfl := Option.some.inj ht
    exact .logAppend b hm
  | drop b =>
    rw [hm] at ht
    obtain rfl := Option.some.inj ht
    exact .drop b hm

theorem setTodo (h : Sound s) (c : Nat) (is : List Instr) : Sound (s.setTodo c is) where
  listed := h.listed
  owned := h.owned.frame rfl rfl rfl (fun _ => rfl) (fun _ => rfl) (fun _ => rfl) fun _ => rfl
  content := ⟨h.content.unique, h.content.device, h.content.dirty, h.content.data, h.content.clean, h.content.touched,
    h.content.valid, h.content.pinned⟩
  queue := ⟨h.queue.queued, h.queue.pending, h.queue.nodup, h.queue.drive⟩

/-- An instruction of the log's code, whose `brelse` must find the buffer as it was written. -/
theorem instr (h : Sound s) (hm : s.mode c = .run) (ht : s.instr c rest i = some t) (hp : t.panic = none)
    (hrel : ∀ k b, i = .brelse k → (s.slots c)[k]? = some b → s.touched b = false) :
    ∃ is, Does c (s.setTodo c is) t := by
  have hrest := h.setTodo c rest
  have hnote : ∀ is, ∃ is', Does c (s.setTodo c is') (s.setTodo c is) :=
    fun is => ⟨is, .note _ _ _ _ _ _ (fun _ => id) fun _ _ => rfl⟩
  unfold Sys.instr at ht
  cases i with
  | commit =>
    dsimp only at ht
    split at ht <;> obtain rfl := Option.some.inj ht <;> exact hnote _
  | breadLog i =>
    obtain rfl := Option.some.inj ht
    exact ⟨rest, hrest.bget hm hp⟩
  | breadHome tail =>
    obtain rfl := Option.some.inj ht
    exact ⟨rest, hrest.bget hm hp⟩
  | copy dst src =>
    obtain ⟨b, hb, ht⟩ := Option.bind_eq_some_iff.mp ht
    obtain ⟨b', -, rfl⟩ := Option.map_eq_some_iff.mp ht
    exact ⟨rest, .modify b _ hm (List.mem_of_getElem? hb)⟩
  | bwrite i =>
    obtain ⟨b, hb, rfl⟩ := Option.map_eq_some_iff.mp ht
    exact ⟨rest, hrest.bwrite hm (List.mem_of_getElem? hb) hp⟩
  | brelse i =>
    obtain ⟨b, hb, rfl⟩ := Option.map_eq_some_iff.mp ht
    exact ⟨rest, .brelse b hm (List.mem_of_getElem? hb) (hrel i b rfl hb)⟩
  | writeLog tail =>
    dsimp only at ht
    split at ht <;> obtain rfl := Option.some.inj ht <;> exact hnote _
  | installTrans tail =>
    dsimp only at ht
    split at ht <;> obtain rfl := Option.some.inj ht <;> exact hnote _
  | setHead =>
    obtain ⟨b, hb, rfl⟩ := Option.map_eq_some_iff.mp ht
    exact ⟨rest, .modify b _ hm (List.mem_of_getElem? hb)⟩
  | getHead =>
    obtain ⟨b, -, rfl⟩ := Option.map_eq_some_iff.mp ht
    exact ⟨rest, .note _ _ _ _ _ _ (fun _ => id) fun _ _ => rfl⟩
  | clear =>
    obtain rfl := Option.some.inj ht
    exact ⟨rest, .note _ _ _ _ _ _ (fun _ hn => absurd hn Bool.false_ne_true) fun _ _ => rfl⟩
  | finish =>
    obtain rfl := Option.some.inj ht
    exact ⟨rest, .note _ _ _ _ _ _ (fun _ => id) fun _ _ => rfl⟩

/-- Every step is one of `Does`, for its process. -/
theorem step_does (h : Sound s) (ht : s.step e = some t) (hp : t.panic = none)
    (hrel : ∀ c k rest b, s.mode c = .run → s.todo c = .brelse k :: rest → (s.slots c)[k]? = some b →
      s.touched b = false) :
    ∃ is, Does e.proc (s.setTodo e.proc is) t := by
  have hsame : ∀ c, s.setTodo c (s.todo c) = s := by
    intro c
    unfold Sys.setTodo
    rw [update_eq_self]
  have hkeep : ∀ {u} c, Does c s u → ∃ is, Does c (s.setTodo c is) u :=
    fun c hdoes => ⟨s.todo c, (hsame c).symm ▸ hdoes⟩
  unfold Sys.step at ht
  split at ht
  · cases ht
  cases e with
  | bread c n =>
    obtain ⟨hc, ht⟩ := Option.ite_none_right_eq_some.mp ht
    obtain rfl := Option.some.inj ht
    exact hkeep c (h.bget hc.1 hp)
  | modify c b x =>
    obtain ⟨hc, ht⟩ := Option.ite_none_right_eq_some.mp ht
    obtain rfl := Option.some.inj ht
    exact hkeep c (.modify b x hc.1.1 hc.2)
  | bwrite c b =>
    obtain ⟨hc, ht⟩ := Option.ite_none_right_eq_some.mp ht
    obtain rfl := Option.some.inj ht
    exact hkeep c (h.bwrite hc.1.1 hc.2 hp)
  | logWrite c b =>
    obtain ⟨hc, ht⟩ := Option.ite_none_right_eq_some.mp ht
    obtain rfl := Option.some.inj ht
    exact hkeep c (logTests hc.1.1 hc.2 hp)
  | brelse c b =>
    obtain ⟨hc, ht⟩ := Option.ite_none_right_eq_some.mp ht
    obtain rfl := Option.some.inj ht
    exact hkeep c (.brelse b hc.1.1 hc.2.1 hc.2.2)
  | beginOp c =>
    obtain ⟨-, ht⟩ := Option.ite_none_right_eq_some.mp ht
    obtain ⟨-, ht⟩ := Option.ite_none_left_eq_some.mp ht
    obtain rfl := Option.some.inj ht
    exact hkeep c (.note _ _ _ _ _ _ (fun _ => id) fun _ _ => rfl)
  | endOp c =>
    obtain ⟨-, ht⟩ := Option.ite_none_right_eq_some.mp ht
    obtain rfl := Option.some.inj ht
    unfold Sys.endOp at hp ⊢
    dsimp only at hp ⊢
    split at hp
    · cases hp
    · rw [if_neg ‹_›]
      split
      · exact hkeep c (.note _ _ _ _ _ _ (fun _ => id) fun d hd => update_of_ne hd ..)
      · exact hkeep c (.note _ _ _ _ _ _ (fun _ => id) fun _ _ => rfl)
  | instr c =>
    dsimp only at ht
    split at ht
    · rename_i i rest hm htodo
      exact h.instr hm ht hp fun k b hi hb => hrel c k rest b hm (hi ▸ htodo) hb
    · cases ht
  | resume c => exact hkeep c (h.resume ht hp)
  | intr =>
    obtain ⟨cmd, hcmd, rfl⟩ := Option.map_eq_some_iff.mp ht
    obtain ⟨b, queue, hq, heq⟩ := h.queue.ideintr_eq hcmd hp
    rw [heq]
    exact hkeep 0 (.intr b queue hq)

theorem note (h : Sound s) (lh : Header) (o : Int) (committing : Bool) (todo : Nat → List Instr)
    (pinned : Nat → Bool) (inOp : Nat → Bool) (hpinned : ∀ n, pinned n = true → s.pinned n = true) :
    Sound { s with lh, outstanding := o, committing, todo, pinned, inOp } where
  listed := h.listed
  owned := h.owned.frame rfl rfl rfl (fun _ => rfl) (fun _ => rfl) (fun _ => rfl) fun _ => rfl
  content := h.content.frame (fun _ => rfl) (fun _ => rfl) (fun _ => rfl) (fun _ => rfl) (fun _ => rfl) rfl rfl rfl
    hpinned (fun _ _ => .inl) (fun _ _ _ hb hio => ⟨hb, hio⟩) fun _ _ => .inl
  queue := h.queue.frame rfl rfl (fun _ _ => Iff.rfl) fun _ _ _ => ⟨rfl, rfl⟩

/-- A buffer that nobody uses is in no call. -/
theorem unused (h : Sound s) (hfree : (s.buf b).refcnt = 0) (d : Nat) :
    b ∉ s.slots d ∧ (∀ k, ¬(s.mode d).Asks k b) ∧ ¬(s.mode d).Io b := by
  obtain ⟨-, hzero, hlock⟩ := h.owned.free hfree
  obtain ⟨hown, hwait⟩ := hzero d
  have hmode := (Nat.add_eq_zero_iff.mp hown).2
  refine ⟨fun hb => ?_, fun k hk => ?_, fun hio => ?_⟩
  · exact absurd ((h.owned.holding hb).symm.trans hlock) (Option.some_ne_none d)
  · cases hmd : s.mode d with
    | lock k' b' =>
      rw [hmd] at hwait hk
      exact absurd (hwait.symm.trans (if_pos hk.2)) Nat.zero_ne_one
    | fill k' b' =>
      rw [hmd] at hmode hk
      exact absurd (hmode.symm.trans (if_pos hk.2)) Nat.zero_ne_one
    | load k' b' =>
      rw [hmd] at hmode hk
      exact absurd (hmode.symm.trans (if_pos hk.2)) Nat.zero_ne_one
    | _ =>
      rw [hmd] at hk
      cases hk
  · exact absurd ((h.owned.lock_of_io hio).symm.trans hlock) (Option.some_ne_none d)

theorem hit (h : Sound s) (hm : s.mode c = .run) (hb : (s.buf b).Holds n) :
    Sound (s.take c n b { s.buf b with refcnt := (s.buf b).refcnt + 1 }) where
  listed := h.listed
  owned := by
    refine h.owned.take hm (congrArg (· + 1) (h.owned.refcnt b)) rfl hb ?_
    exact fun d k hk => hk.elim (h.owned.held d k b) (h.owned.asked d k b)
  content := h.content.hit hm _
  queue := h.queue.take hm fun _ _ => ⟨rfl, rfl⟩

theorem recycle (h : Sound s) (hm : s.mode c = .run) (hnew : ∀ b', ¬(s.buf b').Holds n)
    (hfree : (s.buf b).refcnt = 0) (hclean : (s.buf b).dirty = false) : Sound (s.take c n b
      { s.buf b with dev := rootDev, blockno := n, valid := false, dirty := false, refcnt := 1 }) where
  listed := h.listed
  owned := by
    refine h.owned.take hm ?_ rfl ⟨rfl, rfl⟩ ?_
    · rw [(h.owned.free hfree).1]
      rfl
    · intro d k hk
      obtain hk | hk := hk
      · exact absurd (List.mem_map_of_mem hk) (h.unused hfree d).1
      · exact absurd hk ((h.unused hfree d).2.1 k)
  content := h.content.recycle hm h.owned hfree hclean hnew ⟨⟨rfl, rfl⟩, rfl, rfl⟩
  queue := h.queue.take hm fun d hd => absurd hd (h.unused hfree d).2.2

/-- A change of the buffer that a process holds, which is not on its way to the disk. -/
theorem buf_modify {α : Type} (f : Buf → α) (y : Block) (hf : ∀ x d, f { x with data := d } = f x) (b' : Slot) :
    f ((s.modify b y).buf b') = f (s.buf b') := by
  by_cases hb' : b' = b
  · rw [hb']
    exact (congrArg f (update_self ..)).trans (hf ..)
  · exact congrArg f (update_of_ne hb' ..)

theorem buf_mark {α : Type} (f : Buf → α) (pin : Bool) (hf : ∀ x d, f { x with dirty := d } = f x) (b' : Slot) :
    f ((s.mark b pin).buf b') = f (s.buf b') := by
  by_cases hb' : b' = b
  · rw [hb']
    exact (congrArg f (update_self ..)).trans (hf ..)
  · exact congrArg f (update_of_ne hb' ..)

section Held
variable (h : Sound s) (hb : b ∈ s.slots c) (hio : ¬(s.mode c).Io b)
include h hb hio

theorem modify (x : Block) : Sound (s.modify b x) where
  listed := h.listed
  owned := h.owned.frame rfl rfl rfl (buf_modify _ x fun _ _ => rfl) (buf_modify _ x fun _ _ => rfl)
    (buf_modify _ x fun _ _ => rfl) (buf_modify _ x fun _ _ => rfl)
  content := h.content.modify hb hio x
  queue := h.queue.modify h.owned hb hio x

theorem mark (pin : Bool) : Sound (s.mark b pin) where
  listed := h.listed
  owned := h.owned.frame rfl rfl rfl (buf_mark _ pin fun _ _ => rfl) (buf_mark _ pin fun _ _ => rfl)
    (buf_mark _ pin fun _ _ => rfl) (buf_mark _ pin fun _ _ => rfl)
  content := h.content.mark h.owned hb hio h.queue pin
  queue := h.queue.mark h.owned hb hio pin

end Held

/-- A process that stays with its buffers and its requests, in another mode. -/
theorem setMode (h : Sound s) (howned : Owned (s.setMode c m)) (hqueue : Queue (s.setMode c m))
    (hio : ∀ b, m.Io b → (s.mode c).Io b) : Sound (s.setMode c m) where
  listed := h.listed
  owned := howned
  content := by
    refine h.content.frame (fun _ => rfl) (fun _ => rfl) (fun _ => rfl) (fun _ => rfl) (fun _ => rfl) rfl rfl rfl
      (fun _ => id) (fun _ _ => .inl) (fun d b _ hb hnot => ⟨hb, fun hd => hnot ?_⟩) fun _ _ => .inl
    by_cases hdc : d = c
    · rw [hdc, show (s.setMode c m).mode c = m from update_self ..] at hd
      exact hdc ▸ hio b hd
    · rw [show (s.setMode c m).mode d = s.mode d from update_of_ne hdc ..] at hd
      exact hd
  queue := hqueue

/-- The same, for two modes outside of `iderw`. -/
theorem io_setMode (hm : ∀ b, ¬m.Io b) (hc : ∀ b, ¬(s.mode c).Io b) (d : Nat) (b : Slot) :
    ((s.setMode c m).mode d).Io b ↔ (s.mode d).Io b := by
  by_cases hdc : d = c
  · rw [hdc, show (s.setMode c m).mode c = m from update_self ..]
    exact iff_of_false (hm b) (hc b)
  · rw [show (s.setMode c m).mode d = s.mode d from update_of_ne hdc ..]

theorem enqueue (h : Sound s) (howned : Owned (s.setMode c m)) (hready : (s.buf b).ready = false)
    (hnone : ∀ d, ¬(s.mode d).Io b) (hidle : ∀ b', ¬(s.mode c).Io b') (hm : ∀ b', m.Io b' ↔ b = b')
    (ht : s.touched b = false) (hpin : s.pinned (s.buf b).blockno = false ∨ (s.buf b).dirty = false) :
    Sound (s.enqueue c b m) where
  listed := h.listed
  owned := howned.frame rfl rfl rfl (fun _ => rfl) (fun _ => rfl) (fun _ => rfl) fun _ => rfl
  content := by
    refine h.content.frame (fun _ => rfl) (fun _ => rfl) (fun _ => rfl) (fun _ => rfl) (fun _ => rfl) rfl rfl rfl
      (fun _ => id) (fun _ _ => .inl) (fun d b' ht' hb hnot => ⟨hb, fun hd => hnot ?_⟩) fun b' hd hmem => ?_
    · by_cases hdc : d = c
      · rw [hdc, show (s.enqueue c b m).mode c = m from update_self .., hm] at hd
        rw [← hd, ht] at ht'
        cases ht'
      · rw [show (s.enqueue c b m).mode d = s.mode d from update_of_ne hdc ..] at hd
        exact hd
    · obtain hmem | hmem := List.mem_append.mp hmem
      · exact .inl hmem
      · rw [List.mem_singleton.mp hmem] at hd ⊢
        exact .inr (hpin.resolve_right fun hclean => Bool.false_ne_true (hclean.symm.trans hd))
  queue := h.queue.enqueue hready hnone hidle hm

theorem buf_served {α : Type} (f : Buf → α) (queue : List Slot)
    (hf : ∀ x d v y, f { x with data := d, valid := v, dirty := y } = f x) (b' : Slot) :
    f ((s.served b queue).buf b') = f (s.buf b') := by
  by_cases hb' : b' = b
  · rw [hb', served_buf]
    exact hf ..
  · exact congrArg f (update_of_ne hb' ..)

theorem intr (h : Sound s) {queue : List Slot} (hq : s.idequeue = b :: queue) : Sound (s.served b queue) where
  listed := h.listed
  owned := h.owned.frame rfl rfl rfl (buf_served _ queue fun _ _ _ _ => rfl) (buf_served _ queue fun _ _ _ _ => rfl)
    (buf_served _ queue fun _ _ _ _ => rfl) (buf_served _ queue fun _ _ _ _ => rfl)
  content := h.content.served h.owned h.queue hq
  queue := h.queue.served hq

/-- A change of one buffer beside its flags, its data and its block. -/
theorem buf_setBuf {α : Type} (f : Buf → α) (x : Buf) (hf : f x = f (s.buf b)) (b' : Slot) :
    f ((s.setBuf b x).buf b') = f (s.buf b') := by
  by_cases hb' : b' = b
  · rw [hb']
    exact (congrArg f (update_self ..)).trans hf
  · exact congrArg f (update_of_ne hb' ..)

theorem request_setBuf (x : Buf) (hready : x.ready = (s.buf b).ready) (hcmd : command x = command (s.buf b))
    (d : Nat) (b' : Slot) (_ : (s.mode d).Io b') :
    ((s.setBuf b x).buf b').ready = (s.buf b').ready ∧ command ((s.setBuf b x).buf b') = command (s.buf b') :=
  ⟨buf_setBuf Buf.ready x hready b', buf_setBuf command x hcmd b'⟩

theorem no_io (hm : ∀ b', ¬m.Io b') (hc : s.mode c = m) (b' : Slot) : ¬(s.mode c).Io b' := by
  rw [hc]
  exact hm b'

theorem acquire (h : Sound s) (hm : s.mode c = .lock n b) (hfree : (s.buf b).lock = none) :
    Sound ((s.setBuf b { s.buf b with lock := some c }).setMode c (.fill n b)) := by
  have hio := io_setMode (s := s) (c := c) (m := .fill n b) (fun _ => id) (no_io (fun _ => id) hm)
  refine ⟨h.listed, h.owned.acquire hm hfree, ?_, ?_⟩
  · refine h.content.frame (buf_setBuf _ _ rfl) (buf_setBuf _ _ rfl) (buf_setBuf _ _ rfl) (buf_setBuf _ _ rfl)
      (buf_setBuf _ _ rfl) rfl rfl rfl (fun _ => id) (fun _ _ => .inl) ?_ ?_
    · exact fun d b' _ hb hnot => ⟨hb, fun hd => hnot ((hio d b').mp hd)⟩
    · exact fun _ _ => .inl
  · exact h.queue.frame rfl rfl hio (request_setBuf _ rfl rfl)

/-- A buffer that its process does not hold yet. -/
theorem untouched (h : Sound s) (hown : (s.mode c).owns b = 1) : s.touched b = false := by
  rw [← Bool.not_eq_true]
  intro ht
  obtain ⟨d, hd, -⟩ := h.content.touched b ht
  have hlock := h.owned.holding_of_asks hown
  obtain rfl := Option.some.inj (hlock.symm.trans (h.owned.holding hd))
  have hcount := h.owned.locked c b
  unfold owns at hcount
  rw [if_pos hlock, hown] at hcount
  exact absurd (Nat.add_right_cancel (hcount.trans (Nat.zero_add 1).symm))
    (Nat.ne_of_gt (List.count_pos_iff.mpr hd))

theorem load (h : Sound s) (hm : s.mode c = .fill n b) (hv : (s.buf b).valid = false) :
    Sound (s.enqueue c b (.load n b)) := by
  have hown : (s.mode c).owns b = 1 := by
    rw [hm]
    exact if_pos rfl
  have hidle : ∀ b', ¬(s.mode c).Io b' := no_io (fun _ => id) hm
  apply h.enqueue
  · apply h.owned.setMode
    · rw [hm]
      rfl
    · rw [hm]
      rfl
    · rw [hm]
      exact fun _ _ => id
    · exact fun _ => False.elim
  · exact congrArg (· && _) hv
  · intro d hd
    obtain rfl := Option.some.inj ((h.owned.lock_of_io hd).symm.trans (h.owned.holding_of_asks hown))
    exact hidle b hd
  · exact hidle
  · exact fun _ => Iff.rfl
  · exact h.untouched hown
  · right
    rw [← Bool.not_eq_true]
    intro hd
    rw [h.content.dirty b hd] at hv
    cases hv

theorem ret (h : Sound s) (hm : s.mode c = .fill n b ∧ (s.buf b).valid = true ∨
    s.mode c = .load n b ∧ (s.buf b).ready = true) : Sound (s.ret c n b) := by
  have hmode : s.mode c = .fill n b ∨ s.mode c = .load n b := hm.imp And.left And.left
  have hvalid : (s.buf b).valid = true := by
    obtain hm | hm := hm
    · exact hm.2
    · exact (Bool.and_eq_true_iff.mp hm.2).1
  have hheld : (s.ret c n b).held c = (n, b) :: s.held c := update_self ..
  have hslots : ∀ d b', b' ∈ s.slots d → b' ∈ (s.ret c n b).slots d := by
    intro d b' hb
    unfold slots
    by_cases hd : d = c
    · rw [hd, hheld]
      exact List.mem_cons_of_mem _ (hd ▸ hb)
    · rw [show (s.ret c n b).held d = s.held d from update_of_ne hd ..]
      exact hb
  refine ⟨h.listed, h.owned.ret hmode, ?_, ?_⟩
  · refine h.content.frame (fun _ => rfl) (fun _ => rfl) (fun _ => rfl) (fun _ => rfl) (fun _ => rfl) rfl rfl rfl
      (fun _ => id) ?_ ?_ ?_
    · intro d b' hb
      unfold slots at hb
      by_cases hd : d = c
      · rw [hd, hheld] at hb
        obtain heq | hb := List.mem_cons.mp hb
        · exact .inr (heq ▸ hvalid)
        · exact .inl (hd ▸ hb)
      · rw [show (s.ret c n b).held d = s.held d from update_of_ne hd ..] at hb
        exact .inl hb
    · intro d b' _ hb hnot
      refine ⟨hslots d b' hb, ?_⟩
      by_cases hd : d = c
      · rw [hd, show (s.ret c n b).mode c = .run from update_self ..]
        exact id
      · rw [show (s.ret c n b).mode d = s.mode d from update_of_ne hd ..]
        exact hnot
    · exact fun _ _ => .inl
  · refine h.queue.leave rfl rfl rfl rfl ?_
    intro b' hb
    obtain hm | ⟨hm, hready⟩ := hm
    · rw [hm.1] at hb
      cases hb
    · rw [hm] at hb
      exact hb ▸ hready

theorem brelse (h : Sound s) (hm : s.mode c = .run) (hb : b ∈ s.slots c) (ht : s.touched b = false) :
    Sound (s.brelse c b) := by
  have hown := h.owned.release hm hb
  have hio := io_setMode (s := s) (c := c) (m := .drop b) (fun _ => id) (no_io (fun _ => id) hm)
  unfold Sys.brelse at hown ⊢
  rw [if_pos (show s.holding c b from h.owned.holding hb)] at hown ⊢
  refine ⟨h.listed, hown, ?_, ?_⟩
  · refine h.content.frame (buf_setBuf _ _ rfl) (buf_setBuf _ _ rfl) (buf_setBuf _ _ rfl) (buf_setBuf _ _ rfl)
      (buf_setBuf _ _ rfl) rfl rfl rfl (fun _ => id) ?_ ?_ ?_
    · intro d b' hb'
      unfold slots at hb'
      obtain ⟨p, hp, rfl⟩ := List.mem_map.mp hb'
      refine .inl (List.mem_map_of_mem ?_)
      by_cases hd : d = c
      · subst hd
        dsimp only at hp
        rw [update_self] at hp
        exact List.mem_of_mem_eraseP hp
      · dsimp only at hp
        rw [update_of_ne hd] at hp
        exact hp
    · intro d b' ht' hb' hnot
      refine ⟨?_, fun hd => hnot ((hio d b').mp hd)⟩
      have hne : b' ≠ b := by
        intro heq
        rw [heq, ht] at ht'
        cases ht'
      obtain ⟨p, hp, rfl⟩ := List.mem_map.mp hb'
      refine List.mem_map_of_mem ?_
      by_cases hd : d = c
      · subst hd
        dsimp only
        rw [update_self]
        exact (List.mem_eraseP_of_neg (by rw [decide_eq_true_eq]; exact hne)).mpr hp
      · dsimp only
        rw [update_of_ne hd]
        exact hp
    · exact fun _ _ => .inl
  · exact h.queue.frame rfl rfl hio (request_setBuf _ rfl rfl)

theorem drop (h : Sound s) (hm : s.mode c = .drop b) : Sound (s.drop c b) := by
  have hio := io_setMode (s := s) (c := c) (m := .run) (fun _ => id) (no_io (fun _ => id) hm)
  refine ⟨h.listed.drop c b, h.owned.drop hm, ?_, ?_⟩
  · unfold Sys.drop
    dsimp only
    split
    all_goals
      refine h.content.frame (buf_setBuf _ _ rfl) (buf_setBuf _ _ rfl) (buf_setBuf _ _ rfl) (buf_setBuf _ _ rfl)
        (buf_setBuf _ _ rfl) rfl rfl rfl (fun _ => id) (fun _ _ => .inl) ?_ ?_
      · exact fun d b' _ hb hnot => ⟨hb, fun hd => hnot ((hio d b').mp hd)⟩
      · exact fun _ _ => .inl
  · unfold Sys.drop
    dsimp only
    split
    all_goals
      exact h.queue.frame rfl rfl hio (request_setBuf _ rfl rfl)

theorem does (h : Sound s) (hd : Does c s t) : Sound t := by
  cases hd with
  | note lh o committing todo pinned inOp hpinned htodo => exact h.note lh o committing todo pinned inOp hpinned
  | hit n b hm hb => exact h.hit hm hb
  | recycle n b hm hnew hfree hclean => exact h.recycle hm hnew hfree hclean
  | modify b x hm hb => exact h.modify hb (by rw [hm]; exact id) x
  | bwrite b hm hb =>
    have hio : ¬(s.mode c).Io b := by
      rw [hm]
      exact id
    have hmark := h.mark hb hio false
    have hrun : (s.mark b false).mode c = .run := hm
    have hbuf : (s.mark b false).buf b = { s.buf b with dirty := true } := update_self ..
    apply hmark.enqueue
    · apply hmark.owned.setMode
      · rw [hrun]
        rfl
      · rw [hrun]
        rfl
      · exact fun _ _ => False.elim
      · intro b' hb'
        exact (hb' : b = b') ▸ hb
    · rw [hbuf]
      exact Bool.and_false _
    · exact fun d => h.owned.no_io hb hio d
    · rw [hrun]
      exact fun _ => id
    · exact fun _ => Iff.rfl
    · exact update_self ..
    · rw [hbuf]
      exact .inl (update_self ..)
  | logTests b hm hb =>
    have hno : ∀ b', ¬(s.mode c).Io b' := by
      rw [hm]
      exact fun _ => id
    apply h.setMode
    · apply h.owned.setMode
      · rw [hm]
        rfl
      · rw [hm]
        rfl
      · exact fun _ _ => False.elim
      · intro b' hb'
        exact (hb' : b = b') ▸ hb
    · exact h.queue.frame rfl rfl (io_setMode (fun _ => id) hno) fun _ _ _ => ⟨rfl, rfl⟩
    · exact fun _ => False.elim
  | brelse b hm hb ht => exact h.brelse hm hb ht
  | acquire n b hm hfree => exact h.acquire hm hfree
  | load n b hm hv => exact h.load hm hv
  | ret n b hm => exact h.ret hm
  | saved b hm hready =>
    apply h.setMode
    · apply h.owned.setMode
      · rw [hm]
        rfl
      · rw [hm]
        rfl
      · exact fun _ _ => False.elim
      · exact fun _ => False.elim
    · refine h.queue.leave rfl rfl rfl rfl ?_
      intro b' hb
      rw [hm] at hb
      exact hb ▸ hready
    · exact fun _ => False.elim
  | logAppend b hm =>
    have hb : b ∈ s.slots c := by
      apply h.owned.busy c
      rw [hm]
      rfl
    have hno : ∀ b', ¬(s.mode c).Io b' := no_io (fun _ => id) hm
    have hmark := h.mark hb (hno b) true
    have hmode : (s.mark b true).mode c = .log b := hm
    have hrun : Sound ((s.mark b true).setMode c .run) := by
      apply hmark.setMode
      · apply hmark.owned.setMode
        · rw [hmode]
          rfl
        · rw [hmode]
          rfl
        · exact fun _ _ => False.elim
        · exact fun _ => False.elim
      · exact hmark.queue.frame rfl rfl (io_setMode (fun _ => id) (no_io (fun _ => id) hmode)) fun _ _ _ => ⟨rfl, rfl⟩
      · exact fun _ => False.elim
    exact hrun.note _ _ _ _ _ _ fun _ => id
  | drop b hm => exact h.drop hm
  | intr b queue hq => exact h.intr hq

end Sound

end Sys

end Xv6.Cache
