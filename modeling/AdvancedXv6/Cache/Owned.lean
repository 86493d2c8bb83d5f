import AdvancedXv6.Cache.State

/-! Which processes have a buffer, wait for it or are about to drop it, and the count of them. -/

namespace Xv6.Cache
open Function Links
open Log (Block sb)

def Buf.Holds (x : Buf) (n : Nat) : Prop := x.dev = rootDev ∧ x.blockno = n

namespace Mode

/-- The sleep locks that a process has for a call, beside those of the buffers that it holds. -/
def owns : Mode → Slot → Nat
  | .fill _ b, b' => if b = b' then 1 else 0
  | .load _ b, b' => if b = b' then 1 else 0
  | _, _ => 0

/-- What `refcnt` counts a process for, beside its locks. -/
def waits : Mode → Slot → Nat
  | .lock _ b, b' => if b = b' then 1 else 0
  | .drop b, b' => if b = b' then 1 else 0
  | _, _ => 0

/-- `bget` has found `b` for block `n`, and `bread` has not returned it. -/
def Asks : Mode → Nat → Slot → Prop
  | .lock n b, n', b' => n = n' ∧ b = b'
  | .fill n b, n', b' => n = n' ∧ b = b'
  | .load n b, n', b' => n = n' ∧ b = b'
  | _, _, _ => False

/-- The process is in a call with a buffer that it holds. -/
def Busy : Mode → Slot → Prop
  | .save b, b' => b = b'
  | .log b, b' => b = b'
  | _, _ => False

/-- The process is in `iderw`. -/
def Io : Mode → Slot → Prop
  | .load _ b, b' => b = b'
  | .save b, b' => b = b'
  | _, _ => False

end Mode

namespace Sys
variable {s t : Sys} {c d n : Nat} {b b' : Slot} {m : Mode} {x : Buf}

/-- The sleep locks of buffer `b` that the process has. -/
def owns (s : Sys) (c : Nat) (b : Slot) : Nat := (s.slots c).count b + (s.mode c).owns b

structure Owned (s : Sys) : Prop where
  refcnt : ∀ b, (s.buf b).refcnt = (s.users b).length
  users : ∀ c b, (s.users b).count c = s.owns c b + (s.mode c).waits b
  locked : ∀ c b, s.owns c b = if (s.buf b).lock = some c then 1 else 0
  held : ∀ c n b, (n, b) ∈ s.held c → (s.buf b).Holds n
  asked : ∀ c n b, (s.mode c).Asks n b → (s.buf b).Holds n
  busy : ∀ c b, (s.mode c).Busy b → b ∈ s.slots c

/-- A change of the flags, the data and the drive's queue. -/
theorem Owned.frame (h : Owned s) (hmode : t.mode = s.mode) (hheld : t.held = s.held) (husers : t.users = s.users)
    (hdev : ∀ b, (t.buf b).dev = (s.buf b).dev) (hno : ∀ b, (t.buf b).blockno = (s.buf b).blockno)
    (hlock : ∀ b, (t.buf b).lock = (s.buf b).lock) (hrefcnt : ∀ b, (t.buf b).refcnt = (s.buf b).refcnt) :
    Owned t := by
  have howns : ∀ c b, t.owns c b = s.owns c b := by
    intro c b
    unfold owns slots
    rw [hmode, hheld]
  have hholds : ∀ b n, (s.buf b).Holds n → (t.buf b).Holds n :=
    fun b n hn => ⟨(hdev b).trans hn.1, (hno b).trans hn.2⟩
  constructor
  · intro b
    rw [hrefcnt, husers, h.refcnt]
  · intro c b
    rw [husers, howns, hmode, h.users]
  · intro c b
    rw [howns, hlock, h.locked]
  · intro c n b hb
    rw [hheld] at hb
    exact hholds b n (h.held c n b hb)
  · intro c n b hb
    rw [hmode] at hb
    exact hholds b n (h.asked c n b hb)
  · intro c b hb
    rw [hmode] at hb
    unfold slots
    rw [hheld]
    exact h.busy c b hb

/-- A step of one process that changes its hold of one buffer. -/
theorem Owned.move (h : Owned s) (hbuf : ∀ b', b' ≠ b → t.buf b' = s.buf b')
    (husers : ∀ b', b' ≠ b → t.users b' = s.users b') (hmode : ∀ d, d ≠ c → t.mode d = s.mode d)
    (hheld : ∀ d, d ≠ c → t.held d = s.held d)
    (hother : ∀ b', b' ≠ b → t.owns c b' = s.owns c b' ∧ (t.mode c).waits b' = (s.mode c).waits b')
    (hrefcnt : (t.buf b).refcnt = (t.users b).length)
    (hself : (t.users b).count c = t.owns c b + (t.mode c).waits b)
    (hcount : ∀ d, d ≠ c → (t.users b).count d = (s.users b).count d)
    (hown : t.owns c b = if (t.buf b).lock = some c then 1 else 0)
    (hlock : ∀ d, d ≠ c → ((t.buf b).lock = some d ↔ (s.buf b).lock = some d))
    (hkeep : ∀ d n, d ≠ c → (n, b) ∈ s.held d ∨ (s.mode d).Asks n b → (t.buf b).Holds n)
    (hasked : ∀ n b', (n, b') ∈ t.held c ∨ (t.mode c).Asks n b' → (t.buf b').Holds n)
    (hbusy : ∀ b', (t.mode c).Busy b' → b' ∈ t.slots c) : Owned t := by
  have howns : ∀ d, d ≠ c → ∀ b, t.owns d b = s.owns d b := by
    intro d hd b
    unfold owns slots
    rw [hmode d hd, hheld d hd]
  have hholds : ∀ d n b', d ≠ c → (n, b') ∈ s.held d ∨ (s.mode d).Asks n b' → (t.buf b').Holds n := by
    intro d n b' hd hn
    by_cases hb : b' = b
    · subst hb
      exact hkeep d n hd hn
    · rw [hbuf b' hb]
      exact hn.elim (h.held d n b') (h.asked d n b')
  constructor
  · intro b'
    by_cases hb : b' = b
    · rw [hb]
      exact hrefcnt
    · rw [hbuf b' hb, husers b' hb]
      exact h.refcnt b'
  · intro d b'
    by_cases hd : d = c
    · subst hd
      by_cases hb : b' = b
      · rw [hb]
        exact hself
      · rw [husers b' hb, (hother b' hb).1, (hother b' hb).2]
        exact h.users d b'
    · rw [howns d hd, hmode d hd, ← h.users d b']
      by_cases hb : b' = b
      · rw [hb]
        exact hcount d hd
      · rw [husers b' hb]
  · intro d b'
    by_cases hd : d = c
    · subst hd
      by_cases hb : b' = b
      · rw [hb]
        exact hown
      · rw [(hother b' hb).1, hbuf b' hb]
        exact h.locked d b'
    · rw [howns d hd, h.locked d b']
      by_cases hb : b' = b
      · rw [hb, if_congr (hlock d hd) rfl rfl]
      · rw [hbuf b' hb]
  · intro d n b' hn
    by_cases hd : d = c
    · subst hd
      exact hasked n b' (.inl hn)
    · rw [hheld d hd] at hn
      exact hholds d n b' hd (.inl hn)
  · intro d n b' hn
    by_cases hd : d = c
    · subst hd
      exact hasked n b' (.inr hn)
    · rw [hmode d hd] at hn
      exact hholds d n b' hd (.inr hn)
  · intro d b' hn
    by_cases hd : d = c
    · subst hd
      exact hbusy b' hn
    · rw [hmode d hd] at hn
      unfold slots
      rw [hheld d hd]
      exact h.busy d b' hn

namespace Owned

/-- A buffer that nobody uses. -/
theorem free (h : Owned s) (hb : (s.buf b).refcnt = 0) :
    s.users b = [] ∧ (∀ c, s.owns c b = 0 ∧ (s.mode c).waits b = 0) ∧ (s.buf b).lock = none := by
  have hnil : s.users b = [] := List.eq_nil_of_length_eq_zero ((h.refcnt b).symm.trans hb)
  have hzero : ∀ c, s.owns c b = 0 ∧ (s.mode c).waits b = 0 := by
    intro c
    have hcount := h.users c b
    rw [hnil, List.count_nil] at hcount
    exact Nat.add_eq_zero_iff.mp hcount.symm
  refine ⟨hnil, hzero, ?_⟩
  cases hl : (s.buf b).lock with
  | none => rfl
  | some c =>
    have hown := h.locked c b
    rw [if_pos hl, (hzero c).1] at hown
    cases hown

theorem holding (h : Owned s) (hb : b ∈ s.slots c) : (s.buf b).lock = some c := by
  by_contra hne
  have hown := h.locked c b
  rw [if_neg hne] at hown
  exact absurd (Nat.add_eq_zero_iff.mp hown).1 (Nat.ne_of_gt (List.count_pos_iff.mpr hb))

theorem holding_of_asks (h : Owned s) (hm : (s.mode c).owns b = 1) : (s.buf b).lock = some c := by
  by_contra hne
  have hown := h.locked c b
  rw [if_neg hne] at hown
  rw [(Nat.add_eq_zero_iff.mp hown).2] at hm
  cases hm

theorem take (h : Owned s) (hm : s.mode c = .run) (hx : x.refcnt = (s.users b).length + 1)
    (hlock : x.lock = (s.buf b).lock) (hn : x.Holds n)
    (hkeep : ∀ d k, (k, b) ∈ s.held d ∨ (s.mode d).Asks k b → x.Holds k) : Owned (s.take c n b x) := by
  have hbuf : (s.take c n b x).buf b = x := update_self ..
  have husers : (s.take c n b x).users b = c :: s.users b := update_self ..
  have hmode : (s.take c n b x).mode c = .lock n b := update_self ..
  have howns : ∀ b', (s.take c n b x).owns c b' = s.owns c b' := by
    intro b'
    unfold owns
    rw [hmode, hm]
    rfl
  apply h.move (c := c) (b := b)
  · exact fun b' hb => update_of_ne hb ..
  · exact fun b' hb => update_of_ne hb ..
  · exact fun d hd => update_of_ne hd ..
  · exact fun _ _ => rfl
  · intro b' hb
    rw [hmode, hm]
    exact ⟨howns b', if_neg hb.symm⟩
  · rw [hbuf, husers, hx]
    rfl
  · rw [husers, List.count_cons_self, howns, hmode, h.users, hm]
    exact congrArg (s.owns c b + ·) (if_pos rfl).symm
  · intro d hd
    rw [husers]
    exact List.count_cons_of_ne hd.symm
  · rw [howns, hbuf, hlock]
    exact h.locked c b
  · intro d _
    rw [hbuf, hlock]
  · intro d k _ hk
    rw [hbuf]
    exact hkeep d k hk
  · intro k b' hk
    by_cases hb : b' = b
    · subst hb
      rw [hbuf]
      obtain hk | hk := hk
      · exact hkeep c k (.inl hk)
      · rw [hmode] at hk
        exact hk.1 ▸ hn
    · rw [show (s.take c n b x).buf b' = s.buf b' from update_of_ne hb ..]
      obtain hk | hk := hk
      · exact h.held c k b' hk
      · rw [hmode] at hk
        exact absurd hk.2.symm hb
  · intro b' hb
    rw [hmode] at hb
    cases hb

theorem acquire (h : Owned s) (hm : s.mode c = .lock n b) (hfree : (s.buf b).lock = none) :
    Owned ((s.setBuf b { s.buf b with lock := some c }).setMode c (.fill n b)) := by
  obtain ⟨t, ht⟩ : ∃ t, t = (s.setBuf b { s.buf b with lock := some c }).setMode c (.fill n b) := ⟨_, rfl⟩
  have hbuf : t.buf b = { s.buf b with lock := some c } := by
    rw [ht]
    exact update_self ..
  have hmode : t.mode c = .fill n b := by
    rw [ht]
    exact update_self ..
  have hslots : t.slots c = s.slots c := by rw [ht]; rfl
  have hbufs : ∀ b', b' ≠ b → t.buf b' = s.buf b' := by
    intro b' hb
    rw [ht]
    exact update_of_ne hb ..
  have husers : t.users = s.users := by rw [ht]; rfl
  have hheld : t.held = s.held := by rw [ht]; rfl
  have hzero : s.owns c b = 0 := by rw [h.locked, hfree, if_neg (Option.some_ne_none c).symm]
  have hone : t.owns c b = 1 := by
    unfold owns at hzero ⊢
    rw [hslots, (Nat.add_eq_zero_iff.mp hzero).1, hmode, Nat.zero_add]
    exact if_pos rfl
  have hholds : ∀ b' k, (s.buf b').Holds k → (t.buf b').Holds k := by
    intro b' k hk
    by_cases hb : b' = b
    · subst hb
      rw [hbuf]
      exact hk
    · rw [hbufs b' hb]
      exact hk
  rw [← ht]
  apply h.move (c := c) (b := b) hbufs
  · exact fun b' _ => congrFun husers b'
  · intro d hd
    rw [ht]
    exact update_of_ne hd ..
  · exact fun d _ => congrFun hheld d
  · intro b' hb
    unfold owns
    rw [hslots, hmode, hm]
    refine ⟨congrArg (_ + ·) (if_neg hb.symm), (if_neg hb.symm).symm⟩
  · rw [hbuf, husers]
    exact h.refcnt b
  · rw [husers, h.users, hzero, hone, hm, hmode, Nat.zero_add]
    exact if_pos rfl
  · intro d _
    rw [husers]
  · rw [hone, hbuf, if_pos rfl]
  · intro d hd
    rw [hbuf, hfree]
    exact ⟨fun heq => absurd (Option.some.inj heq).symm hd, fun heq => absurd heq.symm (Option.some_ne_none d)⟩
  · exact fun d k _ hk => hholds b k (hk.elim (h.held d k b) (h.asked d k b))
  · intro k b' hk
    rw [hheld, hmode] at hk
    apply hholds
    obtain hk | hk := hk
    · exact h.held c k b' hk
    · apply h.asked c
      rw [hm]
      exact hk
  · intro b' hb
    rw [hmode] at hb
    cases hb

/-- A process that stays with its buffers, in another mode. -/
theorem setMode (h : Owned s) (howns : m.owns = (s.mode c).owns) (hwaits : m.waits = (s.mode c).waits)
    (hasks : ∀ n b, m.Asks n b → (s.mode c).Asks n b) (hbusy : ∀ b, m.Busy b → b ∈ s.slots c) :
    Owned (s.setMode c m) := by
  have hmode : (s.setMode c m).mode c = m := update_self ..
  have hne : ∀ d, d ≠ c → (s.setMode c m).mode d = s.mode d := fun d hd => update_of_ne hd ..
  have hos : ∀ d b, (s.setMode c m).owns d b = s.owns d b := by
    intro d b
    unfold owns
    by_cases hd : d = c
    · rw [hd, hmode, howns]
      rfl
    · rw [hne d hd]
      rfl
  have hws : ∀ d b, ((s.setMode c m).mode d).waits b = (s.mode d).waits b := by
    intro d b
    by_cases hd : d = c
    · rw [hd, hmode, hwaits]
    · rw [hne d hd]
  refine ⟨h.refcnt, ?_, ?_, h.held, ?_, ?_⟩
  · intro d b
    rw [hos, hws]
    exact h.users d b
  · intro d b
    rw [hos]
    exact h.locked d b
  · intro d n b hb
    by_cases hd : d = c
    · subst hd
      rw [hmode] at hb
      exact h.asked d n b (hasks n b hb)
    · rw [hne d hd] at hb
      exact h.asked d n b hb
  · intro d b hb
    by_cases hd : d = c
    · subst hd
      rw [hmode] at hb
      exact hbusy b hb
    · rw [hne d hd] at hb
      exact h.busy d b hb

theorem ret (h : Owned s) (hm : s.mode c = .fill n b ∨ s.mode c = .load n b) : Owned (s.ret c n b) := by
  have hmode : (s.ret c n b).mode c = .run := update_self ..
  have hheld : (s.ret c n b).held c = (n, b) :: s.held c := update_self ..
  have hslots : (s.ret c n b).slots c = b :: s.slots c := by
    unfold slots
    rw [hheld]
    rfl
  have hnow : ∀ b', (s.mode c).owns b' = if b = b' then 1 else 0 := by
    intro b'
    obtain hm | hm := hm <;> rw [hm] <;> rfl
  have hwait : ∀ b', (s.mode c).waits b' = 0 := by
    intro b'
    obtain hm | hm := hm <;> rw [hm] <;> rfl
  have hask : (s.mode c).Asks n b := by
    obtain hm | hm := hm <;> rw [hm] <;> exact ⟨rfl, rfl⟩
  have howns : ∀ b', (s.ret c n b).owns c b' = s.owns c b' := by
    intro b'
    unfold owns
    rw [hslots, hmode, hnow, List.count_cons]
    exact congrArg _ (if_congr beq_iff_eq rfl rfl)
  apply h.move (c := c) (b := b)
  · exact fun _ _ => rfl
  · exact fun _ _ => rfl
  · exact fun d hd => update_of_ne hd ..
  · exact fun d hd => update_of_ne hd ..
  · intro b' _
    rw [howns, hwait, hmode]
    exact ⟨rfl, rfl⟩
  · exact h.refcnt b
  · rw [howns, hmode]
    have hcount := h.users c b
    rw [hwait] at hcount
    exact hcount
  · exact fun _ _ => rfl
  · rw [howns]
    exact h.locked c b
  · exact fun _ _ => Iff.rfl
  · exact fun d k _ hk => hk.elim (h.held d k b) (h.asked d k b)
  · intro k b' hk
    rw [hheld, hmode] at hk
    obtain hk | hk := hk
    · obtain heq | hk := List.mem_cons.mp hk
      · obtain ⟨rfl, rfl⟩ := Prod.mk.inj heq
        exact h.asked c k b' hask
      · exact h.held c k b' hk
    · cases hk
  · intro b' hb
    rw [hmode] at hb
    cases hb

theorem brelse_slots (hb : s.holding c b) : (s.brelse c b).slots c = (s.slots c).erase b := by
  unfold Sys.brelse slots
  rw [if_pos hb]
  dsimp only
  rw [update_self, List.erase_eq_eraseP, List.eraseP_map]
  exact congrArg (List.map _ <| List.eraseP · _) (funext fun p => decide_eq_decide.mpr eq_comm)

/-- The first half of `brelse`. -/
theorem release (h : Owned s) (hm : s.mode c = .run) (hb : b ∈ s.slots c) : Owned (s.brelse c b) := by
  have hlock := h.holding hb
  obtain ⟨t, ht⟩ : ∃ t, t = s.brelse c b := ⟨_, rfl⟩
  have ht' := ht
  unfold brelse at ht'
  rw [if_pos (show s.holding c b from hlock)] at ht'
  have hbuf : t.buf b = { s.buf b with lock := none } := by
    rw [ht']
    exact update_self ..
  have hmode : t.mode c = .drop b := by
    rw [ht']
    exact update_self ..
  have hbufs : ∀ b', b' ≠ b → t.buf b' = s.buf b' := by
    intro b' hb
    rw [ht']
    exact update_of_ne hb ..
  have husers : t.users = s.users := by rw [ht']; rfl
  have hheld : t.held c = (s.held c).eraseP (·.2 = b) := by
    rw [ht']
    exact update_self ..
  have hslots : t.slots c = (s.slots c).erase b := ht ▸ brelse_slots hlock
  have hnow : s.owns c b = 1 := by rw [h.locked, if_pos hlock]
  have hone : (s.slots c).count b = 1 := by
    unfold owns at hnow
    rw [hm] at hnow
    exact hnow
  have hzero : t.owns c b = 0 := by
    unfold owns
    rw [hslots, List.count_erase_self, hone, hmode]
    rfl
  have hholds : ∀ b' k, (s.buf b').Holds k → (t.buf b').Holds k := by
    intro b' k hk
    by_cases hb : b' = b
    · subst hb
      rw [hbuf]
      exact hk
    · rw [hbufs b' hb]
      exact hk
  rw [← ht]
  apply h.move (c := c) (b := b) hbufs
  · exact fun b' _ => congrFun husers b'
  · intro d hd
    rw [ht']
    exact update_of_ne hd ..
  · intro d hd
    rw [ht']
    exact update_of_ne hd ..
  · intro b' hb
    unfold owns
    rw [hslots, hmode, hm, List.count_erase_of_ne hb]
    exact ⟨rfl, if_neg hb.symm⟩
  · rw [hbuf, husers]
    exact h.refcnt b
  · rw [husers, h.users, hnow, hzero, hm, hmode, Nat.zero_add]
    exact (if_pos rfl).symm
  · intro d _
    rw [husers]
  · rw [hzero, hbuf, if_neg (Option.some_ne_none c).symm]
  · intro d hd
    rw [hbuf, hlock]
    exact ⟨fun heq => absurd heq.symm (Option.some_ne_none d), fun heq => absurd (Option.some.inj heq).symm hd⟩
  · exact fun d k _ hk => hholds b k (hk.elim (h.held d k b) (h.asked d k b))
  · intro k b' hk
    rw [hheld, hmode] at hk
    obtain hk | hk := hk
    · exact hholds b' k (h.held c k b' (List.mem_of_mem_eraseP hk))
    · cases hk
  · intro b' hb
    rw [hmode] at hb
    cases hb

/-- The second half of `brelse`. -/
theorem drop (h : Owned s) (hm : s.mode c = .drop b) : Owned (s.drop c b) := by
  obtain ⟨t, ht⟩ : ∃ t, t = s.unref c b := ⟨_, rfl⟩
  have hbuf : t.buf b = { s.buf b with refcnt := (s.buf b).refcnt - 1 } := by
    rw [ht]
    exact update_self ..
  have hmode : t.mode c = .run := by
    rw [ht]
    exact update_self ..
  have hbufs : ∀ b', b' ≠ b → t.buf b' = s.buf b' := by
    intro b' hb
    rw [ht]
    exact update_of_ne hb ..
  have husers : t.users b = (s.users b).erase c := by
    rw [ht]
    exact update_self ..
  have hheld : t.held = s.held := by rw [ht]; rfl
  have howns : ∀ b', t.owns c b' = s.owns c b' := by
    intro b'
    unfold owns slots
    rw [hheld, hmode, hm]
    rfl
  have hwait : (s.mode c).waits b = 1 := by
    rw [hm]
    exact if_pos rfl
  have hmem : c ∈ s.users b := by
    rw [← List.count_pos_iff, h.users, hwait]
    exact Nat.succ_pos _
  have hmoved : Owned t := by
    apply h.move (c := c) (b := b) hbufs
    · intro b' hb
      rw [ht]
      exact update_of_ne hb ..
    · intro d hd
      rw [ht]
      exact update_of_ne hd ..
    · exact fun d _ => congrFun hheld d
    · intro b' hb
      rw [howns, hmode, hm]
      exact ⟨rfl, (if_neg hb.symm).symm⟩
    · rw [hbuf, husers, List.length_erase_of_mem hmem, ← h.refcnt]
    · rw [husers, List.count_erase_self, h.users, hwait, howns, hmode]
      rfl
    · intro d hd
      rw [husers]
      exact List.count_erase_of_ne hd
    · rw [howns, hbuf]
      exact h.locked c b
    · intro d _
      rw [hbuf]
    · intro d k _ hk
      rw [hbuf]
      exact hk.elim (h.held d k b) (h.asked d k b)
    · intro k b' hk
      rw [hheld, hmode] at hk
      obtain hk | hk := hk
      · by_cases hb : b' = b
        · subst hb
          rw [hbuf]
          exact h.held c k b' hk
        · rw [hbufs b' hb]
          exact h.held c k b' hk
      · cases hk
    · intro b' hb
      rw [hmode] at hb
      cases hb
  unfold Sys.drop
  rw [← ht]
  dsimp only
  split
  · exact hmoved.frame rfl rfl rfl (fun _ => rfl) (fun _ => rfl) (fun _ => rfl) fun _ => rfl
  · exact hmoved

end Owned

end Sys

end Xv6.Cache
