import AdvancedXv6.Cache.Owned

/-! What the buffers and the disk hold, and the requests that wait for the drive. -/

namespace Xv6.Cache
open Function Links
open Log (Block sb)

namespace Sys
variable {s t : Sys} {c d n : Nat} {b b' : Slot} {m : Mode} {x : Buf}

structure Content (s : Sys) : Prop where
  unique : ∀ b b' n, (s.buf b).Holds n → (s.buf b').Holds n → b = b'
  device : ∀ b, (s.buf b).valid = true → (s.buf b).dev = rootDev
  dirty : ∀ b, (s.buf b).dirty = true → (s.buf b).valid = true
  data : ∀ b, (s.buf b).valid = true → s.touched b = false → (s.buf b).data = s.written (s.buf b).blockno
  clean : ∀ n, (∀ b, (s.buf b).Holds n → (s.buf b).dirty = false) → s.disk n = s.written n
  touched : ∀ b, s.touched b = true → ∃ c, b ∈ s.slots c ∧ ¬(s.mode c).Io b
  valid : ∀ c b, b ∈ s.slots c → (s.buf b).valid = true
  pinned : ∀ n, s.pinned n = true → ∃ b, (s.buf b).Holds n ∧ (s.buf b).dirty = true ∧ b ∉ s.idequeue

/-- The queue of the drive: the requests for which a process is asleep in `iderw`. -/
structure Queue (s : Sys) : Prop where
  queued : ∀ b ∈ s.idequeue, ∃ c, (s.mode c).Io b
  pending : ∀ c b, (s.mode c).Io b → (b ∈ s.idequeue ↔ (s.buf b).ready = false)
  nodup : s.idequeue.Nodup
  drive : s.drive = s.idequeue.head?.map fun b => command (s.buf b)

theorem Owned.lock_of_io (h : Owned s) (hio : (s.mode c).Io b) : (s.buf b).lock = some c := by
  cases hm : s.mode c with
  | load n b' =>
    rw [hm] at hio
    apply h.holding_of_asks
    rw [hm]
    exact if_pos hio
  | save b' =>
    apply h.holding
    apply h.busy c
    rw [hm] at hio ⊢
    exact hio
  | _ =>
    rw [hm] at hio
    cases hio

/-- Of the processes that have something to do with a buffer, one has its lock. -/
theorem Owned.same (h : Owned s) (hc : b ∈ s.slots c) (hio : (s.mode d).Io b) : d = c :=
  Option.some.inj ((h.lock_of_io hio).symm.trans (h.holding hc))

theorem Owned.holds_of_io (h : Owned s) (hio : (s.mode c).Io b) : ∃ n, (s.buf b).Holds n := by
  cases hm : s.mode c with
  | load n b' =>
    rw [hm] at hio
    refine ⟨n, h.asked c n b ?_⟩
    rw [hm]
    exact ⟨rfl, hio⟩
  | save b' =>
    have hmem : b ∈ s.slots c := by
      apply h.busy c
      rw [hm] at hio ⊢
      exact hio
    obtain ⟨p, hp, rfl⟩ := List.mem_map.mp hmem
    exact ⟨p.1, h.held c p.1 p.2 hp⟩
  | _ =>
    rw [hm] at hio
    cases hio

/-- The drive has nothing to do with a buffer that its holder can change. -/
theorem Queue.not_mem (h : Queue s) (ho : Owned s) (hb : b ∈ s.slots c) (hio : ¬(s.mode c).Io b) :
    b ∉ s.idequeue := by
  intro hq
  obtain ⟨d, hd⟩ := h.queued b hq
  exact hio (ho.same hb hd ▸ hd)

/-- A step that leaves the flags and the data of the buffers. -/
theorem Content.frame (h : Content s) (hvalid : ∀ b, (t.buf b).valid = (s.buf b).valid)
    (hdirty : ∀ b, (t.buf b).dirty = (s.buf b).dirty) (hdev : ∀ b, (t.buf b).dev = (s.buf b).dev)
    (hno : ∀ b, (t.buf b).blockno = (s.buf b).blockno) (hdata : ∀ b, (t.buf b).data = (s.buf b).data)
    (hdisk : t.disk = s.disk) (htouched : t.touched = s.touched) (hwritten : t.written = s.written)
    (hpinned : ∀ n, t.pinned n = true → s.pinned n = true)
    (hslots : ∀ c b, b ∈ t.slots c → b ∈ s.slots c ∨ (s.buf b).valid = true)
    (hkept : ∀ c b, s.touched b = true → b ∈ s.slots c → ¬(s.mode c).Io b → b ∈ t.slots c ∧ ¬(t.mode c).Io b)
    (hqueue : ∀ b, (s.buf b).dirty = true → b ∈ t.idequeue →
      b ∈ s.idequeue ∨ s.pinned (s.buf b).blockno = false) : Content t := by
  have hholds : ∀ b n, (t.buf b).Holds n ↔ (s.buf b).Holds n := by
    intro b n
    unfold Buf.Holds
    rw [hdev, hno]
  constructor
  · intro b b' n hb hb'
    exact h.unique b b' n ((hholds b n).mp hb) ((hholds b' n).mp hb')
  · intro b hb
    rw [hvalid] at hb
    rw [hdev]
    exact h.device b hb
  · intro b hb
    rw [hdirty] at hb
    rw [hvalid]
    exact h.dirty b hb
  · intro b hb ht
    rw [hvalid] at hb
    rw [htouched] at ht
    rw [hdata, hwritten, hno]
    exact h.data b hb ht
  · intro n hn
    rw [hdisk, hwritten]
    apply h.clean n
    intro b hb
    rw [← hdirty]
    exact hn b ((hholds b n).mpr hb)
  · intro b hb
    rw [htouched] at hb
    obtain ⟨c, hc, hio⟩ := h.touched b hb
    exact ⟨c, hkept c b hb hc hio⟩
  · intro c b hb
    rw [hvalid]
    exact (hslots c b hb).elim (h.valid c b) id
  · intro n hn
    obtain ⟨b, hb, hd, hq⟩ := h.pinned n (hpinned n hn)
    refine ⟨b, (hholds b n).mpr hb, (hdirty b).trans hd, fun hmem => ?_⟩
    obtain hmem | hno := hqueue b hd hmem
    · exact hq hmem
    · rw [hb.2, hpinned n hn] at hno
      cases hno

theorem Queue.frame (h : Queue s) (hq : t.idequeue = s.idequeue) (hdrive : t.drive = s.drive)
    (hio : ∀ d b, (t.mode d).Io b ↔ (s.mode d).Io b)
    (hbuf : ∀ d b, (s.mode d).Io b → (t.buf b).ready = (s.buf b).ready ∧ command (t.buf b) = command (s.buf b)) :
    Queue t := by
  constructor
  · intro b hb
    rw [hq] at hb
    obtain ⟨c, hc⟩ := h.queued b hb
    exact ⟨c, (hio c b).mpr hc⟩
  · intro c b hb
    have hb := (hio c b).mp hb
    rw [hq, (hbuf c b hb).1]
    exact h.pending c b hb
  · rw [hq]
    exact h.nodup
  · rw [hq, hdrive, h.drive]
    cases hl : s.idequeue with
    | nil => rfl
    | cons b l =>
      obtain ⟨c, hc⟩ := h.queued b (hl ▸ List.mem_cons_self)
      exact congrArg some (hbuf c b hc).2.symm

/-- A process that is done with its request. -/
theorem Queue.leave (h : Queue s) (hmode : t.mode = update s.mode c .run) (hq : t.idequeue = s.idequeue)
    (hdrive : t.drive = s.drive) (hbuf : t.buf = s.buf) (hio : ∀ b, (s.mode c).Io b → (s.buf b).ready = true) :
    Queue t := by
  have hne : ∀ d, d ≠ c → t.mode d = s.mode d := by
    intro d hd
    rw [hmode]
    exact update_of_ne hd ..
  have hc : t.mode c = .run := by
    rw [hmode]
    exact update_self ..
  constructor
  · intro b hb
    rw [hq] at hb
    obtain ⟨d, hd⟩ := h.queued b hb
    refine ⟨d, ?_⟩
    rw [hne d]
    · exact hd
    · intro heq
      subst heq
      have hready := (h.pending d b hd).mp hb
      rw [hio b hd] at hready
      cases hready
  · intro d b hd
    have hdc : d ≠ c := by
      intro heq
      rw [heq, hc] at hd
      cases hd
    rw [hne d hdc] at hd
    rw [hq, hbuf]
    exact h.pending d b hd
  · rw [hq]
    exact h.nodup
  · rw [hq, hdrive, hbuf]
    exact h.drive

section Take
variable (hm : s.mode c = .run)
include hm

theorem take_io (d : Nat) (b' : Slot) : ((s.take c n b x).mode d).Io b' ↔ (s.mode d).Io b' := by
  by_cases hd : d = c
  · subst hd
    rw [show (s.take d n b x).mode d = .lock n b from update_self .., hm]
    exact Iff.rfl
  · rw [show (s.take c n b x).mode d = s.mode d from update_of_ne hd ..]

theorem Content.hit (h : Content s) (k : Nat) : Content (s.take c n b { s.buf b with refcnt := k }) := by
  have hbuf : ∀ (f : Buf → Block × Bool × Bool × Nat × Nat),
      (∀ x k, f { x with refcnt := k } = f x) → ∀ b', f ((s.take c n b { s.buf b with refcnt := k }).buf b') =
        f (s.buf b') := by
    intro f hf b'
    by_cases hb : b' = b
    · subst hb
      exact (congrArg f (update_self ..)).trans (hf ..)
    · exact congrArg f (update_of_ne hb ..)
  have hall := hbuf (fun x => (x.data, x.valid, x.dirty, x.dev, x.blockno)) fun _ _ => rfl
  apply h.frame
  · exact fun b' => congrArg (·.2.1) (hall b')
  · exact fun b' => congrArg (·.2.2.1) (hall b')
  · exact fun b' => congrArg (·.2.2.2.1) (hall b')
  · exact fun b' => congrArg (·.2.2.2.2) (hall b')
  · exact fun b' => congrArg (·.1) (hall b')
  · rfl
  · rfl
  · rfl
  · exact fun _ => id
  · exact fun _ _ => .inl
  · exact fun d b' _ hd hio => ⟨hd, fun hio' => hio ((take_io hm d b').mp hio')⟩
  · exact fun _ _ => .inl

/-- A buffer that nobody uses is taken for a block that no buffer has. -/
theorem Content.recycle (h : Content s) (ho : Owned s) (hfree : (s.buf b).refcnt = 0)
    (hclean : (s.buf b).dirty = false) (hnew : ∀ b', ¬(s.buf b').Holds n)
    (hx : x.Holds n ∧ x.valid = false ∧ x.dirty = false) : Content (s.take c n b x) := by
  obtain ⟨hxn, hxv, hxd⟩ := hx
  have hb : (s.take c n b x).buf b = x := update_self ..
  have hbufs : ∀ b', b' ≠ b → (s.take c n b x).buf b' = s.buf b' := fun b' hb' => update_of_ne hb' ..
  have hslots : ∀ d, b ∉ s.slots d := by
    intro d hd
    exact absurd (ho.holding hd) (by rw [(ho.free hfree).2.2]; exact (Option.some_ne_none d).symm)
  have hxold : ∀ k, x.Holds k → k = n := fun k hk => hk.2.symm.trans hxn.2
  constructor
  · intro b₁ b₂ k h₁ h₂
    by_cases hb₁ : b₁ = b
    · by_cases hb₂ : b₂ = b
      · rw [hb₁, hb₂]
      · rw [hb₁, hb] at h₁
        rw [hbufs b₂ hb₂, hxold k h₁] at h₂
        exact absurd h₂ (hnew b₂)
    · rw [hbufs b₁ hb₁] at h₁
      by_cases hb₂ : b₂ = b
      · rw [hb₂, hb] at h₂
        rw [hxold k h₂] at h₁
        exact absurd h₁ (hnew b₁)
      · rw [hbufs b₂ hb₂] at h₂
        exact h.unique b₁ b₂ k h₁ h₂
  · intro b' hv
    by_cases hb' : b' = b
    · rw [hb', hb]
      exact hxn.1
    · rw [hbufs b' hb'] at hv ⊢
      exact h.device b' hv
  · intro b' hd
    by_cases hb' : b' = b
    · rw [hb', hb, hxd] at hd
      cases hd
    · rw [hbufs b' hb'] at hd ⊢
      exact h.dirty b' hd
  · intro b' hv ht
    by_cases hb' : b' = b
    · rw [hb', hb, hxv] at hv
      cases hv
    · rw [hbufs b' hb'] at hv ⊢
      exact h.data b' hv ht
  · intro k hk
    apply h.clean k
    intro b' hholds
    by_cases hb' : b' = b
    · rw [hb']
      exact hclean
    · have hold := hk b'
      rw [hbufs b' hb'] at hold
      exact hold hholds
  · intro b' ht
    obtain ⟨d, hd, hio⟩ := h.touched b' ht
    exact ⟨d, hd, fun hio' => hio ((take_io hm d b').mp hio')⟩
  · intro d b' hd
    by_cases hb' : b' = b
    · exact absurd (hb' ▸ hd) (hslots d)
    · rw [hbufs b' hb']
      exact h.valid d b' hd
  · intro k hk
    obtain ⟨b', hholds, hd, hq⟩ := h.pinned k hk
    have hb' : b' ≠ b := by
      intro heq
      rw [heq, hclean] at hd
      cases hd
    refine ⟨b', ?_, ?_, hq⟩
    · rw [hbufs b' hb']
      exact hholds
    · rw [hbufs b' hb']
      exact hd

theorem Queue.take (h : Queue s) (hx : ∀ d, (s.mode d).Io b → x.ready = (s.buf b).ready ∧ command x = command (s.buf b)) :
    Queue (s.take c n b x) := by
  apply h.frame (t := s.take c n b x) rfl rfl (take_io hm)
  intro d b' hd
  by_cases hb : b' = b
  · subst hb
    rw [show (s.take c n b' x).buf b' = x from update_self ..]
    exact hx d hd
  · rw [show (s.take c n b x).buf b' = s.buf b' from update_of_ne hb ..]
    exact ⟨rfl, rfl⟩

end Take

section Change
variable (ho : Owned s) (hc : b ∈ s.slots c) (hio : ¬(s.mode c).Io b)
include ho hc hio

theorem Owned.no_io (d : Nat) : ¬(s.mode d).Io b := fun hd => hio (ho.same hc hd ▸ hd)

omit ho in
theorem Content.modify (h : Content s) (x : Block) : Content (s.modify b x) := by
  have hb : (s.modify b x).buf b = { s.buf b with data := x } := update_self ..
  have hbufs : ∀ b', b' ≠ b → (s.modify b x).buf b' = s.buf b' := fun b' hb' => update_of_ne hb' ..
  have hsame : ∀ (f : Buf → Bool × Bool × Nat × Nat), (∀ x d, f { x with data := d } = f x) →
      ∀ b', f ((s.modify b x).buf b') = f (s.buf b') := by
    intro f hf b'
    by_cases hb' : b' = b
    · rw [hb', hb, hf]
    · rw [hbufs b' hb']
  have hall := hsame (fun x => (x.valid, x.dirty, x.dev, x.blockno)) fun _ _ => rfl
  have hvalid := fun b' => congrArg (·.1) (hall b')
  have hdirty := fun b' => congrArg (·.2.1) (hall b')
  have hdev := fun b' => congrArg (·.2.2.1) (hall b')
  have hno := fun b' => congrArg (·.2.2.2) (hall b')
  dsimp only at hvalid hdirty hdev hno
  have hholds : ∀ b' n, ((s.modify b x).buf b').Holds n ↔ (s.buf b').Holds n := by
    intro b' n
    unfold Buf.Holds
    rw [hdev, hno]
  constructor
  · exact fun b₁ b₂ n h₁ h₂ => h.unique b₁ b₂ n ((hholds b₁ n).mp h₁) ((hholds b₂ n).mp h₂)
  · intro b' hv
    rw [hvalid] at hv
    rw [hdev]
    exact h.device b' hv
  · intro b' hd
    rw [hdirty] at hd
    rw [hvalid]
    exact h.dirty b' hd
  · intro b' hv ht
    have hb' : b' ≠ b := by
      intro heq
      have hnow : (s.modify b x).touched b = true := update_self ..
      rw [heq, hnow] at ht
      cases ht
    rw [hbufs b' hb'] at hv ⊢
    exact h.data b' hv ((update_of_ne hb' ..).symm.trans ht)
  · intro n hn
    apply h.clean n
    intro b' hb'
    rw [← hdirty]
    exact hn b' ((hholds b' n).mpr hb')
  · intro b' ht
    by_cases hb' : b' = b
    · rw [hb']
      exact ⟨c, hc, hio⟩
    · exact h.touched b' ((update_of_ne hb' ..).symm.trans ht)
  · intro d b' hd
    rw [hvalid]
    exact h.valid d b' hd
  · intro n hn
    obtain ⟨b', hb', hd, hq⟩ := h.pinned n hn
    exact ⟨b', (hholds b' n).mpr hb', (hdirty b').trans hd, hq⟩

theorem Queue.modify (h : Queue s) (x : Block) : Queue (s.modify b x) := by
  apply h.frame (t := s.modify b x) rfl rfl fun _ _ => Iff.rfl
  intro d b' hd
  have hb : b' ≠ b := by
    intro heq
    exact ho.no_io hc hio d (heq ▸ hd)
  rw [show (s.modify b x).buf b' = s.buf b' from update_of_ne hb ..]
  exact ⟨rfl, rfl⟩

theorem Content.mark (h : Content s) (hq : Queue s) (pin : Bool) : Content (s.mark b pin) := by
  have hb : (s.mark b pin).buf b = { s.buf b with dirty := true } := update_self ..
  have hbufs : ∀ b', b' ≠ b → (s.mark b pin).buf b' = s.buf b' := fun b' hb' => update_of_ne hb' ..
  have hsame : ∀ (f : Buf → Block × Bool × Nat × Nat), (∀ x d, f { x with dirty := d } = f x) →
      ∀ b', f ((s.mark b pin).buf b') = f (s.buf b') := by
    intro f hf b'
    by_cases hb' : b' = b
    · rw [hb', hb, hf]
    · rw [hbufs b' hb']
  have hall := hsame (fun x => (x.data, x.valid, x.dev, x.blockno)) fun _ _ => rfl
  have hdata := fun b' => congrArg (·.1) (hall b')
  have hvalid := fun b' => congrArg (·.2.1) (hall b')
  have hdev := fun b' => congrArg (·.2.2.1) (hall b')
  have hno := fun b' => congrArg (·.2.2.2) (hall b')
  dsimp only at hdata hvalid hdev hno
  have hholds : ∀ b' n, ((s.mark b pin).buf b').Holds n ↔ (s.buf b').Holds n := by
    intro b' n
    unfold Buf.Holds
    rw [hdev, hno]
  have hown : (s.buf b).Holds (s.buf b).blockno := ⟨h.device b (h.valid c b hc), rfl⟩
  have hwritten : (s.mark b pin).written (s.buf b).blockno = (s.buf b).data := update_self ..
  have hothers : ∀ n, n ≠ (s.buf b).blockno →
      (s.mark b pin).written n = s.written n ∧ (s.mark b pin).pinned n = s.pinned n :=
    fun n hn => ⟨update_of_ne hn .., update_of_ne hn ..⟩
  constructor
  · exact fun b₁ b₂ n h₁ h₂ => h.unique b₁ b₂ n ((hholds b₁ n).mp h₁) ((hholds b₂ n).mp h₂)
  · intro b' hv
    rw [hvalid] at hv
    rw [hdev]
    exact h.device b' hv
  · intro b' hd
    rw [hvalid]
    by_cases hb' : b' = b
    · rw [hb']
      exact h.valid c b hc
    · rw [hbufs b' hb'] at hd
      exact h.dirty b' hd
  · intro b' hv ht
    rw [hvalid] at hv
    rw [hdata, hno]
    by_cases hb' : b' = b
    · rw [hb', hwritten]
    · have hne : (s.buf b').blockno ≠ (s.buf b).blockno :=
        fun heq => hb' (h.unique b' b (s.buf b).blockno ⟨h.device b' hv, heq⟩ hown)
      rw [(hothers _ hne).1]
      exact h.data b' hv ((update_of_ne hb' ..).symm.trans ht)
  · intro n hn
    have hne : n ≠ (s.buf b).blockno := by
      intro heq
      have hd := hn b ((hholds b n).mpr (heq ▸ hown))
      rw [hb] at hd
      cases hd
    rw [(hothers n hne).1]
    apply h.clean n
    intro b' hb'
    have hbb : b' ≠ b := fun heq => hne (hb'.2.symm.trans (by rw [heq]))
    have hd := hn b' ((hholds b' n).mpr hb')
    rw [hbufs b' hbb] at hd
    exact hd
  · intro b' ht
    have hb' : b' ≠ b := by
      intro heq
      have hnow : (s.mark b pin).touched b = false := update_self ..
      rw [heq, hnow] at ht
      cases ht
    exact h.touched b' ((update_of_ne hb' ..).symm.trans ht)
  · intro d b' hd
    rw [hvalid]
    exact h.valid d b' hd
  · intro n hn
    by_cases hne : n = (s.buf b).blockno
    · refine ⟨b, (hholds b n).mpr (hne ▸ hown), ?_, hq.not_mem ho hc hio⟩
      rw [hb]
    · rw [(hothers n hne).2] at hn
      obtain ⟨b', hb', hd, hmem⟩ := h.pinned n hn
      have hbb : b' ≠ b := fun heq => hne (hb'.2.symm.trans (by rw [heq]))
      refine ⟨b', (hholds b' n).mpr hb', ?_, hmem⟩
      rw [hbufs b' hbb]
      exact hd

theorem Queue.mark (h : Queue s) (pin : Bool) : Queue (s.mark b pin) := by
  apply h.frame (t := s.mark b pin) rfl rfl fun _ _ => Iff.rfl
  intro d b' hd
  have hb : b' ≠ b := by
    intro heq
    exact ho.no_io hc hio d (heq ▸ hd)
  rw [show (s.mark b pin).buf b' = s.buf b' from update_of_ne hb ..]
  exact ⟨rfl, rfl⟩

end Change

/-- The state with the request for `b` at the end of the queue. -/
def enqueue (s : Sys) (c : Nat) (b : Slot) (m : Mode) : Sys :=
  { s.setMode c m with
    idequeue := s.idequeue ++ [b]
    drive := (s.idequeue ++ [b]).head?.map fun b => command (s.buf b) }

theorem idestart_eq (hp : (s.idestart b).panic = none) :
    s.idestart b = { s with drive := some (command (s.buf b)) } := by
  unfold idestart at hp ⊢
  by_cases hb : fsSize ≤ (s.buf b).blockno
  · rw [if_pos hb] at hp
    cases hp
  · rw [if_neg hb]

theorem Queue.iderw_eq (h : Queue s) (hb : b ∉ s.idequeue) (hp : (s.iderw c b m).panic = none) :
    s.iderw c b m = s.enqueue c b m ∧ (s.buf b).ready = false := by
  unfold iderw at hp ⊢
  by_cases hhold : s.holding c b
  · rw [if_neg (not_not_intro hhold)] at hp ⊢
    by_cases hready : (s.buf b).ready = true
    · rw [if_pos hready] at hp
      cases hp
    · rw [if_neg hready] at hp ⊢
      refine ⟨?_, Bool.eq_false_iff.mpr hready⟩
      cases hq : s.idequeue with
      | nil =>
        dsimp only at hp ⊢
        have hfirst : ([] ++ [b]).head? = some b := rfl
        rw [hq] at hp
        rw [if_pos hfirst] at hp ⊢
        unfold enqueue
        rw [idestart_eq hp, hq]
        rfl
      | cons b' l =>
        have hne : b' ≠ b := fun heq => hb (by rw [hq, heq]; exact List.mem_cons_self)
        have hfirst : (b' :: l ++ [b]).head? ≠ some b := fun heq => hne (Option.some.inj heq)
        dsimp only
        rw [if_neg hfirst]
        unfold enqueue
        have hdrive := h.drive
        rw [hq] at hdrive ⊢
        rw [show s.setMode c m = { s.setMode c m with drive := s.drive } from rfl, hdrive]
        rfl
  · rw [if_pos hhold] at hp
    cases hp

theorem Queue.enqueue (h : Queue s) (hready : (s.buf b).ready = false) (hio : ∀ d, ¬(s.mode d).Io b)
    (hidle : ∀ b', ¬(s.mode c).Io b') (hm : ∀ b', m.Io b' ↔ b = b') : Queue (s.enqueue c b m) := by
  have hmode : (s.enqueue c b m).mode c = m := update_self ..
  have hne : ∀ d, d ≠ c → (s.enqueue c b m).mode d = s.mode d := fun d hd => update_of_ne hd ..
  have hb : b ∉ s.idequeue := by
    intro hmem
    obtain ⟨d, hd⟩ := h.queued b hmem
    exact hio d hd
  constructor
  · intro b' hb'
    obtain hb' | hb' := List.mem_append.mp hb'
    · obtain ⟨d, hd⟩ := h.queued b' hb'
      refine ⟨d, ?_⟩
      rw [hne d fun heq => hidle b' (heq ▸ hd)]
      exact hd
    · refine ⟨c, ?_⟩
      rw [hmode, hm]
      exact (List.mem_singleton.mp hb').symm
  · intro d b' hd
    by_cases hdc : d = c
    · rw [hdc, hmode, hm] at hd
      subst hd
      exact ⟨fun _ => hready, fun _ => List.mem_append_right _ (List.mem_singleton_self b)⟩
    · rw [hne d hdc] at hd
      have hbb : b' ≠ b := fun heq => hio d (heq ▸ hd)
      refine Iff.trans ?_ (h.pending d b' hd)
      refine List.mem_append.trans ⟨fun hor => ?_, .inl⟩
      exact hor.elim id fun hmem => absurd (List.mem_singleton.mp hmem) hbb
  · exact List.nodup_append.mpr ⟨h.nodup, List.pairwise_singleton .., fun b' hb' e he heq =>
      hb (List.mem_singleton.mp he ▸ heq ▸ hb')⟩
  · rfl

/-- The state after the drive has done the request for `b`, the first of the queue. -/
def served (s : Sys) (b : Slot) (queue : List Slot) : Sys :=
  let x := s.buf b
  let disk := if x.dirty then update s.disk x.blockno x.data else s.disk
  { s.setBuf b { x with data := if x.dirty then x.data else disk x.blockno, valid := true, dirty := false } with
    disk := disk
    idequeue := queue
    drive := queue.head?.map fun b => command (s.buf b) }

theorem Queue.ideintr_eq {cmd : Command} (h : Queue s) (hcmd : s.drive = some cmd)
    (hp : (s.ideintr cmd).panic = none) : ∃ b queue, s.idequeue = b :: queue ∧ s.ideintr cmd = s.served b queue := by
  have hdrive := h.drive
  rw [hcmd] at hdrive
  cases hq : s.idequeue with
  | nil =>
    rw [hq] at hdrive
    cases hdrive
  | cons b queue =>
    rw [hq] at hdrive
    obtain rfl := Option.some.inj hdrive
    refine ⟨b, queue, rfl, ?_⟩
    have hnodup := h.nodup
    rw [hq, List.nodup_cons] at hnodup
    unfold ideintr at hp ⊢
    rw [hq] at hp ⊢
    have hdisk : (command (s.buf b)).run s.disk =
        if (s.buf b).dirty then update s.disk (s.buf b).blockno (s.buf b).data else s.disk := by
      unfold Command.run command
      cases (s.buf b).dirty <;> rfl
    dsimp only at hp ⊢
    rw [hdisk] at hp ⊢
    unfold served
    cases queue with
    | nil => rfl
    | cons b' queue =>
      have hne : b' ≠ b := fun heq => hnodup.1 (by rw [heq]; exact List.mem_cons_self)
      dsimp only at hp ⊢
      rw [idestart_eq hp]
      unfold setBuf
      dsimp only
      rw [update_of_ne hne]
      rfl

section Served
variable {queue : List Slot}

theorem served_buf (s : Sys) (b : Slot) (queue : List Slot) : (s.served b queue).buf b =
    { s.buf b with
      data := if (s.buf b).dirty then (s.buf b).data else s.disk (s.buf b).blockno
      valid := true
      dirty := false } := by
  unfold served setBuf
  dsimp only
  rw [update_self]
  cases (s.buf b).dirty <;> rfl

theorem Queue.served (h : Queue s) (hq : s.idequeue = b :: queue) : Queue (s.served b queue) := by
  have hnodup := h.nodup
  rw [hq, List.nodup_cons] at hnodup
  have hbufs : ∀ b', b' ≠ b → (s.served b queue).buf b' = s.buf b' := fun b' hb' => update_of_ne hb' ..
  constructor
  · intro b' hb'
    apply h.queued b'
    rw [hq]
    exact List.mem_cons_of_mem b hb'
  · intro d b' hd
    by_cases hb' : b' = b
    · subst hb'
      rw [served_buf]
      exact ⟨fun hmem => absurd hmem hnodup.1, fun hready => absurd hready.symm Bool.false_ne_true⟩
    · rw [hbufs b' hb', ← h.pending d b' hd, hq, List.mem_cons]
      exact ⟨.inr, fun hor => hor.resolve_left hb'⟩
  · exact hnodup.2
  · cases hl : queue with
    | nil => rfl
    | cons b' l =>
      have hb' : b' ≠ b := fun heq => hnodup.1 (by rw [hl, heq]; exact List.mem_cons_self)
      rw [hl] at hbufs
      exact congrArg (fun x => some (command x)) (hbufs b' hb').symm

theorem Content.served (h : Content s) (ho : Owned s) (hqueue : Queue s) (hq : s.idequeue = b :: queue) :
    Content (s.served b queue) := by
  obtain ⟨c, hio⟩ := hqueue.queued b (hq ▸ List.mem_cons_self)
  obtain ⟨n, hn⟩ := ho.holds_of_io hio
  have hb := served_buf s b queue
  have hbufs : ∀ b', b' ≠ b → (s.served b queue).buf b' = s.buf b' := fun b' hb' => update_of_ne hb' ..
  have hholds : ∀ b' k, ((s.served b queue).buf b').Holds k ↔ (s.buf b').Holds k := by
    intro b' k
    by_cases hb' : b' = b
    · rw [hb', hb]
      exact Iff.rfl
    · rw [hbufs b' hb']
  have hsame : s.touched b = false := by
    rw [← Bool.not_eq_true]
    intro ht
    obtain ⟨d, hd, hnio⟩ := h.touched b ht
    exact hnio (ho.same hd hio ▸ hio)
  -- what the buffer holds now, and what the disk does
  have hdata : ((s.served b queue).buf b).data = s.written n := by
    rw [hb]
    dsimp only
    by_cases hd : (s.buf b).dirty = true
    · rw [if_pos hd, h.data b (h.dirty b hd) hsame, hn.2]
    · rw [if_neg hd, hn.2]
      apply h.clean n
      intro b' hb'
      rw [h.unique b' b n hb' hn]
      exact Bool.eq_false_iff.mpr hd
  have hdisk : ∀ k, k ≠ n → (s.served b queue).disk k = s.disk k := by
    intro k hk
    unfold Sys.served
    dsimp only
    split
    · exact update_of_ne (fun heq => hk (heq.trans hn.2)) ..
    · rfl
  have hstored : (s.served b queue).disk n = s.written n := by
    rw [← hdata, hb]
    unfold Sys.served
    dsimp only
    rw [← hn.2]
    split
    · exact update_self ..
    · rfl
  constructor
  · exact fun b₁ b₂ k h₁ h₂ => h.unique b₁ b₂ k ((hholds b₁ k).mp h₁) ((hholds b₂ k).mp h₂)
  · intro b' hv
    by_cases hb' : b' = b
    · rw [hb', hb]
      exact hn.1
    · rw [hbufs b' hb'] at hv ⊢
      exact h.device b' hv
  · intro b' hd
    by_cases hb' : b' = b
    · rw [hb', hb]
    · rw [hbufs b' hb'] at hd ⊢
      exact h.dirty b' hd
  · intro b' hv ht
    by_cases hb' : b' = b
    · have hno : ((s.served b queue).buf b).blockno = n := ((hholds b n).mpr hn).2
      rw [hb', hdata, hno]
      rfl
    · rw [hbufs b' hb'] at hv ⊢
      exact h.data b' hv ht
  · intro k hk
    by_cases hkn : k = n
    · rw [hkn]
      exact hstored
    · rw [hdisk k hkn]
      apply h.clean k
      intro b' hb'
      have hne : b' ≠ b := fun heq => hkn ((heq ▸ hb' : (s.buf b).Holds k).2.symm.trans hn.2)
      have hd := hk b' ((hholds b' k).mpr hb')
      rw [hbufs b' hne] at hd
      exact hd
  · exact h.touched
  · intro d b' hd
    by_cases hb' : b' = b
    · rw [hb', hb]
    · rw [hbufs b' hb']
      exact h.valid d b' hd
  · intro k hk
    obtain ⟨b', hb', hd, hmem⟩ := h.pinned k hk
    rw [hq] at hmem
    have hne : b' ≠ b := fun heq => hmem (by rw [heq]; exact List.mem_cons_self)
    refine ⟨b', (hholds b' k).mpr hb', ?_, fun hin => hmem (List.mem_cons_of_mem b hin)⟩
    rw [hbufs b' hne]
    exact hd

end Served

end Sys

end Xv6.Cache
