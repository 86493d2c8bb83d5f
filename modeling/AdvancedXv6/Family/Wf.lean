import AdvancedXv6.Family.State

/-! The invariant of the process table: who is whose child, and who sleeps in `wait`. -/

namespace Xv6.Family
open Function

/-- A process that runs, or will run again. -/
def ProcState.Live : ProcState → Prop
  | .sleeping | .runnable | .running => True
  | _ => False

instance : DecidablePred ProcState.Live := fun s => by
  cases s <;> first | exact .isTrue trivial | exact .isFalse id

/-- In a system call that has not yet been left. -/
def Activity.InCall : Activity → Prop
  | .kernel | .wait => True
  | _ => False

/-- `b` is `a` in the same family. -/
structure Proc.Soft (a b : Proc) : Prop where
  pid : b.pid = a.pid
  parent : b.parent = a.parent
  state : b.state = a.state ∨ a.state.Live ∧ b.state.Live

theorem Proc.Soft.refl (a : Proc) : a.Soft a := ⟨rfl, rfl, .inl rfl⟩

theorem Proc.Soft.live {a b : Proc} (h : a.Soft b) : b.state.Live ↔ a.state.Live := by
  obtain heq | hlive := h.state
  · rw [heq]
  · exact iff_of_true hlive.2 hlive.1

theorem Proc.Soft.eq_of_not_live {a b : Proc} (h : a.Soft b) {s : ProcState} (hs : ¬s.Live) :
    b.state = s ↔ a.state = s := by
  obtain heq | hlive := h.state
  · rw [heq]
  · exact iff_of_false (fun hb => hs (hb ▸ hlive.2)) fun ha => hs (ha ▸ hlive.1)

namespace Table
variable {k t : Table} {p q c np : Slot} {e : Event} {n : Nat}

def Live (k : Table) (p : Slot) : Prop := (k.proc p).state.Live

def Zombie (k : Table) (p : Slot) : Prop := (k.proc p).state = .zombie

/-- `wait` would find nothing. -/
def NoZombie (k : Table) (p : Slot) : Prop := ∀ q, (k.proc q).parent = some p → ¬k.Zombie q

/-- `f` has made the process `n`, and `f` or, after its exit, init is `r`. -/
def Heir (k : Table) (n r : Nat) : Prop := ∃ f, (n, f) ∈ k.born ∧ (r = f ∨ r = 1 ∧ f ∈ k.exited)

structure Wf (k : Table) : Prop where
  init : k.Live k.initproc ∧ (k.proc k.initproc).pid = 1 ∧ (k.proc k.initproc).parent = none
  stays : (k.proc k.initproc).activity ≠ .exit
  parent : ∀ p q, (k.proc p).parent = some q → k.Live q ∧ q ≠ p
  child : ∀ p, p ≠ k.initproc → k.Live p ∨ k.Zombie p →
    ∃ q, (k.proc p).parent = some q ∧ k.Heir (k.proc p).pid (k.proc q).pid
  unused : ∀ p, (k.proc p).state = .unused → (k.proc p).parent = none
  fork : ∀ p np b, k.Live p → (k.proc p).activity = .fork np b →
    (k.proc np).state = .embryo ∧ (k.proc np).parent = if b then some p else none
  forks : ∀ p q np b b', k.Live p → k.Live q → (k.proc p).activity = .fork np b →
    (k.proc q).activity = .fork np b' → p = q
  wait : ∀ p, (k.proc p).state = .sleeping → (k.proc p).activity = .wait →
    (k.proc p).chan = some (.proc p) ∧ k.NoZombie p
  nextpid : ∀ p, (k.proc p).pid < k.nextpid
  pid : ∀ p, (k.proc p).state ≠ .unused → 0 < (k.proc p).pid
  distinct : ∀ p q, 0 < (k.proc p).pid → (k.proc p).pid = (k.proc q).pid → p = q
  killed : ∀ p, k.Live p → (k.proc p).activity.InCall → (k.proc p).killed = true → (k.proc p).pid ∈ k.kills
  exited : ∀ n, n ∈ k.exited ↔ (∃ p, k.Zombie p ∧ (k.proc p).pid = n) ∨ n ∈ k.reaped.map Prod.fst
  reaped : ∀ x ∈ k.reaped, x.1 < k.nextpid ∧ (∀ p, (k.proc p).state ≠ .unused → (k.proc p).pid ≠ x.1) ∧
    k.Heir x.1 x.2
  nodup : (k.reaped.map Prod.fst).Nodup

theorem not_live_zombie (h : k.Zombie p) : ¬k.Live p := by
  unfold Live
  rw [h]
  exact id

theorem not_live_embryo (h : (k.proc p).state = .embryo) : ¬k.Live p := by
  unfold Live
  rw [h]
  exact id

theorem live_of_running (h : (k.proc p).state = .running) : k.Live p := by
  unfold Live
  rw [h]
  exact trivial

theorem Live.ne_unused (h : k.Live p) : (k.proc p).state ≠ .unused := by
  intro hs
  unfold Live at h
  rw [hs] at h
  exact h

/-! ### Steps that change no relation -/

/-- Nobody is made, exits or is freed. -/
structure Soft (k t : Table) : Prop where
  proc : ∀ p, (k.proc p).Soft (t.proc p)
  nextpid : t.nextpid = k.nextpid
  initproc : t.initproc = k.initproc
  born : t.born = k.born
  exited : t.exited = k.exited
  reaped : t.reaped = k.reaped

namespace Soft

theorem live (h : Soft k t) (p : Slot) : t.Live p ↔ k.Live p := (h.proc p).live

theorem zombie (h : Soft k t) (p : Slot) : t.Zombie p ↔ k.Zombie p := (h.proc p).eq_of_not_live id

theorem noZombie (h : Soft k t) (p : Slot) : t.NoZombie p ↔ k.NoZombie p := by
  unfold NoZombie
  simp only [(h.proc _).parent, h.zombie]

theorem heir (h : Soft k t) (n r : Nat) : t.Heir n r ↔ k.Heir n r := by
  unfold Heir
  rw [h.born, h.exited]

end Soft

theorem Wf.soft (h : k.Wf) (hs : Soft k t) (hexit : (t.proc k.initproc).activity ≠ .exit)
    (hfork : ∀ p np b, t.Live p → (t.proc p).activity = .fork np b →
      (k.proc np).state = .embryo ∧ (k.proc np).parent = if b then some p else none)
    (hforks : ∀ p q np b b', t.Live p → t.Live q → (t.proc p).activity = .fork np b →
      (t.proc q).activity = .fork np b' → p = q)
    (hwait : ∀ p, (t.proc p).state = .sleeping → (t.proc p).activity = .wait →
      (t.proc p).chan = some (.proc p) ∧ k.NoZombie p)
    (hkilled : ∀ p, t.Live p → (t.proc p).activity.InCall → (t.proc p).killed = true → (k.proc p).pid ∈ t.kills) :
    t.Wf := by
  constructor
  · rw [hs.initproc, hs.live, (hs.proc _).pid, (hs.proc _).parent]
    exact h.init
  · rw [hs.initproc]
    exact hexit
  · intro p q hq
    rw [(hs.proc p).parent] at hq
    rw [hs.live]
    exact h.parent p q hq
  · intro p hp hlive
    rw [hs.initproc] at hp
    rw [hs.live, hs.zombie] at hlive
    obtain ⟨q, hq, hheir⟩ := h.child p hp hlive
    refine ⟨q, (hs.proc p).parent.trans hq, ?_⟩
    rw [hs.heir, (hs.proc p).pid, (hs.proc q).pid]
    exact hheir
  · intro p hp
    rw [(hs.proc p).parent]
    exact h.unused p (((hs.proc p).eq_of_not_live id).mp hp)
  · intro p np b hlive hact
    obtain ⟨hemb, hpar⟩ := hfork p np b hlive hact
    exact ⟨((hs.proc np).eq_of_not_live id).mpr hemb, (hs.proc np).parent.trans hpar⟩
  · exact hforks
  · intro p hstate hact
    rw [hs.noZombie]
    exact hwait p hstate hact
  · intro p
    rw [(hs.proc p).pid, hs.nextpid]
    exact h.nextpid p
  · intro p hp
    rw [(hs.proc p).pid]
    exact h.pid p fun hu => hp (((hs.proc p).eq_of_not_live id).mpr hu)
  · intro p q hpos heq
    rw [(hs.proc p).pid] at hpos heq
    rw [(hs.proc q).pid] at heq
    exact h.distinct p q hpos heq
  · intro p hlive hcall hk
    rw [(hs.proc p).pid]
    exact hkilled p hlive hcall hk
  · intro n
    rw [hs.exited, hs.reaped, h.exited n]
    simp only [hs.zombie, (hs.proc _).pid]
  · intro x hx
    rw [hs.reaped] at hx
    obtain ⟨hlt, hne, hheir⟩ := h.reaped x hx
    rw [hs.nextpid, hs.heir]
    refine ⟨hlt, fun p hp => ?_, hheir⟩
    rw [(hs.proc p).pid]
    exact hne p fun hu => hp (((hs.proc p).eq_of_not_live id).mpr hu)
  · rw [hs.reaped]
    exact h.nodup

/-- No process starts to make another one. -/
theorem Wf.idle (h : k.Wf) (hs : Soft k t) (hexit : (t.proc k.initproc).activity ≠ .exit)
    (hfork : ∀ p np b, (t.proc p).activity = .fork np b → (k.proc p).activity = .fork np b)
    (hwait : ∀ p, (t.proc p).state = .sleeping → (t.proc p).activity = .wait →
      (t.proc p).chan = some (.proc p) ∧ k.NoZombie p)
    (hkilled : ∀ p, t.Live p → (t.proc p).activity.InCall → (t.proc p).killed = true → (k.proc p).pid ∈ t.kills) :
    t.Wf := by
  refine h.soft hs hexit (fun p np b hp hf => ?_) (fun p q np b b' hp hq hf hf' => ?_) hwait hkilled
  · exact h.fork p np b ((hs.live p).mp hp) (hfork p np b hf)
  · exact h.forks p q np b b' ((hs.live p).mp hp) ((hs.live q).mp hq) (hfork p np b hf) (hfork q np b' hf')

theorem Soft.modify {f : Proc → Proc} (hf : (k.proc p).Soft (f (k.proc p))) : Soft k (k.modify p f) := by
  refine ⟨fun q => ?_, rfl, rfl, rfl, rfl, rfl⟩
  by_cases hq : q = p
  · rw [hq, modify_self]
    exact hf
  · rw [modify_of_ne hq]
    exact .refl _

theorem Soft.trans {u : Table} (h : Soft k t) (h' : Soft t u) : Soft k u where
  proc p :=
    { pid := (h'.proc p).pid.trans (h.proc p).pid
      parent := (h'.proc p).parent.trans (h.proc p).parent
      state := by
        obtain heq | hlive := (h.proc p).state
        · rw [← heq]
          exact (h'.proc p).state
        · exact .inr ⟨hlive.1, (h'.proc p).live.mpr hlive.2⟩ }
  nextpid := h'.nextpid.trans h.nextpid
  initproc := h'.initproc.trans h.initproc
  born := h'.born.trans h.born
  exited := h'.exited.trans h.exited
  reaped := h'.reaped.trans h.reaped

theorem Wf.modify {f : Proc → Proc} (h : k.Wf) (hf : (k.proc p).Soft (f (k.proc p)))
    (hexit : p = k.initproc → (f (k.proc p)).activity ≠ .exit)
    (hfork : ∀ np b, (f (k.proc p)).activity = .fork np b → (k.proc p).activity = .fork np b)
    (hwait : (f (k.proc p)).state = .sleeping → (f (k.proc p)).activity = .wait →
      (f (k.proc p)).chan = some (.proc p) ∧ k.NoZombie p)
    (hkilled : k.Live p → (f (k.proc p)).activity.InCall → (f (k.proc p)).killed = true →
      (k.proc p).pid ∈ k.kills) : (k.modify p f).Wf := by
  refine h.idle (.modify hf) ?_ (fun q => ?_) (fun q => ?_) fun q => ?_
  · by_cases hq : k.initproc = p
    · rw [hq, modify_self]
      exact hexit hq.symm
    · rw [modify_of_ne hq]
      exact h.stays
  · by_cases hq : q = p
    · rw [hq, modify_self]
      exact hfork
    · rw [modify_of_ne hq]
      exact fun _ _ ha => ha
  · by_cases hq : q = p
    · rw [hq, modify_self]
      exact hwait
    · rw [modify_of_ne hq]
      exact h.wait q
  · rw [(Soft.modify hf).live]
    by_cases hq : q = p
    · rw [hq, modify_self]
      exact hkilled
    · rw [modify_of_ne hq]
      exact h.killed q

theorem soft_rouse (chan : Option Chan) (a : Proc) : a.Soft (rouse chan a) := by
  unfold rouse
  split
  · rename_i hs
    refine ⟨rfl, rfl, .inr ⟨?_, trivial⟩⟩
    rw [hs.1]
    exact trivial
  · exact .refl a

theorem rouse_state (chan : Option Chan) (a : Proc) :
    (rouse chan a).state = a.state ∨ a.state = .sleeping ∧ (rouse chan a).state = .runnable := by
  unfold rouse
  split
  · rename_i hs
    exact .inr ⟨hs.1, rfl⟩
  · exact .inl rfl

theorem rouse_same (chan : Option Chan) (a : Proc) : (rouse chan a).activity = a.activity ∧
    (rouse chan a).chan = a.chan ∧ (rouse chan a).killed = a.killed := by
  unfold rouse
  split <;> exact ⟨rfl, rfl, rfl⟩

theorem rouse_sleeping {chan : Option Chan} {a : Proc} (h : (rouse chan a).state = .sleeping) :
    a.state = .sleeping ∧ a.chan ≠ chan := by
  unfold rouse at h
  split at h
  · cases h
  · rename_i hs
    exact ⟨h, fun hc => hs ⟨h, hc⟩⟩

theorem Soft.wakeup1 (k : Table) (chan : Option Chan) : Soft k (k.wakeup1 chan) :=
  ⟨fun _ => soft_rouse .., rfl, rfl, rfl, rfl, rfl⟩

theorem Wf.wakeup1 (h : k.Wf) (chan : Option Chan) : (k.wakeup1 chan).Wf := by
  refine h.idle (.wakeup1 ..) (fun ha => ?_) (fun q np b hf => ?_) (fun q hs ha => ?_) fun q hl ha hk => ?_
  · exact h.stays ((rouse_same chan (k.proc k.initproc)).1.symm.trans ha)
  · exact (rouse_same chan (k.proc q)).1.symm.trans hf
  · obtain ⟨hact, hchan, -⟩ := rouse_same chan (k.proc q)
    have := h.wait q (rouse_sleeping hs).1 (hact.symm.trans ha)
    exact ⟨hchan.trans this.1, this.2⟩
  · obtain ⟨hact, -, hkilled⟩ := rouse_same chan (k.proc q)
    have ha' : (rouse chan (k.proc q)).activity.InCall := ha
    have hk' : (rouse chan (k.proc q)).killed = true := hk
    rw [hact] at ha'
    rw [hkilled] at hk'
    exact h.killed q (((Soft.wakeup1 k chan).live q).mp hl) ha' hk'

theorem Wf.ret (h : k.Wf) (p : Slot) (r : Int) : (k.ret p r).Wf := by
  apply h.modify
  · exact ⟨rfl, rfl, .inl rfl⟩
  · exact fun _ ha => Activity.noConfusion ha
  · exact fun _ _ hf => Activity.noConfusion hf
  · exact fun _ ha => Activity.noConfusion ha
  · exact fun _ ha => ha.elim

theorem Wf.exit_test (h : k.Wf) (p : Slot) : (k.exit p).Wf := by
  unfold Table.exit
  split
  · exact h.idle ⟨fun _ => .refl _, rfl, rfl, rfl, rfl, rfl⟩ h.stays (fun _ _ _ hf => hf) h.wait h.killed
  · rename_i hp
    apply h.modify
    · exact ⟨rfl, rfl, .inl rfl⟩
    · exact fun hi => absurd hi hp
    · exact fun _ _ hf => Activity.noConfusion hf
    · exact fun _ ha => Activity.noConfusion ha
    · exact fun _ ha => ha.elim

/-! ### fork -/

theorem find_some {P : Proc → Bool} (h : k.find P = some p) : P (k.proc p) = true :=
  List.find?_some (p := fun p => P (k.proc p)) h

theorem find_none {P : Proc → Bool} (h : k.find P = none) (p : Slot) : P (k.proc p) = false := by
  rw [find, List.find?_eq_none] at h
  exact Bool.eq_false_iff.mpr (h p (List.mem_finRange p))

/-- Nobody is making the process `np`. -/
def Loose (k : Table) (np : Slot) : Prop := ∀ q b, k.Live q → (k.proc q).activity ≠ .fork np b

theorem Wf.loose (h : k.Wf) (hnp : (k.proc np).state ≠ .embryo) : k.Loose np :=
  fun q b hq hf => hnp (h.fork q np b hq hf).1

/-- What an entry of the table can become that is not in use, or is still being made. -/
structure Settles (k t : Table) (np : Slot) : Prop where
  others : ∀ q, q ≠ np → t.proc q = k.proc q
  initproc : t.initproc = k.initproc
  exited : t.exited = k.exited
  reaped : t.reaped = k.reaped
  kills : t.kills = k.kills
  born : ∀ x ∈ k.born, x ∈ t.born
  nextpid : k.nextpid ≤ t.nextpid
  state : ((t.proc np).state = .unused ∨ (t.proc np).state = .embryo) ∨
    (t.proc np).state = .runnable ∧ (t.proc np).activity = .user
  parent : ∀ q, (t.proc np).parent = some q → k.Live q ∧ q ≠ np
  child : t.Live np → ∃ q, (t.proc np).parent = some q ∧ t.Heir (t.proc np).pid (k.proc q).pid
  unused : (t.proc np).state = .unused → (t.proc np).parent = none
  pid : (t.proc np).state ≠ .unused → 0 < (t.proc np).pid ∧ ∀ x ∈ k.reaped, (t.proc np).pid ≠ x.1
  lt : (t.proc np).pid < t.nextpid
  distinct : 0 < (t.proc np).pid → ∀ q, q ≠ np → (k.proc q).pid ≠ (t.proc np).pid

theorem Heir.mono {n r : Nat} (h : k.Heir n r) (hborn : ∀ x ∈ k.born, x ∈ t.born)
    (hexited : ∀ x ∈ k.exited, x ∈ t.exited) : t.Heir n r := by
  obtain ⟨f, hf, hr⟩ := h
  exact ⟨f, hborn _ hf, hr.imp_right fun hr => ⟨hr.1, hexited f hr.2⟩⟩

theorem Wf.settles (h : k.Wf) (hidle : (k.proc np).state = .unused ∨ (k.proc np).state = .embryo)
    (hloose : k.Loose np) (hs : Settles k t np) : t.Wf := by
  have hdead : ¬k.Live np := by
    intro hl
    obtain hu | hu := hidle
    · exact hl.ne_unused hu
    · exact not_live_embryo hu hl
  have hne : ∀ q, k.Live q → q ≠ np := fun q hq heq => hdead (heq ▸ hq)
  have hnz : ¬t.Zombie np := by
    intro hz
    have hz' : (t.proc np).state = .zombie := hz
    have := hs.state
    rw [hz'] at this
    simp at this
  have hnz' : ¬k.Zombie np := by
    intro hz
    have hz' : (k.proc np).state = .zombie := hz
    rw [hz'] at hidle
    simp at hidle
  have hzombie : ∀ q, t.Zombie q ↔ k.Zombie q := by
    intro q
    by_cases hq : q = np
    · rw [hq]
      exact iff_of_false hnz hnz'
    · unfold Zombie
      rw [hs.others q hq]
  have hlive : ∀ q, q ≠ np → (t.Live q ↔ k.Live q) := by
    intro q hq
    unfold Live
    rw [hs.others q hq]
  have hfork : ∀ q m b, t.Live q → (t.proc q).activity = .fork m b → q ≠ np ∧ k.Live q ∧ (k.proc q).activity = .fork m b := by
    intro q m b hq hf
    by_cases hqn : q = np
    · rw [hqn] at hf hq
      obtain hu | ⟨-, ha⟩ := hs.state
      · obtain hu | hu := hu
        · exact absurd hu hq.ne_unused
        · exact absurd hq (not_live_embryo hu)
      · rw [ha] at hf
        cases hf
    · rw [hs.others q hqn] at hf
      exact ⟨hqn, (hlive q hqn).mp hq, hf⟩
  have hinit := h.init
  have hin : t.initproc ≠ np := by
    rw [hs.initproc]
    exact hne _ hinit.1
  have hheir : ∀ n r, k.Heir n r → t.Heir n r := by
    intro n r hh
    apply hh.mono hs.born
    intro x hx
    rw [hs.exited]
    exact hx
  have hnozombie : ∀ p, k.NoZombie p → t.NoZombie p := by
    intro p hp q hq
    rw [hzombie]
    by_cases hqn : q = np
    · exact hqn ▸ hnz'
    · rw [hs.others q hqn] at hq
      exact hp q hq
  constructor
  · rw [hlive _ hin, hs.others _ hin, hs.initproc]
    exact hinit
  · rw [hs.others _ hin, hs.initproc]
    exact h.stays
  · intro p q hq
    have hold : k.Live q ∧ q ≠ p := by
      by_cases hp : p = np
      · rw [hp] at hq ⊢
        exact hs.parent q hq
      · rw [hs.others p hp] at hq
        exact h.parent p q hq
    exact ⟨(hlive q (hne q hold.1)).mpr hold.1, hold.2⟩
  · intro p hp hlz
    by_cases hpn : p = np
    · rw [hpn] at hlz ⊢
      obtain hl | hz := hlz
      · obtain ⟨q, hq, hh⟩ := hs.child hl
        rw [← hs.others q (hs.parent q hq).2] at hh
        exact ⟨q, hq, hh⟩
      · exact absurd hz hnz
    · rw [hs.initproc] at hp
      rw [hlive p hpn, hzombie] at hlz
      obtain ⟨q, hq, hh⟩ := h.child p hp hlz
      refine ⟨q, (congrArg Proc.parent (hs.others p hpn)).trans hq, ?_⟩
      rw [hs.others p hpn, hs.others q (hne q (h.parent p q hq).1)]
      exact hheir _ _ hh
  · intro p hu
    by_cases hpn : p = np
    · rw [hpn] at hu ⊢
      exact hs.unused hu
    · rw [hs.others p hpn] at hu ⊢
      exact h.unused p hu
  · intro q m b hq hf
    obtain ⟨-, hq', hf'⟩ := hfork q m b hq hf
    have hm : m ≠ np := fun hm => hloose q b hq' (hm ▸ hf')
    rw [hs.others m hm]
    exact h.fork q m b hq' hf'
  · intro p q m b b' hp hq hf hf'
    obtain ⟨-, hp', hf⟩ := hfork p m b hp hf
    obtain ⟨-, hq', hf'⟩ := hfork q m b' hq hf'
    exact h.forks p q m b b' hp' hq' hf hf'
  · intro p hsl hact
    by_cases hpn : p = np
    · rw [hpn] at hsl
      have := hs.state
      rw [hsl] at this
      simp at this
    · rw [hs.others p hpn] at hsl hact ⊢
      exact ⟨(h.wait p hsl hact).1, hnozombie p (h.wait p hsl hact).2⟩
  · intro p
    by_cases hpn : p = np
    · rw [hpn]
      exact hs.lt
    · rw [hs.others p hpn]
      exact Nat.lt_of_lt_of_le (h.nextpid p) hs.nextpid
  · intro p hu
    by_cases hpn : p = np
    · rw [hpn] at hu ⊢
      exact (hs.pid hu).1
    · rw [hs.others p hpn] at hu ⊢
      exact h.pid p hu
  · intro p q hpos heq
    by_cases hpn : p = np
    · by_cases hqn : q = np
      · rw [hpn, hqn]
      · rw [hpn] at hpos heq
        rw [hs.others q hqn] at heq
        exact absurd heq.symm (hs.distinct hpos q hqn)
    · by_cases hqn : q = np
      · rw [hs.others p hpn, hqn] at heq
        rw [hs.others p hpn, heq] at hpos
        exact absurd heq (hs.distinct hpos p hpn)
      · rw [hs.others p hpn] at hpos heq
        rw [hs.others q hqn] at heq
        exact h.distinct p q hpos heq
  · intro p hl hcall hk
    rw [hs.kills]
    by_cases hpn : p = np
    · rw [hpn] at hl hcall
      obtain hu | ⟨-, ha⟩ := hs.state
      · obtain hu | hu := hu
        · exact absurd hu hl.ne_unused
        · exact absurd hl (not_live_embryo hu)
      · rw [ha] at hcall
        exact hcall.elim
    · rw [hs.others p hpn] at hcall hk ⊢
      exact h.killed p ((hlive p hpn).mp hl) hcall hk
  · intro n
    rw [hs.exited, hs.reaped, h.exited n]
    refine or_congr_left (exists_congr fun p => ?_)
    rw [hzombie]
    refine and_congr_right fun hz => ?_
    rw [hs.others p fun hpn => hnz' (hpn ▸ hz)]
  · intro x hx
    rw [hs.reaped] at hx
    obtain ⟨hlt, hpid, hh⟩ := h.reaped x hx
    refine ⟨Nat.lt_of_lt_of_le hlt hs.nextpid, fun p hu => ?_, hheir _ _ hh⟩
    by_cases hpn : p = np
    · rw [hpn] at hu ⊢
      exact (hs.pid hu).2 x hx
    · rw [hs.others p hpn] at hu ⊢
      exact hpid p hu
  · rw [hs.reaped]
    exact h.nodup

/-- A process starts to make `np`, or goes on with it. -/
theorem Wf.makes {b : Bool} (h : k.Wf) (hnp : (k.proc np).state = .embryo)
    (hpar : (k.proc np).parent = if b then some p else none)
    (hloose : ∀ q c, q ≠ p → k.Live q → (k.proc q).activity ≠ .fork np c) :
    (k.modify p fun q => { q with activity := .fork np b }).Wf := by
  have hsoft : Soft k (k.modify p fun q => { q with activity := .fork np b }) := .modify ⟨rfl, rfl, .inl rfl⟩
  have hself : ∀ m c, ((k.modify p fun q => { q with activity := .fork np b }).proc p).activity = .fork m c →
      m = np ∧ c = b := by
    intro m c hf
    rw [modify_self] at hf
    obtain ⟨rfl, rfl⟩ := Activity.fork.inj hf
    exact ⟨rfl, rfl⟩
  have hother : ∀ q, q ≠ p → (k.modify p fun q => { q with activity := .fork np b }).proc q = k.proc q :=
    fun q hq => modify_of_ne hq ..
  refine h.soft hsoft ?_ (fun q m c hq hf => ?_) (fun q r m c c' hq hr hf hf' => ?_) (fun q hs ha => ?_)
    fun q hq hc hk => ?_
  · by_cases hip : k.initproc = p
    · rw [hip, modify_self]
      exact fun ha => Activity.noConfusion ha
    · rw [hother _ hip]
      exact h.stays
  · rw [hsoft.live] at hq
    by_cases hqp : q = p
    · rw [hqp] at hf ⊢
      obtain ⟨rfl, rfl⟩ := hself m c hf
      exact ⟨hnp, hpar⟩
    · rw [hother q hqp] at hf
      exact h.fork q m c hq hf
  · rw [hsoft.live] at hq hr
    by_cases hqp : q = p
    · by_cases hrp : r = p
      · rw [hqp, hrp]
      · rw [hqp] at hf
        rw [hother r hrp, (hself m c hf).1] at hf'
        exact absurd hf' (hloose r c' hrp hr)
    · by_cases hrp : r = p
      · rw [hrp] at hf'
        rw [hother q hqp, (hself m c' hf').1] at hf
        exact absurd hf (hloose q c hqp hq)
      · rw [hother q hqp] at hf
        rw [hother r hrp] at hf'
        exact h.forks q r m c c' hq hr hf hf'
  · by_cases hqp : q = p
    · rw [hqp, modify_self] at ha
      exact Activity.noConfusion ha
    · rw [hother q hqp] at hs ha ⊢
      exact h.wait q hs ha
  · rw [hsoft.live] at hq
    by_cases hqp : q = p
    · rw [hqp, modify_self] at hc
      exact hc.elim
    · rw [hother q hqp] at hc hk
      exact h.killed q hq hc hk

theorem Live.ne (h : k.Live p) (hq : ¬k.Live q) : q ≠ p := fun heq => hq (heq ▸ h)

theorem Wf.allocproc (h : k.Wf) (p : Slot) : (k.allocproc p).Wf := by
  unfold Table.allocproc
  split
  · exact h.ret p (-1)
  · rename_i np hfind
    have hnp : (k.proc np).state = .unused := of_decide_eq_true (find_some hfind)
    have hdead : ¬k.Live np := fun hl => hl.ne_unused hnp
    have hloose : k.Loose np := h.loose (by rw [hnp]; decide)
    set u := { k with nextpid := k.nextpid + 1 }.modify np fun q => { q with state := .embryo, pid := k.nextpid } with hu
    have hself : u.proc np = { k.proc np with state := .embryo, pid := k.nextpid } := modify_self ..
    have hother : ∀ q, q ≠ np → u.proc q = k.proc q := fun q hq => modify_of_ne hq ..
    have hwf : u.Wf := by
      apply h.settles (.inl hnp) hloose
      constructor
      · exact hother
      · rfl
      · rfl
      · rfl
      · rfl
      · exact fun _ hx => hx
      · exact Nat.le_succ _
      · rw [hself]
        exact .inl (.inr rfl)
      · rw [hself]
        intro q hq
        have hnone := h.unused np hnp
        rw [hnone] at hq
        cases hq
      · intro hl
        exact absurd hl (not_live_embryo (by rw [hself]))
      · rw [hself]
        exact fun hs => ProcState.noConfusion hs
      · rw [hself]
        refine fun _ => ⟨Nat.lt_of_le_of_lt (Nat.zero_le _) (h.nextpid np), fun x hx => ?_⟩
        exact Nat.ne_of_gt (h.reaped x hx).1
      · rw [hself]
        exact Nat.lt_succ_self _
      · rw [hself]
        exact fun _ q _ => Nat.ne_of_lt (h.nextpid q)
    apply hwf.makes
    · rw [hself]
    · rw [hself]
      exact h.unused np hnp
    · intro q c hqp hq
      by_cases hqn : q = np
      · exact absurd hq (not_live_embryo (by rw [hqn, hself]))
      · unfold Live at hq
        rw [hother q hqn] at hq ⊢
        exact hloose q c hq

/-- The maker of `np` stops making it. -/
theorem Wf.loose_modify {f : Proc → Proc} {b : Bool} (h : k.Wf) (hp : k.Live p)
    (hact : (k.proc p).activity = .fork np b) (hsoft : (k.proc p).Soft (f (k.proc p)))
    (hf : ∀ m c, (f (k.proc p)).activity ≠ .fork m c) : (k.modify p f).Loose np := by
  intro q c hq hfork
  rw [(Soft.modify hsoft).live] at hq
  by_cases hqp : q = p
  · rw [hqp, modify_self] at hfork
    exact hf np c hfork
  · rw [modify_of_ne hqp] at hfork
    exact hqp (h.forks q p np c b hq hp hfork hact)

theorem soft_ret (k : Table) (p : Slot) (r : Int) : Soft k (k.ret p r) := .modify ⟨rfl, rfl, .inl rfl⟩

theorem Wf.loose_ret {b : Bool} (h : k.Wf) (hp : k.Live p) (hact : (k.proc p).activity = .fork np b) (r : Int) :
    (k.ret p r).Loose np := h.loose_modify hp hact ⟨rfl, rfl, .inl rfl⟩ fun _ _ hf => Activity.noConfusion hf

/-- A process that is being made keeps its number. -/
theorem Settles.of_modify {f : Proc → Proc} (h : k.Wf) (hnp : (k.proc np).state = .embryo)
    (hpid : (f (k.proc np)).pid = (k.proc np).pid)
    (hstate : ((f (k.proc np)).state = .unused ∨ (f (k.proc np)).state = .embryo))
    (hparent : ∀ q, (f (k.proc np)).parent = some q → k.Live q ∧ q ≠ np)
    (hunused : (f (k.proc np)).state = .unused → (f (k.proc np)).parent = none) :
    Settles k (k.modify np f) np := by
  have hused : (k.proc np).state ≠ .unused := by
    rw [hnp]
    decide
  constructor
  · exact fun q hq => modify_of_ne hq ..
  · rfl
  · rfl
  · rfl
  · rfl
  · exact fun _ hx => hx
  · exact Nat.le_refl _
  · rw [modify_self]
    exact .inl hstate
  · rw [modify_self]
    exact hparent
  · intro hl
    obtain hu | hu := hstate
    · exact absurd (by rw [modify_self]; exact hu) hl.ne_unused
    · exact absurd hl (not_live_embryo (by rw [modify_self]; exact hu))
  · rw [modify_self]
    exact hunused
  · rw [modify_self, hpid]
    exact fun _ => ⟨h.pid np hused, fun x hx => (h.reaped x hx).2.1 np hused⟩
  · rw [modify_self, hpid]
    exact h.nextpid np
  · rw [modify_self, hpid]
    exact fun hpos q hq heq => hq (h.distinct np q hpos heq.symm).symm

theorem Wf.forkFail (h : k.Wf) (hp : k.Live p) (hact : (k.proc p).activity = .fork np false) :
    (k.forkFail p np).Wf := by
  obtain ⟨hnp, hpar⟩ := h.fork p np false hp hact
  have hne : np ≠ p := hp.ne (not_live_embryo hnp)
  have hproc : (k.ret p (-1)).proc np = k.proc np := modify_of_ne hne ..
  have hwf := h.ret p (-1)
  refine hwf.settles (.inr (by rw [hproc]; exact hnp)) (h.loose_ret hp hact _) ?_
  apply Settles.of_modify hwf
  · rw [hproc]
    exact hnp
  · rfl
  · exact .inl rfl
  · rw [hproc]
    intro q hq
    rw [hpar] at hq
    cases hq
  · rw [hproc]
    exact fun _ => hpar

theorem Wf.forkCopy (h : k.Wf) (hp : k.Live p) (hact : (k.proc p).activity = .fork np false) :
    (k.forkCopy p np).Wf := by
  obtain ⟨hnp, -⟩ := h.fork p np false hp hact
  have hne : np ≠ p := hp.ne (not_live_embryo hnp)
  -- the maker lets go of the child, gives it its parent and takes it up again
  set u := k.modify p fun q => { q with activity := .user } with hu
  have hsoft : Soft k u := .modify ⟨rfl, rfl, .inl rfl⟩
  have hwf : u.Wf := by
    apply h.modify
    · exact ⟨rfl, rfl, .inl rfl⟩
    · exact fun _ ha => Activity.noConfusion ha
    · exact fun _ _ hf => Activity.noConfusion hf
    · exact fun _ ha => Activity.noConfusion ha
    · exact fun _ ha => ha.elim
  have hloose : u.Loose np := h.loose_modify hp hact ⟨rfl, rfl, .inl rfl⟩ fun _ _ hf => Activity.noConfusion hf
  have hproc : u.proc np = k.proc np := modify_of_ne hne ..
  set v := u.modify np fun q => { q with parent := some p, eax := 0 } with hv
  have hself : v.proc np = { k.proc np with parent := some p, eax := 0 } := by
    rw [hv, modify_self, hproc]
  have hother : ∀ q, q ≠ np → v.proc q = u.proc q := fun q hq => modify_of_ne hq ..
  have hwf' : v.Wf := by
    refine hwf.settles (.inr (by rw [hproc]; exact hnp)) hloose ?_
    apply Settles.of_modify hwf
    · rw [hproc]
      exact hnp
    · rfl
    · rw [hproc]
      exact .inr hnp
    · intro q hq
      obtain rfl := Option.some.inj hq
      exact ⟨(hsoft.live _).mpr hp, hne.symm⟩
    · rw [hproc]
      intro hs
      have hs' : (k.proc np).state = .unused := hs
      rw [hnp] at hs'
      cases hs'
  have hmakes : (v.modify p fun q => { q with activity := .fork np true }).Wf := by
    apply hwf'.makes
    · rw [hself]
      exact hnp
    · rw [hself]
      rfl
    · intro q c hqp hq
      by_cases hqn : q = np
      · rw [hqn] at hq
        exact absurd hq (not_live_embryo (by rw [hself]; exact hnp))
      · unfold Live at hq
        rw [hother q hqn] at hq ⊢
        exact hloose q c hq
  have heq : k.forkCopy p np = v.modify p fun q => { q with activity := .fork np true } := by
    have hup : u.proc p = { k.proc p with activity := .user } := modify_self ..
    have hprocs : (k.forkCopy p np).proc = (v.modify p fun q => { q with activity := .fork np true }).proc := by
      funext q
      unfold Table.forkCopy
      by_cases hqp : q = p
      · rw [hqp, modify_self, modify_self, modify_of_ne hne.symm, hother p hne.symm, hup]
      · rw [modify_of_ne hqp, modify_of_ne hqp]
        by_cases hqn : q = np
        · rw [hqn, modify_self, hself]
        · rw [modify_of_ne hqn, hother q hqn, hu, modify_of_ne hqp]
    unfold Table.forkCopy at hprocs ⊢
    exact congrArg (fun f => { k with proc := f }) hprocs
  rw [heq]
  exact hmakes

theorem forkFinish_proc (k : Table) (p np : Slot) : (k.forkFinish p np).proc =
    ((k.ret p (k.proc np).pid).modify np fun q => { q with state := .runnable, activity := .user }).proc := rfl

theorem Wf.forkFinish (h : k.Wf) (hp : k.Live p) (hact : (k.proc p).activity = .fork np true) :
    (k.forkFinish p np).Wf := by
  obtain ⟨hnp, hpar⟩ := h.fork p np true hp hact
  have hne : np ≠ p := hp.ne (not_live_embryo hnp)
  have hused : (k.proc np).state ≠ .unused := by
    rw [hnp]
    decide
  have hwf := h.ret p (k.proc np).pid
  have hsoft := soft_ret k p (k.proc np).pid
  have hproc : (k.ret p (k.proc np).pid).proc np = k.proc np := modify_of_ne hne ..
  have hself : (k.forkFinish p np).proc np = { k.proc np with state := .runnable, activity := .user } := by
    rw [forkFinish_proc, modify_self, hproc]
  apply hwf.settles (.inr (by rw [hproc]; exact hnp)) (h.loose_ret hp hact _)
  constructor
  · intro q hq
    rw [forkFinish_proc, modify_of_ne hq]
  · rfl
  · rfl
  · rfl
  · rfl
  · exact fun x hx => List.mem_append_left _ hx
  · exact Nat.le_refl _
  · rw [hself]
    exact .inr ⟨rfl, rfl⟩
  · rw [hself]
    intro q hq
    obtain rfl := Option.some.inj (hpar.symm.trans hq)
    exact ⟨(hsoft.live _).mpr hp, hne.symm⟩
  · intro _
    rw [hself]
    refine ⟨p, hpar, (k.proc p).pid, List.mem_append_right _ List.mem_cons_self, .inl ?_⟩
    exact (hsoft.proc p).pid
  · rw [hself]
    exact fun hs => ProcState.noConfusion hs
  · rw [hself]
    exact fun _ => ⟨h.pid np hused, fun x hx => (h.reaped x hx).2.1 np hused⟩
  · rw [hself]
    exact h.nextpid np
  · rw [hself]
    intro hpos q hq heq
    rw [(hsoft.proc q).pid] at heq
    exact hq (h.distinct np q hpos heq.symm).symm

end Table

end Xv6.Family
