import AdvancedXv6.Swap.KallocSpec

/-! The search of `swap_out_one_page` for a process, a page and a slot. -/

namespace Xv6.Swap
open Function Effect Ownership

variable {im : Image} {k k₀ k' : Kernel} {H : Held} {d va pg f n i p v : Nat} {e : Word}
  {E : Panic → Kernel → Prop}

/-- The allocator, the slots and the history are the same. -/
structure SameStock (k k' : Kernel) : Prop where
  freelist : k'.freelist = k.freelist
  count : k'.freePagesCount = k.freePagesCount
  tH : k'.tH = k.tH
  nPg : k'.nPg = k.nPg
  slots : k'.swapSlots = k.swapSlots
  trail : k'.trail = k.trail

theorem SameStock.trans {k₁ k₂ k₃ : Kernel} (h : SameStock k₁ k₂) (h' : SameStock k₂ k₃) :
    SameStock k₁ k₃ :=
  ⟨h'.freelist.trans h.freelist, h'.count.trans h.count, h'.tH.trans h.tH, h'.nPg.trans h.nPg,
    h'.slots.trans h.slots, h'.trail.trans h.trail⟩

/-! ### The process -/

/-- The states differ in the `rss` fields. -/
def OnlyRss (k k' : Kernel) : Prop :=
  ∃ P, k' = { k with proc := P } ∧ ∀ i, ∃ r, P i = { k.proc i with rss := r }

theorem OnlyRss.refl (k : Kernel) : OnlyRss k k := ⟨k.proc, rfl, fun i => ⟨(k.proc i).rss, rfl⟩⟩

theorem OnlyRss.calm (h : OnlyRss k k') : Calm k k' := by
  obtain ⟨P, rfl, hP⟩ := h
  exact ⟨hP, rfl, rfl, rfl, rfl, rfl, rfl, rfl⟩

theorem OnlyRss.stock (h : OnlyRss k k') : SameStock k k' := by
  obtain ⟨P, rfl, _⟩ := h
  exact ⟨rfl, rfl, rfl, rfl, rfl, rfl⟩

theorem OnlyRss.still (h : OnlyRss k k') (H : Held) : Still k k' H := by
  have hc := h.calm
  obtain ⟨P, rfl, _⟩ := h
  exact ⟨hc, fun _ _ _ _ => rfl, fun _ _ _ _ => ⟨rfl, rfl⟩⟩

theorem OnlyRss.countResident (h : OnlyRss k k') (i : Nat) :
    k'.countResident (k'.proc i) = k.countResident (k.proc i) := by
  obtain ⟨P, rfl, hP⟩ := h
  obtain ⟨r, hr⟩ := hP i
  simp only [hr]
  rfl

theorem OnlyRss.calcRss (h : OnlyRss k₀ k) (p r : Nat) :
    OnlyRss k₀ (k.setProc p { k.proc p with rss := r }) := by
  obtain ⟨P, rfl, hP⟩ := h
  refine ⟨update P p { P p with rss := r }, rfl, fun i => ?_⟩
  by_cases hi : i = p
  · subst hi
    obtain ⟨r', hr'⟩ := hP i
    exact ⟨r, by rw [update_self, hr']⟩
  · rw [update_of_ne hi]
    exact hP i

theorem OnlyRss.wf (h : OnlyRss k k') (hk : Wf im k H) : Wf im k' H := by
  have hs := h.still H
  obtain ⟨P, rfl, _⟩ := h
  exact ⟨hs.sameTables.accounted hk.acc rfl rfl fun _ => rfl, hk.sane.still hs rfl rfl rfl hk.sane.bufs⟩

theorem OnlyRss.quiet (h : OnlyRss k k') (H : Held) : Quiet noPage k k' H := by
  have hs := h.still H
  obtain ⟨P, rfl, _⟩ := h
  exact hs.quiet_same rfl rfl

/-- More resident pages, or as many and the smaller pid. -/
def Kernel.Ahead (k : Kernel) (v i : Nat) : Prop :=
  k.countResident (k.proc i) < k.countResident (k.proc v) ∨
    (k.countResident (k.proc i) = k.countResident (k.proc v) ∧ (k.proc v).pid ≤ (k.proc i).pid)

/-- `victim` is ahead of all processes in `seen`. -/
structure Leading (k : Kernel) (seen : List Nat) (victim : Option Nat) (maxRss : Int) : Prop where
  start : victim = none → maxRss = -1
  pick : ∀ v ∈ victim, v ∈ seen ∧ Evictable (k.proc v).state ∧
    maxRss = k.countResident (k.proc v)
  ahead : ∀ i ∈ seen, Evictable (k.proc i).state → ∃ v ∈ victim, k.Ahead v i

theorem Leading.pass {seen : List Nat} {victim : Option Nat} {m : Int}
    (h : Leading k seen victim m) (hp : Evictable (k.proc p).state → ∃ v ∈ victim, k.Ahead v p) :
    Leading k (seen ++ [p]) victim m where
  start := h.start
  pick v hv := ⟨List.mem_append_left _ (h.pick v hv).1, (h.pick v hv).2⟩
  ahead i hi hs := by
    rcases List.mem_append.mp hi with hi | hi
    · exact h.ahead i hi hs
    · rw [List.mem_singleton.mp hi] at hs ⊢
      exact hp hs

theorem Leading.replace {seen : List Nat} {victim : Option Nat} {m : Int}
    (h : Leading k seen victim m) (hp : Evictable (k.proc p).state)
    (hlt : m < k.countResident (k.proc p) ∨ (k.countResident (k.proc p) = m ∧
      ∀ v ∈ victim, (k.proc p).pid < (k.proc v).pid)) :
    Leading k (seen ++ [p]) (some p) (k.countResident (k.proc p)) where
  start := (by simp)
  pick v hv := by
    cases hv
    exact ⟨List.mem_append_right _ (List.mem_singleton.mpr rfl), hp, rfl⟩
  ahead i hi hs := by
    refine ⟨p, rfl, ?_⟩
    rcases List.mem_append.mp hi with hi | hi
    · obtain ⟨v, hv, ha⟩ := h.ahead i hi hs
      obtain ⟨_, _, rfl⟩ := h.pick v hv
      rcases hlt with hlt | ⟨heq, hpid⟩
      · left
        rcases ha with ha | ⟨ha, _⟩ <;> omega
      · have := hpid v hv
        rcases ha with ha | ⟨ha, hle⟩
        · left
          omega
        · right
          exact ⟨by omega, by omega⟩
    · rw [List.mem_singleton.mp hi]
      exact .inr ⟨rfl, Nat.le_refl _⟩

theorem victimLoop_spec (ps seen : List Nat) {victim : Option Nat} {m : Int}
    (hk : OnlyRss k₀ k) (h : Leading k₀ seen victim m) :
    wp (victimLoop ps victim m) k
      (fun v k' => OnlyRss k₀ k' ∧ ∃ m, Leading k₀ (seen ++ ps) v m) E := by
  induction ps generalizing k seen victim m with
  | nil =>
    rw [victimLoop, wp_pure, List.append_nil]
    exact ⟨hk, m, h⟩
  | cons p ps ih =>
    rw [show seen ++ p :: ps = (seen ++ [p]) ++ ps by simp]
    have hstate : (k.proc p).state = (k₀.proc p).state := hk.calm.state p
    rw [victimLoop, wp_bind, wp_get, wp_ite]
    constructor
    · intro hs
      rw [hstate] at hs
      have hk' := hk.calcRss p (k.countResident (k.proc p))
      have hcount : ((k.setProc p { k.proc p with rss := k.countResident (k.proc p) }).proc p).rss =
          k₀.countResident (k₀.proc p) := by
        rw [setProc_self]
        exact hk.countResident p
      have hpid (j : Nat) : ((k.setProc p { k.proc p with
          rss := k.countResident (k.proc p) }).proc j).pid = (k₀.proc j).pid :=
        hk'.calm.pid j
      simp only [calcRss, wp_bind, wp_modify, wp_get, wp_ite, hcount, hpid]
      constructor
      · intro hlt
        exact ih _ hk' (h.replace hs hlt)
      · intro hge
        refine ih _ hk' (h.pass fun _ => ?_)
        cases victim with
        | none =>
          rw [h.start rfl] at hge
          exact absurd (.inl (by omega)) hge
        | some v =>
          obtain ⟨_, _, rfl⟩ := h.pick v rfl
          refine ⟨v, rfl, ?_⟩
          simp only [not_or, not_and, Option.mem_some_iff, forall_eq', not_lt] at hge
          rcases Nat.lt_or_ge (k₀.countResident (k₀.proc p)) (k₀.countResident (k₀.proc v)) with hl | hl
          · exact .inl hl
          · have heq : k₀.countResident (k₀.proc p) = k₀.countResident (k₀.proc v) := by omega
            exact .inr ⟨heq, hge.2 (by rw [heq])⟩
    · intro hs
      rw [hstate] at hs
      exact ih _ hk (h.pass fun hs' => absurd hs' hs)

/-! ### The page -/

/-- The states differ in page-table entries and the translations in use. -/
def OnlyFlags (k k' : Kernel) : Prop := ∃ m t, k' = { k with mem := m, tlb := t }

theorem OnlyFlags.trans (h : OnlyFlags k₀ k) (h' : OnlyFlags k k') : OnlyFlags k₀ k' := by
  obtain ⟨m, t, rfl⟩ := h
  obtain ⟨m', t', rfl⟩ := h'
  exact ⟨m', t', rfl⟩

theorem OnlyFlags.stock (h : OnlyFlags k k') : SameStock k k' := by
  obtain ⟨m, t, rfl⟩ := h
  exact ⟨rfl, rfl, rfl, rfl, rfl, rfl⟩

theorem agree_clearA (he : Present e) : Kernel.Agree e (e &&& ~~~pteA) := by
  refine ⟨?_, frameOf_clear e (by decide), and_clear e (by decide)⟩
  rw [Present, and_clear e (by decide)]
  exact he

theorem secondChance_spec (vas : List Nat) (h : Wf im k H) (hd : k.Live H d) (hsh : d ∉ H.dirs)
    (hvas : ∀ va ∈ vas, va < kernBase) :
    wp (secondChance d vas) k (fun r k' => Wf im k' H ∧ Quiet noPage k k' H ∧ OnlyFlags k k' ∧
      ∀ va ∈ r, va ∈ vas ∧ k'.Resident d va) E := by
  induction vas generalizing k with
  | nil =>
    rw [secondChance, wp_pure]
    exact ⟨h, .refl k H, ⟨k.mem, k.tlb, rfl⟩, by simp⟩
  | cons va vas ih =>
    have hva := hvas va List.mem_cons_self
    have hvas' := fun x hx => hvas x (List.mem_cons_of_mem va hx)
    have hnext {k' : Kernel} (h' : Wf im k' H) (hq' : Quiet noPage k k' H) (ho : OnlyFlags k k') :
        wp (secondChance d vas) k' (fun r k' => Wf im k' H ∧ Quiet noPage k k' H ∧ OnlyFlags k k' ∧
          ∀ x ∈ r, x ∈ va :: vas ∧ k'.Resident d x) E :=
      wp_mono (ih h' (hq'.calm.live.mpr hd) hvas')
        (fun r t ht => ⟨ht.1, hq'.trans ht.2.1, ho.trans ht.2.2.1, fun x hx =>
          (ht.2.2.2 x hx).imp_left (List.mem_cons_of_mem va)⟩) (fun _ _ he => he)
    have hsame := hnext h (.refl k H) ⟨k.mem, k.tlb, rfl⟩
    rw [secondChance, wp_bind, wp_get]
    cases hq : k.walk d va with
    | none => exact hsame
    | some q =>
      simp only [wp_ite, wp_bind, wp_modify, wp_pure, not_not]
      refine ⟨fun _ => hsame, fun hp => ⟨fun _ => ?_, fun _ => ?_⟩⟩
      · refine ⟨h, .refl k H, ⟨k.mem, k.tlb, rfl⟩, fun x hx => ?_⟩
        cases hx
        exact ⟨List.mem_cons_self, q, hq, hp⟩
      · exact hnext (h.setAgree hd hq hva hp (agree_clearA hp))
          (Quiet.setAgree h.acc hd hsh hq hva hp (agree_clearA hp)) ⟨_, _, rfl⟩

end Xv6.Swap
