import AdvancedXv6.Family.Wf

/-! `exit` and `wait` keep the invariant: children are passed on, and zombies are found. -/

namespace Xv6.Family
open Function

namespace Table
variable {k t : Table} {p q c np : Slot} {e : Event} {n : Nat}

/-- What the loop of `exit` has done to the table when it has passed the entries `qs`. -/
structure Passed (p : Slot) (qs : List Slot) (k t : Table) : Prop where
  initproc : t.initproc = k.initproc
  nextpid : t.nextpid = k.nextpid
  logs : t.born = k.born ∧ t.exited = k.exited ∧ t.reaped = k.reaped ∧ t.kills = k.kills
  parent : ∀ q, (t.proc q).parent =
    if q ∈ qs ∧ (k.proc q).parent = some p then some k.initproc else (k.proc q).parent
  proc : ∀ q, (t.proc q).pid = (k.proc q).pid ∧ (t.proc q).activity = (k.proc q).activity ∧
    (t.proc q).chan = (k.proc q).chan ∧ (t.proc q).killed = (k.proc q).killed
  state : ∀ q, (t.proc q).state = (k.proc q).state ∨ (k.proc q).state = .sleeping ∧ (t.proc q).state = .runnable
  woken : (∃ q ∈ qs, (k.proc q).parent = some p ∧ k.Zombie q) →
    ∀ q, (t.proc q).state = .sleeping → (t.proc q).chan ≠ some (.proc k.initproc)

theorem Passed.nil (p : Slot) (k : Table) : Passed p [] k k where
  initproc := rfl
  nextpid := rfl
  logs := ⟨rfl, rfl, rfl, rfl⟩
  parent q := (if_neg fun h => List.not_mem_nil h.1).symm
  proc q := ⟨rfl, rfl, rfl, rfl⟩
  state q := .inl rfl
  woken h := by
    obtain ⟨q, hq, -⟩ := h
    exact absurd hq List.not_mem_nil

theorem Passed.zombie {qs : List Slot} (h : Passed p qs k t) : t.Zombie q ↔ k.Zombie q := by
  unfold Zombie
  obtain heq | ⟨hs, hr⟩ := h.state q
  · rw [heq]
  · rw [hs, hr]
    decide

theorem Passed.next {qs : List Slot} (h : Passed p qs k t) (hp : p ≠ k.initproc) (q : Slot) :
    Passed p (qs ++ [q]) k (passOn p t q) := by
  have hmem : ∀ r, r ≠ q → (r ∈ qs ++ [q] ↔ r ∈ qs) := by
    intro r hr
    rw [List.mem_append, List.mem_singleton, or_iff_left hr]
  unfold passOn
  by_cases hpar : (t.proc q).parent = some p
  · rw [if_pos hpar]
    have hold : (k.proc q).parent = some p := by
      rw [h.parent q] at hpar
      split at hpar
      · exact absurd (Option.some.inj hpar).symm hp
      · exact hpar
    have hinit := h.initproc
    set u := t.modify q fun r => { r with parent := some t.initproc } with hu
    have hself : u.proc q = { t.proc q with parent := some t.initproc } := modify_self ..
    have hother : ∀ r, r ≠ q → u.proc r = t.proc r := fun r hr => modify_of_ne hr ..
    have hsame : ∀ r, (u.proc r).pid = (t.proc r).pid ∧ (u.proc r).activity = (t.proc r).activity ∧
        (u.proc r).chan = (t.proc r).chan ∧ (u.proc r).killed = (t.proc r).killed ∧
        (u.proc r).state = (t.proc r).state := by
      intro r
      by_cases hr : r = q
      · rw [hr, hself]
        exact ⟨rfl, rfl, rfl, rfl, rfl⟩
      · rw [hother r hr]
        exact ⟨rfl, rfl, rfl, rfl, rfl⟩
    have hparent : ∀ r, (u.proc r).parent =
        if r ∈ qs ++ [q] ∧ (k.proc r).parent = some p then some k.initproc else (k.proc r).parent := by
      intro r
      by_cases hr : r = q
      · rw [hr, hself, if_pos ⟨List.mem_append_right _ List.mem_cons_self, hold⟩, ← hinit]
      · rw [hother r hr, h.parent r]
        simp only [hmem r hr]
    have hkept : ∀ r, (u.proc r).state = (k.proc r).state ∨ (k.proc r).state = .sleeping ∧ (u.proc r).state = .runnable := by
      intro r
      rw [(hsame r).2.2.2.2]
      exact h.state r
    dsimp only
    split
    · refine ⟨h.initproc, h.nextpid, h.logs, fun r => ?_, fun r => ?_, fun r => ?_, fun _ r hs => ?_⟩
      · exact ((soft_rouse _ (u.proc r)).parent).trans (hparent r)
      · obtain ⟨hact, hchan, hkilled⟩ := rouse_same (some (.proc u.initproc)) (u.proc r)
        obtain ⟨h1, h2, h3, h4, -⟩ := hsame r
        obtain ⟨g1, g2, g3, g4⟩ := h.proc r
        exact ⟨((soft_rouse _ (u.proc r)).pid).trans (h1.trans g1), hact.trans (h2.trans g2), hchan.trans (h3.trans g3),
          hkilled.trans (h4.trans g4)⟩
      · change (rouse _ (u.proc r)).state = _ ∨ _ ∧ (rouse _ (u.proc r)).state = _
        obtain heq | ⟨hs, hr⟩ := rouse_state (some (.proc u.initproc)) (u.proc r)
        · rw [heq]
          exact hkept r
        · obtain heq' | hr' := hkept r
          · exact .inr ⟨heq'.symm.trans hs, hr⟩
          · exact .inr ⟨hr'.1, hr⟩
      · rw [← hinit]
        exact fun hc => (rouse_sleeping hs).2 ((rouse_same _ (u.proc r)).2.1.symm.trans hc)
    · rename_i hnz
      refine ⟨h.initproc, h.nextpid, h.logs, hparent, fun r => ?_, hkept, fun hex r hs => ?_⟩
      · obtain ⟨h1, h2, h3, h4, -⟩ := hsame r
        obtain ⟨g1, g2, g3, g4⟩ := h.proc r
        exact ⟨h1.trans g1, h2.trans g2, h3.trans g3, h4.trans g4⟩
      · obtain ⟨x, hx, hxp, hxz⟩ := hex
        have hxq : x ≠ q := fun hxq => hnz ((hsame q).2.2.2.2.trans (h.zombie.mpr (hxq ▸ hxz)))
        rw [(hsame r).2.2.1]
        rw [(hsame r).2.2.2.2] at hs
        exact h.woken ⟨x, (hmem x hxq).mp hx, hxp, hxz⟩ r hs
  · rw [if_neg hpar]
    have hin : (k.proc q).parent = some p → q ∈ qs := by
      intro hkp
      by_contra hq
      rw [h.parent q, if_neg fun hc => hq hc.1] at hpar
      exact hpar hkp
    refine ⟨h.initproc, h.nextpid, h.logs, fun r => ?_, h.proc, h.state, fun hex r hs => ?_⟩
    · by_cases hr : r = q
      · subst hr
        rw [h.parent r]
        refine if_congr (and_congr_left fun hkp => ?_) rfl rfl
        exact iff_of_true (hin hkp) (List.mem_append_left _ (hin hkp))
      · rw [h.parent r]
        simp only [hmem r hr]
    · obtain ⟨x, hx, hxp, hxz⟩ := hex
      have hxs : x ∈ qs := by
        by_cases hxq : x = q
        · rw [hxq] at hxp ⊢
          exact hin hxp
        · exact (hmem x hxq).mp hx
      exact h.woken ⟨x, hxs, hxp, hxz⟩ r hs

theorem passed_foldl {qs : List Slot} (h : Passed p qs k t) (hp : p ≠ k.initproc) (rs : List Slot) :
    Passed p (qs ++ rs) k (rs.foldl (passOn p) t) := by
  induction rs generalizing qs t with
  | nil =>
    rw [List.append_nil]
    exact h
  | cons r rs ih =>
    have hnext := ih (h.next hp r)
    rw [List.append_assoc] at hnext
    exact hnext

/-- What the locked part of `exit` does. -/
structure Leaves (p : Slot) (k t : Table) : Prop where
  initproc : t.initproc = k.initproc
  nextpid : t.nextpid = k.nextpid
  born : t.born = k.born
  reaped : t.reaped = k.reaped
  kills : t.kills = k.kills
  exited : t.exited = k.exited ++ [(k.proc p).pid]
  parent : ∀ q, (t.proc q).parent = if (k.proc q).parent = some p then some k.initproc else (k.proc q).parent
  proc : ∀ q, (t.proc q).pid = (k.proc q).pid ∧ (t.proc q).activity = (k.proc q).activity ∧
    (t.proc q).chan = (k.proc q).chan ∧ (t.proc q).killed = (k.proc q).killed
  self : t.Zombie p
  state : ∀ q, q ≠ p → (t.proc q).state = (k.proc q).state ∨ (k.proc q).state = .sleeping ∧ (t.proc q).state = .runnable
  wokenParent : ∀ q, q ≠ p → (t.proc q).state = .sleeping → (k.proc p).parent = some q → (k.proc q).chan ≠ some (.proc q)
  wokenInit : (∃ q, (k.proc q).parent = some p ∧ k.Zombie q) →
    ∀ q, q ≠ p → (t.proc q).state = .sleeping → (k.proc q).chan ≠ some (.proc k.initproc)

theorem leave_leaves (hp : p ≠ k.initproc) : Leaves p k (k.leave p) := by
  obtain ⟨w, hw⟩ : ∃ w, w = k.wakeup1 ((k.proc p).parent.map .proc) := ⟨_, rfl⟩
  obtain ⟨u, hu⟩ : ∃ u, u = (List.finRange nProc).foldl (passOn p) w := ⟨_, rfl⟩
  have hleave : k.leave p = { u.modify p fun q => { q with state := .zombie } with
      exited := k.exited ++ [(k.proc p).pid] } := by
    unfold Table.leave
    rw [← hw, ← hu]
  have hsoft : Soft k w := hw ▸ .wakeup1 ..
  have hinit : w.initproc = k.initproc := hsoft.initproc
  have hpass : Passed p (List.finRange nProc) w u := hu ▸ passed_foldl (.nil p w) (hinit ▸ hp) _
  have hself : (k.leave p).proc p = { u.proc p with state := .zombie } := by
    rw [hleave]
    exact modify_self u p fun q => { q with state := .zombie }
  have hother : ∀ q, q ≠ p → (k.leave p).proc q = u.proc q := by
    intro q hq
    rw [hleave]
    exact modify_of_ne hq u fun q => { q with state := .zombie }
  have hsame : ∀ q, (w.proc q).activity = (k.proc q).activity ∧ (w.proc q).chan = (k.proc q).chan ∧
      (w.proc q).killed = (k.proc q).killed := by
    intro q
    rw [hw]
    exact rouse_same _ (k.proc q)
  have hparent : ∀ q, (u.proc q).parent = if (k.proc q).parent = some p then some k.initproc else (k.proc q).parent := by
    intro q
    rw [hpass.parent q, (hsoft.proc q).parent]
    simp only [List.mem_finRange, true_and, hinit]
  have hproc : ∀ q, (u.proc q).pid = (k.proc q).pid ∧ (u.proc q).activity = (k.proc q).activity ∧
      (u.proc q).chan = (k.proc q).chan ∧ (u.proc q).killed = (k.proc q).killed := by
    intro q
    obtain ⟨h1, h2, h3, h4⟩ := hpass.proc q
    obtain ⟨g2, g3, g4⟩ := hsame q
    exact ⟨h1.trans (hsoft.proc q).pid, h2.trans g2, h3.trans g3, h4.trans g4⟩
  -- who still sleeps has slept before, and not on the parent's channel
  have hsleep : ∀ q, (u.proc q).state = .sleeping →
      (k.proc q).state = .sleeping ∧ (k.proc q).chan ≠ (k.proc p).parent.map .proc := by
    intro q hs
    obtain heq | ⟨-, hr⟩ := hpass.state q
    · rw [heq, hw] at hs
      exact rouse_sleeping hs
    · rw [hr] at hs
      cases hs
  have hstate : ∀ q, (u.proc q).state = (k.proc q).state ∨ (k.proc q).state = .sleeping ∧ (u.proc q).state = .runnable := by
    intro q
    have hwq : (w.proc q).state = (k.proc q).state ∨ (k.proc q).state = .sleeping ∧ (w.proc q).state = .runnable := by
      rw [hw]
      exact rouse_state ..
    obtain heq | ⟨hs, hr⟩ := hpass.state q
    · rw [heq]
      exact hwq
    · obtain heq' | ⟨-, hr'⟩ := hwq
      · exact .inr ⟨heq'.symm.trans hs, hr⟩
      · rw [hr'] at hs
        cases hs
  constructor
  · rw [hleave]
    exact hpass.initproc.trans hinit
  · rw [hleave]
    exact hpass.nextpid.trans hsoft.nextpid
  · rw [hleave]
    exact hpass.logs.1.trans hsoft.born
  · rw [hleave]
    exact hpass.logs.2.2.1.trans hsoft.reaped
  · rw [hleave]
    refine hpass.logs.2.2.2.trans ?_
    rw [hw]
    rfl
  · rw [hleave]
  · intro q
    by_cases hq : q = p
    · rw [hq, hself]
      exact hparent p
    · rw [hother q hq]
      exact hparent q
  · intro q
    by_cases hq : q = p
    · rw [hq, hself]
      exact hproc p
    · rw [hother q hq]
      exact hproc q
  · unfold Zombie
    rw [hself]
  · intro q hq
    rw [hother q hq]
    exact hstate q
  · intro q hq hs hpar hchan
    rw [hother q hq] at hs
    refine (hsleep q hs).2 ?_
    rw [hpar]
    exact hchan
  · intro hex q hq hs
    rw [hother q hq] at hs
    rw [← (hproc q).2.2.1]
    rw [← hinit]
    refine hpass.woken ?_ q hs
    obtain ⟨x, hxp, hxz⟩ := hex
    exact ⟨x, List.mem_finRange x, (hsoft.proc x).parent.trans hxp, (hsoft.zombie x).mpr hxz⟩

theorem Wf.leaves (h : k.Wf) (hl : Leaves p k t) (hp : k.Live p) (hact : (k.proc p).activity = .exit) : t.Wf := by
  have hpi : p ≠ k.initproc := fun hpi => h.stays (hpi ▸ hact)
  have hlive : ∀ q, q ≠ p → (t.Live q ↔ k.Live q) := by
    intro q hq
    unfold Live
    obtain heq | ⟨hs, hr⟩ := hl.state q hq
    · rw [heq]
    · rw [hs, hr]
      exact iff_of_true trivial trivial
  have hdead : ∀ q, t.Live q → q ≠ p := fun q hq hqp => not_live_zombie hl.self (hqp ▸ hq)
  have hold : ∀ q s, q ≠ p → ¬s.Live → ((t.proc q).state = s ↔ (k.proc q).state = s) := by
    intro q s hq hs
    obtain heq | ⟨hs', hr⟩ := hl.state q hq
    · rw [heq]
    · refine iff_of_false (fun h => hs ?_) fun h => hs ?_
      · rw [← h, hr]
        exact trivial
      · rw [← h, hs']
        exact trivial
  have hused : ∀ q, (t.proc q).state ≠ .unused → (k.proc q).state ≠ .unused := by
    intro q hq
    by_cases hqp : q = p
    · rw [hqp]
      exact Live.ne_unused hp
    · exact fun hu => hq ((hold q _ hqp id).mpr hu)
  have hheir : ∀ n r, k.Heir n r → t.Heir n r := by
    intro n r hh
    refine hh.mono (fun x hx => hl.born ▸ hx) fun x hx => ?_
    rw [hl.exited]
    exact List.mem_append_left _ hx
  have hadopted : ∀ q, (k.proc q).parent = some p → (t.proc q).parent = some k.initproc :=
    fun q hq => (hl.parent q).trans (if_pos hq)
  have hkept : ∀ q, (k.proc q).parent ≠ some p → (t.proc q).parent = (k.proc q).parent :=
    fun q hq => (hl.parent q).trans (if_neg hq)
  have hin : k.initproc ≠ p := hpi.symm
  have hinit : (k.proc k.initproc).parent ≠ some p := by
    rw [h.init.2.2]
    exact Option.some_ne_none p |>.symm
  constructor
  · rw [hl.initproc, hlive _ hin, (hl.proc _).1, hkept _ hinit]
    exact h.init
  · rw [hl.initproc, (hl.proc _).2.1]
    exact h.stays
  · intro q r hr
    by_cases hq : (k.proc q).parent = some p
    · obtain rfl := Option.some.inj ((hadopted q hq).symm.trans hr)
      exact ⟨(hlive _ hin).mpr h.init.1, fun heq => hinit (heq ▸ hq)⟩
    · rw [hkept q hq] at hr
      obtain ⟨hrl, hne⟩ := h.parent q r hr
      exact ⟨(hlive r fun hrp => hq (hrp ▸ hr)).mpr hrl, hne⟩
  · intro q hq hlz
    rw [hl.initproc] at hq
    have hlz' : k.Live q ∨ k.Zombie q := by
      by_cases hqp : q = p
      · exact .inl (hqp ▸ hp)
      · exact hlz.imp (hlive q hqp).mp (hold q _ hqp id).mp
    obtain ⟨r, hr, hh⟩ := h.child q hq hlz'
    rw [(hl.proc q).1]
    by_cases hrp : r = p
    · -- the maker of `q`, or init for it, leaves: `init` takes its place
      rw [hrp] at hr hh
      refine ⟨k.initproc, hadopted q hr, ?_⟩
      rw [(hl.proc _).1, h.init.2.1]
      obtain ⟨f, hf, hfr⟩ := hh
      refine ⟨f, hl.born ▸ hf, .inr ⟨rfl, ?_⟩⟩
      rw [hl.exited]
      obtain heq | ⟨-, hex⟩ := hfr
      · rw [← heq]
        exact List.mem_append_right _ List.mem_cons_self
      · exact List.mem_append_left _ hex
    · have hne : (k.proc q).parent ≠ some p := fun heq => hrp (Option.some.inj (hr.symm.trans heq))
      refine ⟨r, (hkept q hne).trans hr, ?_⟩
      rw [(hl.proc r).1]
      exact hheir _ _ hh
  · intro q hu
    have hqp : q ≠ p := by
      rintro rfl
      have hz : (t.proc q).state = .zombie := hl.self
      rw [hz] at hu
      cases hu
    have hnone := h.unused q ((hold q _ hqp id).mp hu)
    have hne : (k.proc q).parent ≠ some p := by
      rw [hnone]
      exact (Option.some_ne_none p).symm
    exact (hkept q hne).trans hnone
  · intro q np b hq hf
    have hqp := hdead q hq
    rw [(hl.proc q).2.1] at hf
    obtain ⟨hnp, hpar⟩ := h.fork q np b ((hlive q hqp).mp hq) hf
    have hnpp : np ≠ p := hp.ne (not_live_embryo hnp)
    refine ⟨(hold np _ hnpp id).mpr hnp, (hkept np fun heq => ?_).trans hpar⟩
    rw [hpar] at heq
    cases b
    · cases heq
    · exact hqp (Option.some.inj heq)
  · intro q r np b b' hq hr hf hf'
    rw [(hl.proc _).2.1] at hf hf'
    exact h.forks q r np b b' ((hlive q (hdead q hq)).mp hq) ((hlive r (hdead r hr)).mp hr) hf hf'
  · intro q hs ha
    have hqp : q ≠ p := by
      rintro rfl
      have hz : (t.proc q).state = .zombie := hl.self
      rw [hz] at hs
      cases hs
    have hslept : (k.proc q).state = .sleeping := by
      obtain heq | ⟨-, hr⟩ := hl.state q hqp
      · exact heq.symm.trans hs
      · rw [hr] at hs
        cases hs
    rw [(hl.proc q).2.1] at ha
    obtain ⟨hchan, hnz⟩ := h.wait q hslept ha
    refine ⟨(hl.proc q).2.2.1.trans hchan, fun r hr hz => ?_⟩
    by_cases hrp : r = p
    · -- the new zombie: its parent has been woken
      rw [hrp] at hr
      have hself : (k.proc p).parent ≠ some p := fun heq => (h.parent p p heq).2 rfl
      exact hl.wokenParent q hqp hs ((hkept p hself).symm.trans hr) hchan
    · have hz' : k.Zombie r := (hold r _ hrp id).mp hz
      by_cases hadopt : (k.proc r).parent = some p
      · obtain rfl := Option.some.inj ((hadopted r hadopt).symm.trans hr)
        exact hl.wokenInit ⟨r, hadopt, hz'⟩ _ hqp hs hchan
      · exact hnz r ((hkept r hadopt).symm.trans hr) hz'
  · intro q
    rw [(hl.proc q).1, hl.nextpid]
    exact h.nextpid q
  · intro q hu
    rw [(hl.proc q).1]
    exact h.pid q (hused q hu)
  · intro q r hpos heq
    rw [(hl.proc q).1] at hpos heq
    rw [(hl.proc r).1] at heq
    exact h.distinct q r hpos heq
  · intro q hq hc hk
    rw [(hl.proc q).2.1] at hc
    rw [(hl.proc q).2.2.2] at hk
    rw [(hl.proc q).1, hl.kills]
    exact h.killed q ((hlive q (hdead q hq)).mp hq) hc hk
  · intro n
    rw [hl.exited, hl.reaped, List.mem_append, List.mem_singleton, h.exited n]
    have hzombies : (∃ q, t.Zombie q ∧ (t.proc q).pid = n) ↔ (∃ q, k.Zombie q ∧ (k.proc q).pid = n) ∨ n = (k.proc p).pid := by
      constructor
      · rintro ⟨q, hz, hn⟩
        rw [(hl.proc q).1] at hn
        by_cases hqp : q = p
        · exact .inr (hqp ▸ hn.symm)
        · exact .inl ⟨q, (hold q _ hqp id).mp hz, hn⟩
      · rintro (⟨q, hz, hn⟩ | hn)
        · have hqp : q ≠ p := fun hqp => not_live_zombie hz (hqp ▸ hp)
          exact ⟨q, (hold q _ hqp id).mpr hz, (hl.proc q).1.trans hn⟩
        · exact ⟨p, hl.self, (hl.proc p).1.trans hn.symm⟩
    rw [hzombies]
    exact or_right_comm
  · intro x hx
    rw [hl.reaped] at hx
    obtain ⟨hlt, hne, hh⟩ := h.reaped x hx
    refine ⟨hl.nextpid ▸ hlt, fun q hu => ?_, hheir _ _ hh⟩
    rw [(hl.proc q).1]
    exact hne q (hused q hu)
  · rw [hl.reaped]
    exact h.nodup

/-! ### wait -/

/-- The zombie `q` of `p` is freed. -/
theorem Wf.cleared (h : k.Wf) (hq : (k.proc q).parent = some p) (hz : k.Zombie q) :
    ({ k.modify q clear with reaped := k.reaped ++ [((k.proc q).pid, (k.proc p).pid)] } : Table).Wf := by
  set t := ({ k.modify q clear with reaped := k.reaped ++ [((k.proc q).pid, (k.proc p).pid)] } : Table) with ht
  have hself : t.proc q = clear (k.proc q) := modify_self ..
  have hother : ∀ r, r ≠ q → t.proc r = k.proc r := fun r hr => modify_of_ne hr ..
  have hdead : ¬k.Live q := not_live_zombie hz
  have hdead' : ¬t.Live q := by
    unfold Live
    rw [hself]
    exact id
  have hlive : ∀ r, t.Live r ↔ k.Live r := by
    intro r
    by_cases hr : r = q
    · rw [hr]
      exact iff_of_false hdead' hdead
    · unfold Live
      rw [hother r hr]
  have hne : ∀ r, k.Live r → r ≠ q := fun r hr heq => hdead (heq ▸ hr)
  have hzombie : ∀ r, t.Zombie r ↔ k.Zombie r ∧ r ≠ q := by
    intro r
    unfold Zombie
    by_cases hr : r = q
    · rw [hr, hself]
      exact iff_of_false (fun h => ProcState.noConfusion h) fun h => h.2 rfl
    · rw [hother r hr]
      exact (and_iff_left hr).symm
  have hused : (k.proc q).state ≠ .unused := by
    have hzs : (k.proc q).state = .zombie := hz
    rw [hzs]
    decide
  have hused' : ∀ r, (t.proc r).state ≠ .unused → r ≠ q := by
    rintro r hr rfl
    rw [hself] at hr
    exact hr rfl
  have hqi : q ≠ k.initproc := fun heq => hdead (heq ▸ h.init.1)
  have hheir := h.child q hqi (.inr hz)
  have hpos := h.pid q hused
  have hinit : t.proc t.initproc = k.proc k.initproc := hother _ hqi.symm
  constructor
  · rw [hlive, hinit]
    exact h.init
  · rw [hinit]
    exact h.stays
  · intro r x hx
    have hr : r ≠ q := by
      rintro rfl
      rw [hself] at hx
      cases hx
    rw [hother r hr] at hx
    rw [hlive]
    exact h.parent r x hx
  · intro r hri hlz
    rw [hlive, hzombie] at hlz
    have hr : r ≠ q := by
      rintro rfl
      exact hlz.elim hdead fun hz => hz.2 rfl
    obtain ⟨x, hx, hh⟩ := h.child r hri (hlz.imp_right And.left)
    refine ⟨x, (congrArg Proc.parent (hother r hr)).trans hx, ?_⟩
    rw [hother r hr, hother x (hne x (h.parent r x hx).1)]
    exact hh
  · intro r hr
    by_cases hrq : r = q
    · rw [hrq, hself]
      rfl
    · rw [hother r hrq] at hr ⊢
      exact h.unused r hr
  · intro r np b hr hf
    rw [hlive] at hr
    rw [hother r (hne r hr)] at hf
    obtain ⟨hnp, hpar⟩ := h.fork r np b hr hf
    have hnq : np ≠ q := by
      rintro rfl
      have hzs : (k.proc np).state = .zombie := hz
      rw [hzs] at hnp
      cases hnp
    rw [hother np hnq]
    exact ⟨hnp, hpar⟩
  · intro r x np b b' hr hx hf hf'
    rw [hlive] at hr hx
    rw [hother r (hne r hr)] at hf
    rw [hother x (hne x hx)] at hf'
    exact h.forks r x np b b' hr hx hf hf'
  · intro r hs ha
    have hr : r ≠ q := by
      rintro rfl
      rw [hself] at hs
      cases hs
    rw [hother r hr] at hs ha ⊢
    obtain ⟨hchan, hnz⟩ := h.wait r hs ha
    refine ⟨hchan, fun x hx hxz => ?_⟩
    rw [hzombie] at hxz
    rw [hother x hxz.2] at hx
    exact hnz x hx hxz.1
  · intro r
    by_cases hr : r = q
    · rw [hr, hself]
      exact Nat.lt_of_le_of_lt (Nat.zero_le _) (h.nextpid q)
    · rw [hother r hr]
      exact h.nextpid r
  · intro r hr
    have hrq := hused' r hr
    rw [hother r hrq] at hr ⊢
    exact h.pid r hr
  · intro r x hrpos heq
    have hr : r ≠ q := by
      rintro rfl
      rw [hself] at hrpos
      exact absurd hrpos (Nat.lt_irrefl 0)
    have hx : x ≠ q := by
      rintro rfl
      rw [heq, hself] at hrpos
      exact absurd hrpos (Nat.lt_irrefl 0)
    rw [hother r hr] at hrpos heq
    rw [hother x hx] at heq
    exact h.distinct r x hrpos heq
  · intro r hr hc hk
    rw [hlive] at hr
    rw [hother r (hne r hr)] at hc hk ⊢
    exact h.killed r hr hc hk
  · intro n
    have hlist : n ∈ t.reaped.map Prod.fst ↔ n ∈ k.reaped.map Prod.fst ∨ n = (k.proc q).pid := by
      rw [ht, List.map_append, List.mem_append]
      exact or_congr_right List.mem_singleton
    have hzombies : (∃ r, k.Zombie r ∧ (k.proc r).pid = n) ↔
        (∃ r, t.Zombie r ∧ (t.proc r).pid = n) ∨ n = (k.proc q).pid := by
      constructor
      · rintro ⟨r, hr, hn⟩
        by_cases hrq : r = q
        · exact .inr (hrq ▸ hn.symm)
        · exact .inl ⟨r, (hzombie r).mpr ⟨hr, hrq⟩, (congrArg Proc.pid (hother r hrq)).trans hn⟩
      · rintro (⟨r, hr, hn⟩ | hn)
        · rw [hzombie] at hr
          rw [hother r hr.2] at hn
          exact ⟨r, hr.1, hn⟩
        · exact ⟨q, hz, hn.symm⟩
    have hsum := h.exited n
    rw [hzombies, or_assoc, or_comm (a := n = _), ← hlist] at hsum
    exact hsum
  · intro x hx
    obtain hold | hnew := List.mem_append.mp hx
    · obtain ⟨hlt, hpid, hh⟩ := h.reaped x hold
      refine ⟨hlt, fun r hr => ?_, hh⟩
      have hrq := hused' r hr
      rw [hother r hrq] at hr ⊢
      exact hpid r hr
    · obtain rfl := List.mem_singleton.mp hnew
      refine ⟨h.nextpid q, fun r hr => ?_, ?_⟩
      · have hrq := hused' r hr
        rw [hother r hrq]
        exact fun heq => hrq (h.distinct q r hpos heq.symm).symm
      · obtain ⟨x, hx, hh⟩ := hheir
        obtain rfl := Option.some.inj (hq.symm.trans hx)
        exact hh
  · rw [ht, List.map_append]
    refine List.Nodup.append h.nodup (List.nodup_singleton _) fun m hm hm' => ?_
    obtain rfl := List.mem_singleton.mp hm'
    obtain ⟨x, hx, hxm⟩ := List.mem_map.mp hm
    exact (h.reaped x hx).2.1 q hused hxm.symm

theorem Wf.reap (h : k.Wf) (hq : (k.proc q).parent = some p) (hz : k.Zombie q) : (k.reap p q).Wf :=
  (h.cleared hq hz).ret p (k.proc q).pid

theorem waitLoop_some (k : Table) (p : Slot) (qs : List Slot) (b : Bool) (h : (k.waitLoop p qs b).2 = some q) :
    (k.proc q).parent = some p ∧ k.Zombie q := by
  induction qs generalizing b with
  | nil => cases h
  | cons r qs ih =>
    rw [waitLoop] at h
    split at h
    · exact ih b h
    · rename_i hpar
      split at h
      · rename_i hz
        obtain rfl := Option.some.inj h
        exact ⟨not_not.mp hpar, hz⟩
      · exact ih true h

theorem waitLoop_none (k : Table) (p : Slot) (qs : List Slot) (b : Bool) (h : (k.waitLoop p qs b).2 = none) :
    (∀ q ∈ qs, (k.proc q).parent = some p → ¬k.Zombie q) ∧
      ((k.waitLoop p qs b).1 = false → b = false ∧ ∀ q ∈ qs, (k.proc q).parent ≠ some p) := by
  induction qs generalizing b with
  | nil => exact ⟨fun _ hq => absurd hq List.not_mem_nil, fun hb => ⟨hb, fun _ hq => absurd hq List.not_mem_nil⟩⟩
  | cons r qs ih =>
    rw [waitLoop] at h ⊢
    by_cases hpar : (k.proc r).parent = some p
    · rw [if_neg (not_not.mpr hpar)] at h ⊢
      by_cases hz : (k.proc r).state = .zombie
      · rw [if_pos hz] at h
        cases h
      · rw [if_neg hz] at h ⊢
        obtain ⟨hnz, hkids⟩ := ih true h
        refine ⟨List.forall_mem_cons.mpr ⟨fun _ => hz, hnz⟩, fun hb => ?_⟩
        exact absurd (hkids hb).1 Bool.noConfusion
    · rw [if_pos hpar] at h ⊢
      obtain ⟨hnz, hkids⟩ := ih b h
      refine ⟨List.forall_mem_cons.mpr ⟨fun heq => absurd heq hpar, hnz⟩, fun hb => ?_⟩
      exact ⟨(hkids hb).1, List.forall_mem_cons.mpr ⟨hpar, (hkids hb).2⟩⟩

/-- What a round of `wait` does: it frees a zombie child, or there is none, and it fails for a
reason or goes to sleep. -/
theorem wait_cases (k : Table) (p : Slot) :
    (∃ q, (k.proc q).parent = some p ∧ k.Zombie q ∧ k.wait p = k.reap p q) ∨
    k.NoZombie p ∧ (((∀ q, (k.proc q).parent ≠ some p) ∨ (k.proc p).killed = true) ∧ k.wait p = k.ret p (-1) ∨
      (k.proc p).killed = false ∧ k.wait p = k.modify p fun q => { q with activity := .wait, chan := some (.proc p), state := .sleeping }) := by
  unfold Table.wait
  split
  · rename_i b q hq
    have hsome : (k.waitLoop p (List.finRange nProc) false).2 = some q := congrArg Prod.snd hq
    obtain ⟨hpar, hz⟩ := waitLoop_some k p _ false hsome
    exact .inl ⟨q, hpar, hz, rfl⟩
  · rename_i b hq
    have hnone : (k.waitLoop p (List.finRange nProc) false).2 = none := congrArg Prod.snd hq
    have hkids : (k.waitLoop p (List.finRange nProc) false).1 = b := congrArg Prod.fst hq
    obtain ⟨hnz, hno⟩ := waitLoop_none k p _ false hnone
    refine .inr ⟨fun q => hnz q (List.mem_finRange q), ?_⟩
    split
    · rename_i hfail
      refine .inl ⟨?_, rfl⟩
      obtain hb | hk := Bool.or_eq_true _ _ |>.mp hfail
      · rw [hkids] at hno
        exact .inl fun q => (hno (Bool.not_eq_true' b |>.mp hb)).2 q (List.mem_finRange q)
      · exact .inr hk
    · rename_i hgo
      rw [Bool.or_eq_true, not_or] at hgo
      exact .inr ⟨Bool.eq_false_iff.mpr hgo.2, rfl⟩

theorem Wf.wait_round (h : k.Wf) (hp : k.Live p) : (k.wait p).Wf := by
  obtain ⟨q, hpar, hz, heq⟩ | ⟨hnz, ⟨-, heq⟩ | ⟨hnk, heq⟩⟩ := wait_cases k p
  · rw [heq]
    exact h.reap hpar hz
  · rw [heq]
    exact h.ret p (-1)
  · rw [heq]
    apply h.modify
    · exact ⟨rfl, rfl, .inr ⟨hp, trivial⟩⟩
    · exact fun _ ha => Activity.noConfusion ha
    · exact fun _ _ hf => Activity.noConfusion hf
    · exact fun _ _ => ⟨rfl, hnz⟩
    · intro _ _ hk
      exact absurd (hnk.symm.trans hk) Bool.noConfusion

/-! ### Steps -/

theorem Wf.kill (h : k.Wf) (p : Slot) (n : Nat) : (k.kill p n).Wf := by
  unfold Table.kill
  split
  · exact h.ret p (-1)
  · rename_i q hfind
    have hpid : (k.proc q).pid = n := of_decide_eq_true (find_some hfind)
    set f : Proc → Proc := fun r =>
      { r with killed := true, state := if r.state = .sleeping then .runnable else r.state } with hf
    have hstate : (f (k.proc q)).state = (k.proc q).state ∧ (k.proc q).state ≠ .sleeping ∨
        (k.proc q).state = .sleeping ∧ (f (k.proc q)).state = .runnable := by
      by_cases hs : (k.proc q).state = .sleeping
      · exact .inr ⟨hs, if_pos hs⟩
      · exact .inl ⟨if_neg hs, hs⟩
    have hsoft : (k.proc q).Soft (f (k.proc q)) := by
      refine ⟨rfl, rfl, ?_⟩
      obtain ⟨heq, -⟩ | ⟨hs, hr⟩ := hstate
      · exact .inl heq
      · rw [hs, hr]
        exact .inr ⟨trivial, trivial⟩
    have hmod : ({ k.modify q f with kills := k.kills ++ [n] } : Table).Wf := by
      have hs := Soft.modify hsoft
      refine h.idle ⟨hs.proc, rfl, rfl, rfl, rfl, rfl⟩ ?_ (fun r m b ha => ?_) (fun r hsl ha => ?_) fun r hl hc hk => ?_
      · change ((k.modify q f).proc k.initproc).activity ≠ .exit
        by_cases hr : k.initproc = q
        · rw [hr, modify_self]
          exact hr ▸ h.stays
        · rw [modify_of_ne hr]
          exact h.stays
      · change ((k.modify q f).proc r).activity = .fork m b at ha
        by_cases hr : r = q
        · rw [hr, modify_self] at ha
          exact hr ▸ ha
        · rw [modify_of_ne hr] at ha
          exact ha
      · change ((k.modify q f).proc r).state = .sleeping at hsl
        change ((k.modify q f).proc r).activity = .wait at ha
        change ((k.modify q f).proc r).chan = _ ∧ _
        by_cases hr : r = q
        · rw [hr, modify_self] at hsl
          obtain ⟨heq, hne⟩ | ⟨-, hrun⟩ := hstate
          · exact absurd (heq.symm.trans hsl) hne
          · rw [hrun] at hsl
            cases hsl
        · rw [modify_of_ne hr] at hsl ha ⊢
          exact h.wait r hsl ha
      · have hl' : k.Live r := (hs.live r).mp hl
        change ((k.modify q f).proc r).activity.InCall at hc
        change ((k.modify q f).proc r).killed = true at hk
        by_cases hr : r = q
        · rw [hr, hpid]
          exact List.mem_append_right _ List.mem_cons_self
        · rw [modify_of_ne hr] at hc hk
          exact List.mem_append_left _ (h.killed r hl' hc hk)
    exact hmod.ret p 0

/-- A process goes on in the same call, or leaves it. -/
theorem Wf.goOn {f : Proc → Proc} (h : k.Wf) (hp : (k.proc p).state = .running)
    (hkept : (f (k.proc p)).pid = (k.proc p).pid ∧ (f (k.proc p)).parent = (k.proc p).parent)
    (hlive : (f (k.proc p)).state.Live)
    (hact : (f (k.proc p)).activity = (k.proc p).activity ∧ (f (k.proc p)).killed = (k.proc p).killed ∨
      (f (k.proc p)).activity = .user ∨ (f (k.proc p)).activity = .returning ∨
      (f (k.proc p)).activity = .kernel ∧ (f (k.proc p)).killed = false)
    (hwait : (f (k.proc p)).state = .sleeping → (k.proc p).activity ≠ .wait) : (k.modify p f).Wf := by
  have hl : k.Live p := live_of_running hp
  apply h.modify
  · exact ⟨hkept.1, hkept.2, .inr ⟨hl, hlive⟩⟩
  · rintro rfl ha
    obtain ⟨heq, -⟩ | heq | heq | ⟨heq, -⟩ := hact
    · exact h.stays (heq.symm.trans ha)
    all_goals exact Activity.noConfusion (heq.symm.trans ha)
  · intro m b ha
    obtain ⟨heq, -⟩ | heq | heq | ⟨heq, -⟩ := hact
    · exact heq.symm.trans ha
    all_goals exact Activity.noConfusion (heq.symm.trans ha)
  · intro hs ha
    obtain ⟨heq, -⟩ | heq | heq | ⟨heq, -⟩ := hact
    · exact absurd (heq.symm.trans ha) (hwait hs)
    all_goals exact Activity.noConfusion (heq.symm.trans ha)
  · intro _ hc hk
    obtain ⟨heq, heq'⟩ | heq | heq | ⟨-, hnk⟩ := hact
    · rw [heq] at hc
      rw [heq'] at hk
      exact h.killed p hl hc hk
    · rw [heq] at hc
      exact hc.elim
    · rw [heq] at hc
      exact hc.elim
    · exact absurd (hnk.symm.trans hk) Bool.noConfusion

/-- The process that the scheduler switches to. -/
def dispatch (q : Proc) : Proc := { q with state := .running, chan := none }

theorem live_of_runnable (hp : (k.proc p).state = .runnable) : k.Live p := by
  unfold Live
  rw [hp]
  exact trivial

theorem soft_dispatch (hp : (k.proc p).state = .runnable) : Soft k (k.modify p dispatch) :=
  .modify ⟨rfl, rfl, .inr ⟨live_of_runnable hp, trivial⟩⟩

theorem Wf.dispatch (h : k.Wf) (hp : (k.proc p).state = .runnable) : (k.modify p dispatch).Wf := by
  apply h.modify
  · exact ⟨rfl, rfl, .inr ⟨live_of_runnable hp, trivial⟩⟩
  · rintro rfl
    exact h.stays
  · exact fun _ _ ha => ha
  · exact fun hs => ProcState.noConfusion hs
  · exact fun hl hc hk => h.killed p hl hc hk

theorem schedule_cases (k : Table) (p : Slot) :
    (k.proc p).activity = .wait ∧ k.schedule p = (k.modify p Table.dispatch).wait p ∨
      (k.proc p).activity ≠ .wait ∧ k.schedule p = k.modify p Table.dispatch := by
  unfold Table.schedule
  dsimp only
  split
  · rename_i ha
    exact .inl ⟨ha, rfl⟩
  · rename_i ha
    exact .inr ⟨ha, rfl⟩

theorem Wf.schedule (h : k.Wf) (hp : (k.proc p).state = .runnable) : (k.schedule p).Wf := by
  obtain ⟨-, heq⟩ | ⟨-, heq⟩ := schedule_cases k p
  · rw [heq]
    exact (h.dispatch hp).wait_round (((soft_dispatch hp).live p).mpr (live_of_runnable hp))
  · rw [heq]
    exact h.dispatch hp

theorem Wf.act (h : k.Wf) (hp : (k.proc p).state = .running) (ht : k.act p e = some t) : t.Wf := by
  have hl : k.Live p := live_of_running hp
  have hback : (if (k.proc p).killed then k.exit p else k.modify p fun q => { q with activity := .user }).Wf := by
    split
    · exact h.exit_test p
    · exact h.goOn hp ⟨rfl, rfl⟩ hl (.inr (.inl rfl)) fun hs => absurd (hp.symm.trans hs) ProcState.noConfusion
  have hsleep : (k.proc p).activity ≠ .wait → ∀ n,
      (k.modify p fun q => { q with chan := some (.other n), state := .sleeping }).Wf :=
    fun ha n => h.goOn hp ⟨rfl, rfl⟩ trivial (.inl ⟨rfl, rfl⟩) fun _ => ha
  unfold Table.act at ht
  split at ht
  · obtain rfl := Option.some.inj ht
    exact h.goOn hp ⟨rfl, rfl⟩ trivial (.inl ⟨rfl, rfl⟩) fun hs => ProcState.noConfusion hs
  · obtain rfl := Option.some.inj ht
    split
    · exact h.exit_test p
    · rename_i hk
      refine h.goOn hp ⟨rfl, rfl⟩ hl (.inr (.inr (.inr ⟨rfl, Bool.eq_false_iff.mpr hk⟩))) fun hs => ?_
      exact absurd (hp.symm.trans hs) ProcState.noConfusion
  · obtain rfl := Option.some.inj ht
    exact hback
  · obtain rfl := Option.some.inj ht
    exact hback
  · obtain rfl := Option.some.inj ht
    rename_i ha
    refine Wf.exit_test ?_ p
    apply h.modify
    · exact ⟨rfl, rfl, .inl rfl⟩
    · intro _ hx
      exact Activity.noConfusion (ha.symm.trans hx)
    · exact fun _ _ hf => hf
    · exact fun hs => absurd (hp.symm.trans hs) ProcState.noConfusion
    · intro _ hc _
      have hc' : (k.proc p).activity.InCall := hc
      rw [ha] at hc'
      exact hc'.elim
  · obtain rfl := Option.some.inj ht
    exact h.goOn hp ⟨rfl, rfl⟩ hl (.inr (.inr (.inl rfl))) fun hs => absurd (hp.symm.trans hs) ProcState.noConfusion
  · obtain rfl := Option.some.inj ht
    exact h.allocproc p
  · obtain rfl := Option.some.inj ht
    rename_i ha
    exact h.forkFail hl ha
  · obtain rfl := Option.some.inj ht
    rename_i ha
    exact h.forkCopy hl ha
  · obtain rfl := Option.some.inj ht
    rename_i ha
    exact h.forkFinish hl ha
  · obtain rfl := Option.some.inj ht
    exact h.exit_test p
  · obtain rfl := Option.some.inj ht
    rename_i ha
    have hpi : p ≠ k.initproc := fun hpi => h.stays (hpi ▸ ha)
    exact h.leaves (leave_leaves hpi) hl ha
  · obtain rfl := Option.some.inj ht
    exact h.wait_round hl
  · obtain rfl := Option.some.inj ht
    exact h.kill p _
  · obtain rfl := Option.some.inj ht
    rename_i ha
    exact hsleep (by rw [ha]; exact Activity.noConfusion) _
  · obtain rfl := Option.some.inj ht
    rename_i ha
    exact hsleep (by rw [ha]; exact Activity.noConfusion) _
  · obtain rfl := Option.some.inj ht
    rename_i ha
    exact hsleep (by rw [ha]; exact Activity.noConfusion) _
  · cases ht

theorem Wf.step (h : k.Wf) (ht : k.step e = some t) : t.Wf := by
  unfold Table.step at ht
  split at ht
  · cases ht
  · split at ht
    · split at ht
      · rename_i hp
        obtain rfl := Option.some.inj ht
        exact h.schedule hp
      · cases ht
    · obtain rfl := Option.some.inj ht
      exact h.wakeup1 _
    · obtain ⟨p, -, ht⟩ := Option.bind_eq_some_iff.mp ht
      split at ht
      · rename_i hp
        exact h.act hp ht
      · cases ht

theorem wf_boot : boot.Wf := by
  have hunused : ∀ p, p ≠ boot.initproc → (boot.proc p).state = .unused ∧ (boot.proc p).pid = 0 := by
    intro p hp
    have hp' : p ≠ ⟨0, by decide⟩ := hp
    simp only [boot, if_neg hp', and_self]
  have hall : ∀ p, (boot.proc p).parent = none ∧ (boot.proc p).activity = .user := by
    intro p
    simp only [boot]
    split <;> exact ⟨rfl, rfl⟩
  have honly : ∀ p, (boot.proc p).state ≠ .unused → p = boot.initproc := by
    intro p hp
    by_contra hne
    exact hp (hunused p hne).1
  have hlive : ∀ p, boot.Live p → p = boot.initproc := fun p hp => honly p hp.ne_unused
  have hnz : ∀ p, ¬boot.Zombie p := by
    intro p hz
    have hz' : (boot.proc p).state = .zombie := hz
    obtain rfl := honly p (by rw [hz']; decide)
    cases hz'
  constructor
  · exact ⟨trivial, rfl, rfl⟩
  · exact Activity.noConfusion
  · intro p q hq
    rw [(hall p).1] at hq
    cases hq
  · intro p hp hlz
    exact absurd hlz (not_or.mpr ⟨fun hl => hp (hlive p hl), hnz p⟩)
  · exact fun p _ => (hall p).1
  · intro p np b _ ha
    rw [(hall p).2] at ha
    cases ha
  · intro p q np b b' _ _ ha
    rw [(hall p).2] at ha
    cases ha
  · intro p _ ha
    rw [(hall p).2] at ha
    cases ha
  · intro p
    by_cases hp : p = boot.initproc
    · rw [hp]
      decide
    · rw [(hunused p hp).2]
      decide
  · intro p hp
    rw [honly p hp]
    decide
  · intro p q hpos heq
    have hp : p = boot.initproc := by
      by_contra hne
      rw [(hunused p hne).2] at hpos
      exact absurd hpos (Nat.lt_irrefl 0)
    have hq : q = boot.initproc := by
      by_contra hne
      rw [heq, (hunused q hne).2] at hpos
      exact absurd hpos (Nat.lt_irrefl 0)
    rw [hp, hq]
  · intro p _ hc
    rw [(hall p).2] at hc
    exact hc.elim
  · intro n
    refine iff_of_false List.not_mem_nil ?_
    rintro (⟨p, hz, -⟩ | hn)
    · exact hnz p hz
    · exact absurd hn List.not_mem_nil
  · exact fun x hx => absurd hx List.not_mem_nil
  · exact List.nodup_nil

end Table

end Xv6.Family
