import AdvancedXv6.Cache.Step

/-! The code of the log gives `bwrite` every buffer that it changes before it lets the buffer go. -/

namespace Xv6.Cache
open Function
open Log (Block Header)

/-- The buffer that `bread` is to return is the first one that its process will hold, as it was written. -/
def Mode.coming : Mode → List Bool
  | .lock .. => [false]
  | .fill .. => [false]
  | .load .. => [false]
  | _ => []

/-- What an instruction makes of the list that says, of each buffer held, whether it is touched. -/
def Instr.flow : Instr → List Bool → Option (List Bool)
  | .breadLog _, l => some (false :: l)
  | .breadHome _, l => some (false :: l)
  | .copy dst _, l => some (l.set dst true)
  | .setHead, l => some (l.set 0 true)
  | .bwrite i, l => some (l.set i false)
  | .brelse i, l => if l[i]? = some true then none else some (l.eraseIdx i)
  | _, l => some l

/-- The code lets no touched buffer go. -/
def flows : List Instr → List Bool → Bool
  | [], _ => true
  | i :: is, l => (i.flow l).any (flows is)

namespace Sys
variable {s t : Sys} {c d n : Nat} {b : Slot} {e : Event} {i : Instr} {rest : List Instr}

def stack (s : Sys) (c : Nat) : List Bool := (s.mode c).coming ++ (s.slots c).map s.touched

structure Flow (s : Sys) : Prop where
  flows : ∀ c, flows (s.todo c) (s.stack c) = true
  logs : ∀ c b, s.mode c = .log b → s.todo c = []

/-- What a step of `c` leaves to another process. -/
theorem Does.others (hd : Does c s t) (h : Owned s) (hne : d ≠ c) : t.mode d = s.mode d ∧ t.held d = s.held d ∧
    t.todo d = s.todo d ∧ ∀ b ∈ s.slots d, t.touched b = s.touched b := by
  have hother : ∀ {b b'}, b ∈ s.slots c → b' ∈ s.slots d → b' ≠ b := by
    intro b b' hb hb' heq
    subst heq
    exact hne (Option.some.inj ((h.holding hb').symm.trans (h.holding hb)))
  cases hd with
  | note lh o committing todo pinned inOp hpinned htodo => exact ⟨rfl, rfl, htodo d hne, fun _ _ => rfl⟩
  | hit n b hm hb => exact ⟨update_of_ne hne .., rfl, rfl, fun _ _ => rfl⟩
  | recycle n b hm hnew hfree hclean => exact ⟨update_of_ne hne .., rfl, rfl, fun _ _ => rfl⟩
  | modify b x hm hb => exact ⟨rfl, rfl, rfl, fun b' hb' => update_of_ne (hother hb hb') ..⟩
  | bwrite b hm hb => exact ⟨update_of_ne hne .., rfl, rfl, fun b' hb' => update_of_ne (hother hb hb') ..⟩
  | logTests b hm hb => exact ⟨update_of_ne hne .., rfl, rfl, fun _ _ => rfl⟩
  | brelse b hm hb ht =>
    unfold Sys.brelse
    rw [if_pos (show s.holding c b from h.holding hb)]
    exact ⟨update_of_ne hne .., update_of_ne hne .., rfl, fun _ _ => rfl⟩
  | acquire n b hm hfree => exact ⟨update_of_ne hne .., rfl, rfl, fun _ _ => rfl⟩
  | load n b hm hv => exact ⟨update_of_ne hne .., rfl, rfl, fun _ _ => rfl⟩
  | ret n b hm => exact ⟨update_of_ne hne .., update_of_ne hne .., rfl, fun _ _ => rfl⟩
  | saved b hm hready => exact ⟨update_of_ne hne .., rfl, rfl, fun _ _ => rfl⟩
  | logAppend b hm =>
    have hb : b ∈ s.slots c := by
      apply h.busy c
      rw [hm]
      rfl
    exact ⟨update_of_ne hne .., rfl, rfl, fun b' hb' => update_of_ne (hother hb hb') ..⟩
  | drop b hm =>
    unfold Sys.drop
    dsimp only
    split <;> exact ⟨update_of_ne hne .., rfl, rfl, fun _ _ => rfl⟩
  | intr b queue hq => exact ⟨rfl, rfl, rfl, fun _ _ => rfl⟩

theorem Flow.step_of (h : Flow s) (ho : Owned s) {is : List Instr} (hd : Does c (s.setTodo c is) t)
    (hflows : Cache.flows (t.todo c) (t.stack c) = true) (hlogs : ∀ b, t.mode c = .log b → t.todo c = []) :
    Flow t := by
  have ho : Owned (s.setTodo c is) :=
    ho.frame rfl rfl rfl (fun _ => rfl) (fun _ => rfl) (fun _ => rfl) fun _ => rfl
  have hothers : ∀ d, d ≠ c → t.mode d = s.mode d ∧ t.todo d = s.todo d ∧ t.stack d = s.stack d := by
    intro d hdc
    obtain ⟨hmode, hheld, htodo, htouched⟩ := hd.others ho hdc
    refine ⟨hmode, htodo.trans (update_of_ne hdc ..), ?_⟩
    unfold stack slots
    rw [hmode, hheld]
    exact congrArg _ (List.map_congr_left htouched)
  constructor
  · intro d
    by_cases hdc : d = c
    · exact hdc ▸ hflows
    · obtain ⟨-, htodo, hstack⟩ := hothers d hdc
      rw [htodo, hstack]
      exact h.flows d
  · intro d b hm
    by_cases hdc : d = c
    · rw [hdc] at hm ⊢
      exact hlogs b hm
    · obtain ⟨hmode, htodo, -⟩ := hothers d hdc
      rw [hmode] at hm
      rw [htodo]
      exact h.logs d b hm

theorem setTodo_self (s : Sys) (c : Nat) : s.setTodo c (s.todo c) = s := by
  unfold setTodo
  rw [update_eq_self]

/-- A step of a process that runs none of the log's code. -/
theorem Flow.client (h : Flow s) (ho : Owned s) (hd : Does c s t) (hidle : s.todo c = [])
    (htodo : t.todo = s.todo) : Flow t := by
  have hnil : t.todo c = [] := by rw [htodo, hidle]
  rw [← setTodo_self s c] at hd
  refine h.step_of ho hd ?_ fun _ _ => hnil
  rw [hnil]
  rfl

section Todo

theorem bget_todo : (s.bget c n).todo = s.todo := by
  unfold bget
  split
  · rfl
  · split <;> rfl

theorem iderw_todo {m : Mode} : (s.iderw c b m).todo = s.todo := by
  unfold iderw
  split
  · rfl
  · split
    · rfl
    · dsimp only
      split
      · unfold idestart
        split <;> rfl
      · rfl

theorem bwrite_todo : (s.bwrite c b).todo = s.todo := by
  unfold bwrite
  split
  · exact iderw_todo
  · rfl

theorem logTests_todo : (s.logTests c b).todo = s.todo := by
  unfold logTests
  split
  · rfl
  · split <;> rfl

theorem brelse_todo : (s.brelse c b).todo = s.todo := by
  unfold brelse
  split <;> rfl

theorem resume_todo (ht : s.resume c = some t) : t.todo = s.todo := by
  unfold resume at ht
  split at ht
  · cases ht
  · split at ht
    · obtain rfl := Option.some.inj ht
      rfl
    · cases ht
  · obtain rfl := Option.some.inj ht
    unfold bread
    split
    · rfl
    · exact iderw_todo
  · split at ht
    · obtain rfl := Option.some.inj ht
      rfl
    · cases ht
  · split at ht
    · obtain rfl := Option.some.inj ht
      rfl
    · cases ht
  · obtain rfl := Option.some.inj ht
    rfl
  · obtain rfl := Option.some.inj ht
    unfold drop
    dsimp only
    split <;> rfl

end Todo

theorem stack_eq {m : Mode} {l : List Slot} {f : Slot → Bool} (hm : s.mode c = m) (hl : s.slots c = l)
    (hf : s.touched = f) : s.stack c = m.coming ++ l.map f := by
  unfold stack
  rw [hm, hl, hf]

theorem mode_self (s : Sys) (c : Nat) (m : Mode) : (s.setMode c m).mode c = m := update_self ..

theorem ret_stack (h : Sound s) (hown : (s.mode c).owns b = 1) (hcoming : (s.mode c).coming = [false]) :
    (s.ret c n b).stack c = s.stack c := by
  have hslots : (s.ret c n b).slots c = b :: s.slots c := by
    unfold slots
    rw [show (s.ret c n b).held c = (n, b) :: s.held c from update_self ..]
    rfl
  have hmode : (s.ret c n b).mode c = .run := mode_self ..
  rw [stack_eq hmode hslots rfl, List.map_cons, show (s.ret c n b).touched b = false from h.untouched hown]
  unfold stack
  rw [hcoming]
  rfl

theorem Flow.resume (h : Flow s) (hs : Sound s) (ht : s.resume c = some t) (hp : t.panic = none) : Flow t := by
  have htodo := resume_todo ht
  have hd := hs.resume ht hp
  have hkeep : t.stack c = s.stack c → (∀ b, t.mode c ≠ .log b) → Flow t := by
    intro hstack hmode
    rw [← setTodo_self s c] at hd
    refine h.step_of hs.owned hd ?_ fun b hb => absurd hb (hmode b)
    rw [hstack, htodo]
    exact h.flows c
  have hsame : ∀ {m m' : Mode}, s.mode c = m → t.mode c = m' → m'.coming = m.coming → t.slots c = s.slots c →
      t.touched = s.touched → t.stack c = s.stack c := by
    intro m m' hm hm' hcoming hslots htouched
    rw [stack_eq hm' hslots htouched, stack_eq hm rfl rfl, hcoming]
  unfold Sys.resume at ht
  cases hm : s.mode c with
  | run =>
    rw [hm] at ht
    cases ht
  | lock n b =>
    rw [hm] at ht
    obtain ⟨-, ht⟩ := Option.ite_none_right_eq_some.mp ht
    obtain rfl := Option.some.inj ht
    apply hkeep
    · exact hsame hm (mode_self ..) rfl rfl rfl
    · rw [mode_self]
      exact fun _ => Mode.noConfusion
  | fill n b =>
    rw [hm] at ht
    obtain rfl := Option.some.inj ht
    unfold Sys.bread at hkeep hp ⊢
    split at hp
    · rename_i hv
      rw [if_pos hv] at hkeep ⊢
      apply hkeep
      · apply ret_stack hs
        · rw [hm]
          exact if_pos rfl
        · rw [hm]
          rfl
      · rw [show (s.ret c n b).mode c = .run from mode_self ..]
        exact fun _ => Mode.noConfusion
    · rename_i hv
      rw [if_neg hv] at hkeep ⊢
      have hnot : b ∉ s.idequeue := by
        intro hmem
        obtain ⟨d, hio⟩ := hs.queue.queued b hmem
        have hlock : (s.buf b).lock = some c := by
          apply hs.owned.holding_of_asks
          rw [hm]
          exact if_pos rfl
        obtain rfl := Option.some.inj (hlock.symm.trans (hs.owned.lock_of_io hio))
        rw [hm] at hio
        exact hio
      rw [(hs.queue.iderw_eq hnot hp).1] at hkeep ⊢
      have hmode : (s.enqueue c b (.load n b)).mode c = .load n b := mode_self ..
      apply hkeep
      · rw [stack_eq hmode rfl rfl, stack_eq hm rfl rfl]
        rfl
      · rw [hmode]
        exact fun _ => Mode.noConfusion
  | load n b =>
    rw [hm] at ht
    obtain ⟨-, ht⟩ := Option.ite_none_right_eq_some.mp ht
    obtain rfl := Option.some.inj ht
    apply hkeep
    · apply ret_stack hs
      · rw [hm]
        exact if_pos rfl
      · rw [hm]
        rfl
    · rw [show (s.ret c n b).mode c = .run from mode_self ..]
      exact fun _ => Mode.noConfusion
  | save b =>
    rw [hm] at ht
    obtain ⟨-, ht⟩ := Option.ite_none_right_eq_some.mp ht
    obtain rfl := Option.some.inj ht
    apply hkeep
    · exact hsame hm (mode_self ..) rfl rfl rfl
    · rw [mode_self]
      exact fun _ => Mode.noConfusion
  | log b => exact h.client hs.owned hd (h.logs c b hm) htodo
  | drop b =>
    rw [hm] at ht
    obtain rfl := Option.some.inj ht
    have hrun : (s.drop c b).mode c = .run := by
      unfold Sys.drop
      dsimp only
      split <;> exact update_self ..
    apply hkeep
    · apply hsame hm hrun rfl
      · unfold Sys.drop
        dsimp only
        split <;> rfl
      · unfold Sys.drop
        dsimp only
        split <;> rfl
    · rw [hrun]
      exact fun _ => Mode.noConfusion

section Instr

theorem Owned.nodup (h : Owned s) (c : Nat) : (s.slots c).Nodup := by
  rw [List.nodup_iff_count_le_one]
  intro b
  have hown := h.locked c b
  unfold owns at hown
  split at hown <;> omega

theorem bget_stack (hm : s.mode c = .run) (hp : (s.bget c n).panic = none) :
    (s.bget c n).stack c = false :: s.stack c ∧ ∀ b, (s.bget c n).mode c ≠ .log b := by
  have htake : ∀ b x, (s.take c n b x).stack c = false :: s.stack c ∧ ∀ b', (s.take c n b x).mode c ≠ .log b' := by
    intro b x
    have hmode : (s.take c n b x).mode c = .lock n b := mode_self ..
    rw [stack_eq hmode rfl rfl, stack_eq hm rfl rfl, hmode]
    exact ⟨rfl, fun _ => Mode.noConfusion⟩
  unfold bget at hp ⊢
  cases hl : s.lookup n with
  | some b => exact htake ..
  | none =>
    rw [hl] at hp
    cases hu : s.unused with
    | some b => exact htake ..
    | none =>
      rw [hu] at hp
      cases hp

/-- A change of one of the buffers held. -/
theorem map_update {l : List Slot} {k : Nat} (hl : l.Nodup) (hk : l[k]? = some b) (f : Slot → Bool) (v : Bool) :
    l.map (update f b v) = (l.map f).set k v := by
  obtain ⟨hlt, rfl⟩ := List.getElem?_eq_some_iff.mp hk
  apply List.ext_getElem
  · rw [List.length_set, List.length_map, List.length_map]
  · intro j hj _
    rw [List.length_map] at hj
    rw [List.getElem_map, List.getElem_set, List.getElem_map]
    by_cases hjk : k = j
    · subst hjk
      rw [if_pos rfl, update_self]
    · rw [if_neg hjk, update_of_ne fun heq => hjk ((hl.getElem_inj_iff.mp heq).symm)]

/-- A `brelse` of the log's code finds its buffer as it was written. -/
theorem Flow.untouched (h : Flow s) {k : Nat} (hm : s.mode c = .run) (htodo : s.todo c = .brelse k :: rest)
    (hb : (s.slots c)[k]? = some b) : s.touched b = false := by
  have hflows := h.flows c
  rw [htodo] at hflows
  rw [← Bool.not_eq_true]
  intro htouched
  have htrue : (s.stack c)[k]? = some true := by
    rw [stack_eq hm rfl rfl]
    exact (List.getElem?_map ..).trans (by rw [hb, Option.map_some, htouched])
  unfold Cache.flows Instr.flow at hflows
  dsimp only at hflows
  rw [if_pos htrue] at hflows
  cases hflows

/-- The code of the log keeps to `flows`. -/
theorem Flow.instr (h : Flow s) (hs : Sound s) (hm : s.mode c = .run) (htodo : s.todo c = i :: rest)
    (ht : s.instr c rest i = some t) (hp : t.panic = none) : Flow t := by
  have hnow : (i.flow (s.stack c)).any (Cache.flows rest) = true := by
    have hflows := h.flows c
    rw [htodo] at hflows
    exact hflows
  have hstack : s.stack c = (s.slots c).map s.touched := stack_eq hm rfl rfl
  have hnodup := hs.owned.nodup c
  obtain ⟨is, hd⟩ := hs.instr hm ht hp fun k b hi hb => h.untouched hm (hi ▸ htodo) hb
  -- a state in which the process has `is` to do, and the list is `l`
  have hclose : ∀ l is, t.stack c = l → t.todo c = is → Cache.flows is l = true → (∀ b, t.mode c ≠ .log b) → Flow t := by
    intro l is hl his hok hmode
    refine h.step_of hs.owned hd ?_ fun b hb => absurd hb (hmode b)
    rw [hl, his]
    exact hok
  have hrun : ∀ b, s.mode c ≠ .log b := by
    rw [hm]
    exact fun _ => Mode.noConfusion
  have hself : ∀ is, (s.setTodo c is).todo c = is := fun is => update_self ..
  unfold Sys.instr at ht
  cases i with
  | commit =>
    dsimp only at ht
    split at ht
    · obtain rfl := Option.some.inj ht
      exact hclose _ _ rfl (hself _) hnow hrun
    · obtain rfl := Option.some.inj ht
      exact hclose _ _ rfl (hself _) hnow hrun
  | writeLog tail =>
    dsimp only at ht
    split at ht
    · obtain rfl := Option.some.inj ht
      exact hclose _ _ rfl (hself _) hnow hrun
    · obtain rfl := Option.some.inj ht
      exact hclose _ _ rfl (hself _) hnow hrun
  | installTrans tail =>
    dsimp only at ht
    split at ht
    · obtain rfl := Option.some.inj ht
      exact hclose _ _ rfl (hself _) hnow hrun
    · obtain rfl := Option.some.inj ht
      exact hclose _ _ rfl (hself _) hnow hrun
  | breadLog k =>
    obtain rfl := Option.some.inj ht
    have hget := bget_stack (s := s.setTodo c rest) hm hp
    exact hclose _ _ hget.1 ((congrFun bget_todo c).trans (hself rest)) hnow hget.2
  | breadHome tail =>
    obtain rfl := Option.some.inj ht
    have hget := bget_stack (s := s.setTodo c rest) hm hp
    exact hclose _ _ hget.1 ((congrFun bget_todo c).trans (hself rest)) hnow hget.2
  | copy dst src =>
    obtain ⟨b, hb, ht⟩ := Option.bind_eq_some_iff.mp ht
    obtain ⟨b', -, rfl⟩ := Option.map_eq_some_iff.mp ht
    refine hclose _ _ ?_ (hself rest) hnow hrun
    rw [hstack, ← map_update hnodup hb]
    exact stack_eq (s := (s.setTodo c rest).modify b _) hm rfl rfl
  | setHead =>
    obtain ⟨b, hb, rfl⟩ := Option.map_eq_some_iff.mp ht
    refine hclose _ _ ?_ (hself rest) hnow hrun
    rw [hstack, ← map_update hnodup hb]
    exact stack_eq (s := (s.setTodo c rest).modify b _) hm rfl rfl
  | bwrite k =>
    obtain ⟨b, hb, rfl⟩ := Option.map_eq_some_iff.mp ht
    have hmem := List.mem_of_getElem? hb
    have hrest := hs.setTodo c rest
    have hio : ¬((s.setTodo c rest).mode c).Io b := by
      rw [show (s.setTodo c rest).mode c = .run from hm]
      exact id
    obtain ⟨u, hu⟩ : ∃ u, u = (s.setTodo c rest).bwrite c b := ⟨_, rfl⟩
    have hu' := hu
    unfold Sys.bwrite at hu'
    rw [if_pos (show (s.setTodo c rest).holding c b from hs.owned.holding hmem)] at hu'
    have hq : Queue ((s.setTodo c rest).mark b false) := hrest.queue.mark hrest.owned hmem hio false
    rw [← hu, hu'] at hp
    rw [(hq.iderw_eq (hrest.queue.not_mem hrest.owned hmem hio) hp).1] at hu'
    have hmode : u.mode c = .save b := by
      rw [hu']
      exact mode_self ..
    rw [← hu] at hclose ⊢
    refine hclose _ _ ?_ ?_ hnow ?_
    · rw [hstack, ← map_update hnodup hb, hu']
      exact stack_eq (mode_self ..) rfl rfl
    · rw [hu']
      exact hself rest
    · rw [hmode]
      exact fun _ => Mode.noConfusion
  | brelse k =>
    obtain ⟨b, hb, rfl⟩ := Option.map_eq_some_iff.mp ht
    have hmem := List.mem_of_getElem? hb
    have hhold : (s.setTodo c rest).holding c b := hs.owned.holding hmem
    have hslots : ((s.setTodo c rest).brelse c b).slots c = (s.slots c).eraseIdx k := by
      rw [Owned.brelse_slots hhold]
      obtain ⟨hlt, rfl⟩ := List.getElem?_eq_some_iff.mp hb
      exact hnodup.erase_getElem k hlt
    have hmode : ((s.setTodo c rest).brelse c b).mode c = .drop b := by
      unfold Sys.brelse
      rw [if_pos hhold]
      exact update_self ..
    have htouched : ((s.setTodo c rest).brelse c b).touched = s.touched := by
      unfold Sys.brelse
      rw [if_pos hhold]
      rfl
    refine hclose ((s.stack c).eraseIdx k) rest ?_ ((congrFun brelse_todo c).trans (hself rest)) ?_ ?_
    · rw [stack_eq hmode hslots htouched, hstack, List.eraseIdx_map]
      rfl
    · unfold Instr.flow at hnow
      dsimp only at hnow
      split at hnow
      · cases hnow
      · exact hnow
    · rw [hmode]
      exact fun _ => Mode.noConfusion
  | getHead =>
    obtain ⟨b, -, rfl⟩ := Option.map_eq_some_iff.mp ht
    exact hclose _ _ rfl (hself rest) hnow hrun
  | clear =>
    obtain rfl := Option.some.inj ht
    exact hclose _ _ rfl (hself rest) hnow hrun
  | finish =>
    obtain rfl := Option.some.inj ht
    exact hclose _ _ rfl (hself rest) hnow hrun

end Instr

end Sys

end Xv6.Cache
