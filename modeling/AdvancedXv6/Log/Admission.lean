import AdvancedXv6.Log.Step

/-! What `begin_op` admits, and whether it fits in the log. -/

namespace Xv6.Log
open Function Effect Redo

namespace Sys
variable {s t : Sys} {e : Event}

/-- No panic, and no log block outside of the log. -/
def Fine (s : Sys) (e : Event) (t : Sys) : Prop :=
  t.panic = none ∧ (e = .commit → ∀ w ∈ trace writeLog s.fs,
    sb.logstart ≤ w.1 ∧ w.1 < sb.logstart + sb.nlog)

/-- How many distinct blocks have been logged since the last commit. -/
def logged (s : Sys) : Nat := (s.group.map Prod.fst).dedup.length

/-- `log_write` starts with less than `nlog - 1` blocks in the log, and `commit` with less than
`nlog`. -/
def Room (s : Sys) (e : Event) (_ : Sys) : Prop :=
  match e with
  | .enter .. => s.logged < sb.nlog - 1
  | .commit => s.logged < sb.nlog
  | _ => True

-- the equations of `Room` are made here, once for all proofs
section
attribute [local simp] Room
end

theorem Wf.logged (hw : s.Wf) : s.logged = s.fs.lh.n := by
  have hperm : (s.group.map Prod.fst).dedup.Perm s.fs.lh.blocks := by
    refine (List.perm_ext_iff_of_nodup (List.nodup_dedup _) hw.nodup).mpr fun b => ?_
    rw [List.mem_dedup, hw.mem]
  rw [Sys.logged, hperm.length_eq, Header.blocks, List.length_map, List.length_range]

/-- The blocks that `write_log` writes, whatever the transaction is. -/
theorem trace_writeLog (s : Fs) : (trace writeLog s).map Prod.fst =
    (List.range s.lh.n).map (s.start + · + 1) := by
  have hloop (m : Nat) : wp (forEach (List.range m) fun tail => do
      let src ← bread (s.lh.block tail)
      bwrite (s.start + tail + 1) src) { s with writes := [] }
      (fun _ t => t.writes.map Prod.fst = (List.range m).map (s.start + · + 1)) (fun _ _ => False) := by
    induction m with
    | zero => exact (wp_pure _).mpr rfl
    | succ m ih =>
      rw [List.range_succ, forEach_concat, wp_bind]
      refine wp_mono ih (fun _ t ht => ?_) (fun _ _ he => he)
      simp only [bread, bwrite, wp_bind, wp_get, wp_pure, wp_modify, Fs.store, List.map_append, ht]
      rfl
  have hwp : wp writeLog { s with writes := [] } (fun _ t => t.writes.map Prod.fst =
      (List.range s.lh.n).map (s.start + · + 1)) (fun _ _ => False) := by
    simp only [writeLog, wp_bind, wp_get]
    exact hloop s.lh.n
  obtain ⟨a, t, hm, ht⟩ := exists_ok_of_wp hwp
  rw [trace, hm]
  exact ht

theorem Wf.writeLog (hw : s.Wf) : (∀ w ∈ trace writeLog s.fs,
    sb.logstart ≤ w.1 ∧ w.1 < sb.logstart + sb.nlog) ↔ s.fs.lh.n < sb.nlog := by
  have hmap := trace_writeLog s.fs
  rw [hw.ready.start] at hmap
  constructor
  · intro h
    by_contra hge
    have hmem : sb.logstart + (sb.nlog - 1) + 1 ∈ (trace Log.writeLog s.fs).map Prod.fst := by
      rw [hmap]
      refine List.mem_map.mpr ⟨_, List.mem_range.mpr ?_, rfl⟩
      exact Nat.lt_of_lt_of_le (by decide) (Nat.le_of_not_lt hge)
    obtain ⟨w, hw, hwb⟩ := List.mem_map.mp hmem
    have := (h w hw).2
    rw [hwb] at this
    exact absurd this (by decide)
  · intro hn w hw
    have hmem := List.mem_map_of_mem (f := Prod.fst) hw
    rw [hmap] at hmem
    obtain ⟨i, hi, hib⟩ := List.mem_map.mp hmem
    have := List.mem_range.mp hi
    omega

/-- The reservations keep the header in its `LOGSIZE` entries. -/
theorem header_fits {d : Image} {es : List Event} (h : Run.exec step (boot d) es = some s)
    (hroom : Run.Always step InRoom (boot d) es) (hp : s.panic = none) : s.fs.lh.n ≤ logSize :=
  Nat.le_trans (Nat.le_add_right _ _) (wf_run h hroom hp).reserved

theorem inRoom_of_room (hw : s.Wf) (h : s.Room e t) : s.InRoom e t := by
  rintro rfl
  rw [Room, hw.logged] at h
  exact h

theorem inRoom_of_fine (hw : s.Wf) (h : s.Fine e t) : s.InRoom e t :=
  fun he => hw.writeLog.mp (h.2 he)

/-- No panic is reached and `commit` stays in the log if and only if the operations never log a
block when `nlog - 1` distinct ones are in the log, nor commit `nlog` of them. -/
theorem admission_iff (d : Image) (es : List Event) :
    Run.Always step Fine (boot d) es ↔ Run.Always step Room (boot d) es := by
  have hboot : (boot d).panic = none → (boot d).Wf := fun _ => (wf_boot d).1
  constructor
  · refine Run.Always.of_invariant (I := fun s => s.panic = none → s.Wf) (fun s e t hI hf h => ?_) hboot
    have hw := hI (panic_of_step h)
    have hroom := inRoom_of_fine hw hf
    refine ⟨wf_step hI hroom h, ?_⟩
    obtain ⟨-, hst | ⟨hbig, -⟩⟩ := stepped hw hroom h
    · cases hst with
      | enter i b x op hop hhome hlen hlt =>
        rw [Room, hw.logged, ← hw.size]
        exact hlt
      | erase hc hn =>
        rw [Room, hw.logged]
        exact hroom rfl
      | commit hc hn buf hbuf =>
        rw [Room, hw.logged]
        exact hroom rfl
      | sleep | begin | append | leave => exact trivial
    · rw [hf.1] at hbig
      cases hbig
  · refine Run.Always.of_invariant (I := fun s => s.panic = none → s.Wf) (fun s e t hI hr h => ?_) hboot
    have hw := hI (panic_of_step h)
    have hroom := inRoom_of_room hw hr
    refine ⟨wf_step hI hroom h, ?_, fun he => hw.writeLog.mpr (hroom he)⟩
    rcases step_cases hw hroom h with ⟨hp, -⟩ | ⟨-, i, b, x, rfl, hfull⟩
    · exact hp
    · rw [Room, hw.logged] at hr
      exact absurd hr (Nat.not_lt.mpr hfull)

/-- Operation `i` logs the blocks `bs`. -/
def writes (i : Nat) (bs : List Nat) : List Event :=
  bs.flatMap fun b => [.enter i b fun _ => 0, .append i]

/-- Three operations, which `begin_op` admits, log ten blocks each. -/
def threeFull : List Event :=
  [.begin, .begin, .begin] ++ writes 0 (List.range' 7000 10) ++ writes 1 (List.range' 7010 10) ++
    writes 2 (List.range' 7020 9) ++ [.enter 2 7029 fun _ => 0]

/-- The last of their blocks does not fit. -/
theorem threeFull_panics :
    (Run.exec step (boot zeroes) threeFull).bind Sys.panic = some .tooBig := by
  decide +kernel

/-- Two operations pass the tests of `log_write` before either takes the lock. -/
def race : List Event :=
  [.begin, .begin, .begin] ++ writes 0 (List.range' 7000 10) ++ writes 1 (List.range' 7010 9) ++
    writes 2 (List.range' 7020 9) ++ [.enter 1 7019 fun _ => 0, .enter 2 7029 fun _ => 0, .append 1,
      .append 2, .leave 2, .leave 1, .leave 0]

/-- Their commit writes a log block over the first block behind the log. -/
theorem race_overflows : (Run.exec step (boot zeroes) race).map (fun s =>
    decide (sb.logstart + sb.nlog ∈ (trace writeLog s.fs).map Prod.fst)) = some true := by
  decide +kernel

end Sys

end Xv6.Log
