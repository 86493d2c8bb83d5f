import AdvancedXv6.Log.Crash
import AdvancedXv6.Lib.Run
import Mathlib.Data.List.Dedup
import Mathlib.Algebra.BigOperators.Group.List.Basic
import Mathlib.Algebra.Order.Ring.Int

/-! Operations that run at the same time between `begin_op` and `end_op`, and the commits of their
groups. -/

namespace Xv6.Log
open Function Effect Redo

/-- An operation of the file system between its `begin_op` and its `end_op`. -/
structure Op where
  /-- the distinct blocks it has passed to `log_write` -/
  blocks : List Nat
  /-- the buffer and what it filled it with, while it waits for the lock in `log_write` -/
  writing : Option (Nat × Block)

/-- The blocks of the operation once it has logged `b`. -/
def Op.add (op : Op) (b : Nat) : List Nat := if b ∈ op.blocks then op.blocks else b :: op.blocks

structure Sys where
  fs : Fs
  ops : List Op
  /-- what has been logged since the last commit, the oldest first -/
  group : List (Nat × Block)
  panic : Option Panic

inductive Event
  | begin
  | enter (i b : Nat) (x : Block)
  | append (i : Nat)
  | leave (i : Nat)
  | commit

namespace Sys

def run {α : Type} (s : Sys) (m : M α) (f : α → Fs → Sys) : Sys :=
  match m s.fs with
  | .ok a t => f a t
  | .error e t => { s with fs := t, panic := some e }

/-- An operation logs blocks outside of the log, `MAXOPBLOCKS` distinct ones at most. -/
def step (s : Sys) (e : Event) : Option Sys :=
  if s.panic.isSome then none
  else match e with
  | .begin => some <| s.run beginOp fun ok t =>
    { s with fs := t, ops := if ok then s.ops ++ [⟨[], none⟩] else s.ops }
  | .enter i b x => s.ops[i]?.bind fun op =>
    if op.writing.isNone ∧ Home b ∧ (op.add b).length ≤ maxOpBlocks then
      some <| s.run logTests fun _ t =>
        { s with fs := t, ops := s.ops.set i { op with writing := some (b, x) } }
    else none
  | .append i => s.ops[i]?.bind fun op => op.writing.map fun w =>
    s.run (logAppend w.1 w.2) fun _ t =>
      { s with fs := t, ops := s.ops.set i ⟨op.add w.1, none⟩, group := s.group ++ [w] }
  | .leave i => s.ops[i]?.bind fun op =>
    if op.writing.isNone then
      some <| s.run endOp fun _ t => { s with fs := t, ops := s.ops.eraseIdx i }
    else none
  | .commit =>
    if s.fs.committing then some <| s.run finish fun _ t => { s with fs := t, group := [] } else none

/-- A disk with an empty log. -/
abbrev Image := { d : Nat → Block // d sb.logstart 0 = 0 }

def boot (d : Image) : Sys :=
  run ⟨.fresh d, [], [], none⟩ (initlog sb) fun _ t => ⟨{ t with writes := [] }, [], [], none⟩

end Sys

variable {s t : Sys} {e : Event} {es : List Event}

/-- What of its reservation an operation has not used. -/
def Op.left (op : Op) : Nat := maxOpBlocks - op.blocks.length

/-- An operation is within its reservation, and has logged what it says. -/
structure Op.Fits (op : Op) (logged : List Nat) : Prop where
  length : op.blocks.length ≤ maxOpBlocks
  logged : ∀ b ∈ op.blocks, b ∈ logged
  writing : ∀ w, op.writing = some w → Home w.1 ∧ (op.add w.1).length ≤ maxOpBlocks

namespace Sys

/-- What every step keeps. -/
structure Wf (s : Sys) : Prop where
  ready : Ready s.fs
  size : s.fs.size = sb.nlog
  nodup : s.fs.lh.blocks.Nodup
  mem : ∀ b, b ∈ s.fs.lh.blocks ↔ b ∈ s.group.map Prod.fst
  content : s.fs.content = install s.fs.disk s.group
  count : s.fs.outstanding = s.ops.length
  quiet : s.fs.committing = true → s.ops = []
  idle : s.fs.committing = false → s.ops = [] → s.fs.lh.n = 0
  ops : ∀ op ∈ s.ops, op.Fits s.fs.lh.blocks
  reserved : s.fs.lh.n + (s.ops.map Op.left).sum ≤ logSize

/-- The transaction fits in the log: the header block and the logged blocks. -/
def InRoom (s : Sys) (e : Event) (_ : Sys) : Prop := e = .commit → s.fs.lh.n < sb.nlog

theorem run_wp {α : Type} {m : M α} {f : α → Fs → Sys} {Q : α → Fs → Prop} {E : Panic → Fs → Prop}
    {P : Sys → Prop} (h : wp m s.fs Q E) (hQ : ∀ a t, Q a t → P (f a t))
    (hE : ∀ e t, E e t → P { s with fs := t, panic := some e }) : P (s.run m f) := by
  rw [run]
  cases hm : m s.fs with
  | ok a t => exact hQ a t (wp_ok h hm)
  | error e t => exact hE e t (wp_error h hm)

/-- What a step does, if it does not panic. -/
inductive Stepped (s : Sys) : Event → Sys → Prop
  | sleep : Stepped s .begin s
  | begin (hc : s.fs.committing = false)
      (hroom : s.fs.lh.n + (s.fs.outstanding + 1) * maxOpBlocks ≤ (logSize : Int)) :
      Stepped s .begin { s with
        fs := { s.fs with outstanding := s.fs.outstanding + 1 }
        ops := s.ops ++ [⟨[], none⟩] }
  | enter (i b : Nat) (x : Block) (op : Op) (hop : s.ops[i]? = some op) (hhome : Home b)
      (hlen : (op.add b).length ≤ maxOpBlocks) (hroom : s.fs.lh.n < s.fs.size - 1) :
      Stepped s (.enter i b x) { s with ops := s.ops.set i { op with writing := some (b, x) } }
  | append (i : Nat) (op : Op) (hop : s.ops[i]? = some op) (w : Nat × Block)
      (hw : op.writing = some w) : Stepped s (.append i) { s with
        fs := { s.fs with lh := s.fs.lh.log w.1, dirty := update s.fs.dirty w.1 (some w.2) }
        ops := s.ops.set i ⟨op.add w.1, none⟩
        group := s.group ++ [w] }
  | leave (i : Nat) (op : Op) (hop : s.ops[i]? = some op) (ok : Bool)
      (hok : ok = true ↔ s.fs.outstanding = 1) : Stepped s (.leave i) { s with
        fs := { s.fs with outstanding := s.fs.outstanding - 1, committing := ok }
        ops := s.ops.eraseIdx i }
  | erase (hc : s.fs.committing = true) (hn : s.fs.lh.n = 0) :
      Stepped s .commit { s with fs := { s.fs with committing := false }, group := [] }
  | commit (hc : s.fs.committing = true) (hn : 0 < s.fs.lh.n) (buf : Block) (hbuf : buf 0 = 0) :
      Stepped s .commit { s with
        fs := { (s.fs.storeAll (s.fs.committing₁ ++ s.fs.committing₂)).store s.fs.start buf with
          lh := { s.fs.lh with n := 0 }
          committing := false }
        group := [] }

/-- A step does what it is to do, or `log_write` finds the log full. -/
def Outcome (s : Sys) (e : Event) (t : Sys) : Prop :=
  Stepped s e t ∨ t.panic = some .tooBig ∧ ∃ i b x, e = .enter i b x ∧ sb.nlog - 1 ≤ s.fs.lh.n

theorem stepped (hw : s.Wf) (hroom : s.InRoom e t) (h : s.step e = some t) :
    s.panic = none ∧ Outcome s e t := by
  unfold step at h
  split at h
  · cases h
  · rename_i hp
    have hp : s.panic = none := Option.not_isSome_iff_eq_none.mp hp
    refine ⟨hp, ?_⟩
    cases e with
    | begin =>
      obtain rfl := Option.some.inj h
      refine run_wp (P := Outcome s _) beginOp_spec ?_ (fun _ _ he => he.elim)
      rintro ok t (⟨rfl, rfl⟩ | ⟨rfl, hc, hle, rfl⟩)
      · exact .inl .sleep
      · exact .inl (.begin hc hle)
    | enter i b x =>
      obtain ⟨op, hop, h⟩ := Option.bind_eq_some_iff.mp h
      split at h
      · rename_i hok
        obtain rfl := Option.some.inj h
        have hmem := List.mem_of_getElem? hop
        have hout : 0 < s.ops.length := List.length_pos_of_mem hmem
        refine run_wp (P := Outcome s _) logTests_spec ?_ ?_
        · rintro _ t ⟨rfl, -, hlt, -⟩
          exact .inl (.enter i b x op hop hok.2.1 hok.2.2 hlt)
        · rintro e t ⟨rfl, ⟨rfl, hfull⟩ | ⟨-, hno⟩⟩
          · refine .inr ⟨rfl, i, b, x, rfl, ?_⟩
            rw [hw.size] at hfull
            exact hfull.elim (Nat.le_trans (by decide)) id
          · rw [hw.count] at hno
            omega
      · cases h
    | append i =>
      obtain ⟨op, hop, h⟩ := Option.bind_eq_some_iff.mp h
      obtain ⟨w, hwr, rfl⟩ := Option.map_eq_some_iff.mp h
      refine run_wp (P := Outcome s _) logAppend_spec ?_ (fun _ _ he => he.elim)
      rintro _ t rfl
      exact .inl (.append i op hop w hwr)
    | leave i =>
      obtain ⟨op, hop, h⟩ := Option.bind_eq_some_iff.mp h
      split at h
      · obtain rfl := Option.some.inj h
        have hne : s.ops ≠ [] := List.ne_nil_of_mem (List.mem_of_getElem? hop)
        have hc : s.fs.committing = false :=
          Bool.eq_false_iff.mpr fun hc => hne (hw.quiet hc)
        refine run_wp (P := Outcome s _) (endOp_spec hc) ?_ (fun _ _ he => he.elim)
        rintro ok t ⟨rfl, hok⟩
        exact .inl (.leave i op hop ok hok)
      · cases h
    | commit =>
      dsimp only at h
      split at h
      · rename_i hc
        obtain rfl := Option.some.inj h
        rcases Nat.eq_zero_or_pos s.fs.lh.n with hn | hn
        · have hspec : wp finish s.fs (fun _ t => t = { s.fs with committing := false })
              (fun _ _ => False) := by
            simp only [finish, commit, wp_bind, wp_get, wp_ite, wp_modify, wp_pure]
            exact ⟨fun h => absurd hn (Nat.ne_of_gt h), fun _ => trivial⟩
          refine run_wp (P := Outcome s _) hspec ?_ (fun _ _ he => he.elim)
          rintro _ t rfl
          exact .inl (.erase hc hn)
        · have hspec : wp finish s.fs (fun _ t => ∃ buf : Block, buf 0 = 0 ∧
              t = { (s.fs.storeAll (s.fs.committing₁ ++ s.fs.committing₂)).store s.fs.start buf with
                lh := { s.fs.lh with n := 0 }
                committing := false }) (fun _ _ => False) := by
            simp only [finish, wp_bind, wp_modify]
            refine wp_mono (commit_spec hw.ready (hroom rfl) hn) ?_ (fun _ _ he => he)
            rintro _ t ⟨buf, hbuf, rfl⟩
            exact ⟨buf, hbuf, rfl⟩
          refine run_wp (P := Outcome s _) hspec ?_ (fun _ _ he => he.elim)
          rintro _ t ⟨buf, hbuf, rfl⟩
          exact .inl (.commit hc hn buf hbuf)
      · cases h

theorem split_at {α : Type} {l : List α} {i : Nat} {a : α} (h : l[i]? = some a) :
    l.Perm (a :: l.eraseIdx i) ∧ ∀ b, (l.set i b).Perm (b :: l.eraseIdx i) := by
  obtain ⟨hi, rfl⟩ := List.getElem?_eq_some_iff.mp h
  exact ⟨(List.getElem_cons_eraseIdx_perm hi).symm, List.set_perm_cons_eraseIdx hi⟩

/-- The facts about the operations, in any order. -/
structure Reserved (ops : List Op) (lh : Header) : Prop where
  fits : ∀ op ∈ ops, op.Fits lh.blocks
  sum : lh.n + (ops.map Op.left).sum ≤ logSize

theorem Reserved.perm {ops ops' : List Op} {lh : Header} (h : Reserved ops lh) (hp : ops.Perm ops') :
    Reserved ops' lh :=
  ⟨fun op hop => h.fits op (hp.mem_iff.mpr hop), (hp.map Op.left).sum_eq ▸ h.sum⟩

theorem Wf.allotted (hw : s.Wf) : Reserved s.ops s.fs.lh := ⟨hw.ops, hw.reserved⟩

theorem Wf.enter (hw : s.Wf) {i b : Nat} {x : Block} {op : Op} (hop : s.ops[i]? = some op)
    (hhome : Home b) (hlen : (op.add b).length ≤ maxOpBlocks) :
    Wf { s with ops := s.ops.set i { op with writing := some (b, x) } } := by
  obtain ⟨hperm, hset⟩ := split_at hop
  have hres := hw.allotted.perm hperm
  obtain ⟨hfit, hrest⟩ := List.forall_mem_cons.mp hres.fits
  have hres' : Reserved (s.ops.set i { op with writing := some (b, x) }) s.fs.lh := by
    have hfit' : Op.Fits { op with writing := some (b, x) } s.fs.lh.blocks := by
      refine ⟨hfit.length, hfit.logged, fun w hw => ?_⟩
      obtain rfl := Option.some.inj hw
      exact ⟨hhome, hlen⟩
    exact Reserved.perm ⟨List.forall_mem_cons.mpr ⟨hfit', hrest⟩, hres.sum⟩ (hset _).symm
  refine ⟨hw.ready, hw.size, hw.nodup, hw.mem, hw.content, ?_, fun hc => ?_, fun hc hnil => ?_,
    hres'.fits, hres'.sum⟩
  · rw [List.length_set, hw.count]
  · rw [hw.quiet hc, List.set_nil]
  · exact hw.idle hc ((List.set_eq_nil_iff _ _).mp hnil)

theorem add_left {op : Op} {b : Nat} (hlen : (op.add b).length ≤ maxOpBlocks) (hb : b ∉ op.blocks) :
    Op.left ⟨op.add b, none⟩ + 1 = op.left := by
  rw [Op.add, if_neg hb, List.length_cons] at hlen
  rw [Op.left, Op.left, Op.add, if_neg hb, List.length_cons]
  omega

theorem Wf.append (hw : s.Wf) {i : Nat} {op : Op} (hop : s.ops[i]? = some op) {w : Nat × Block}
    (hwr : op.writing = some w) : Wf { s with
      fs := { s.fs with lh := s.fs.lh.log w.1, dirty := update s.fs.dirty w.1 (some w.2) }
      ops := s.ops.set i ⟨op.add w.1, none⟩
      group := s.group ++ [w] } := by
  obtain ⟨hperm, hset⟩ := split_at hop
  have hres := hw.allotted.perm hperm
  obtain ⟨hfit, hrest⟩ := List.forall_mem_cons.mp hres.fits
  obtain ⟨hhome, hlen⟩ := hfit.writing w hwr
  have hadd : ∀ b ∈ op.add w.1, b = w.1 ∨ b ∈ op.blocks := by
    intro b hb
    rw [Op.add] at hb
    split at hb
    · exact .inr hb
    · exact List.mem_cons.mp hb
  have hres' : Reserved (s.ops.set i ⟨op.add w.1, none⟩) (s.fs.lh.log w.1) := by
    refine Reserved.perm ⟨List.forall_mem_cons.mpr ⟨⟨hlen, fun b hb => ?_, fun v hv => ?_⟩,
      fun op' hop' => ?_⟩, ?_⟩ (hset _).symm
    · exact Header.mem_log.mpr ((hadd b hb).elim .inr fun hb => .inl (hfit.logged b hb))
    · cases hv
    · obtain ⟨hlen', hlogged, hwriting⟩ := hrest op' hop'
      exact ⟨hlen', fun b hb => Header.mem_log.mpr (.inl (hlogged b hb)), hwriting⟩
    · have hsum := hres.sum
      rw [List.map_cons, List.sum_cons] at hsum ⊢
      rcases s.fs.lh.log_cases w.1 with ⟨-, heq⟩ | ⟨hnew, hn, -⟩
      · have hle : Op.left ⟨op.add w.1, none⟩ ≤ op.left := by
          refine Nat.sub_le_sub_left ?_ _
          rw [Op.add]
          split
          · exact Nat.le_refl _
          · exact Nat.le_succ _
        rw [heq]
        omega
      · have := add_left hlen fun hb => hnew (hfit.logged _ hb)
        rw [hn]
        omega
  refine ⟨⟨hw.ready.start, fun j hj => ?_, hw.ready.head, fun b hb => ?_⟩, hw.size,
    Header.nodup_log hw.nodup _, fun b => ?_, ?_, ?_, fun hc => ?_, fun hc hnil => ?_, hres'.fits,
    hres'.sum⟩
  · rcases Header.mem_log.mp (Header.mem_blocks.mpr ⟨j, hj, rfl⟩) with hold | heq
    · obtain ⟨i, hi, hib⟩ := Header.mem_blocks.mp hold
      exact hib ▸ hw.ready.apart i hi
    · exact heq.symm ▸ hhome
  · have hnot : b ∉ (s.fs.lh.log w.1).blocks := fun h => by
      obtain ⟨j, hj, hjb⟩ := Header.mem_blocks.mp h
      exact hb j hj hjb
    rw [Header.mem_log, not_or, Header.mem_blocks] at hnot
    dsimp only
    rw [update_of_ne hnot.2]
    exact hw.ready.clean b fun j hj hjb => hnot.1 ⟨j, hj, hjb⟩
  · rw [Header.mem_log, hw.mem, List.map_append, List.mem_append, List.map_cons, List.map_nil,
      List.mem_singleton]
  · rw [install_append, install_singleton, ← hw.content]
    funext c
    by_cases hc : c = w.1
    · subst hc
      simp only [Fs.content, update_self, Option.getD_some]
    · simp only [Fs.content, update_of_ne hc]
  · rw [List.length_set, hw.count]
  · rw [hw.quiet hc, List.set_nil]
  · rw [(List.set_eq_nil_iff _ _).mp hnil] at hop
    cases hop

theorem sum_left_le (ops : List Op) : (ops.map Op.left).sum ≤ ops.length * maxOpBlocks := by
  induction ops with
  | nil => exact Nat.zero_le _
  | cons op ops ih =>
    rw [List.map_cons, List.sum_cons, List.length_cons, Nat.succ_mul, Nat.add_comm]
    exact Nat.add_le_add ih (Nat.sub_le _ _)

theorem Wf.begin (hw : s.Wf) (hc : s.fs.committing = false)
    (hroom : s.fs.lh.n + (s.fs.outstanding + 1) * maxOpBlocks ≤ (logSize : Int)) : Wf { s with
      fs := { s.fs with outstanding := s.fs.outstanding + 1 }
      ops := s.ops ++ [⟨[], none⟩] } := by
  have hfit : Op.Fits ⟨[], none⟩ s.fs.lh.blocks :=
    ⟨Nat.zero_le _, fun b hb => absurd hb List.not_mem_nil, fun w hw => by cases hw⟩
  refine ⟨hw.ready.keep _ _, hw.size, hw.nodup, hw.mem, hw.content, ?_, fun h => ?_, fun _ hnil => ?_,
    fun op hop => ?_, ?_⟩
  · rw [List.length_append, List.length_singleton, hw.count]
    rfl
  · exact absurd (hc.symm.trans h) Bool.false_ne_true
  · exact absurd hnil (List.append_ne_nil_of_right_ne_nil _ (List.cons_ne_nil _ _))
  · rcases List.mem_append.mp hop with hop | hop
    · exact hw.ops op hop
    · obtain rfl := List.mem_singleton.mp hop
      exact hfit
  · have := sum_left_le (s.ops ++ [⟨[], none⟩])
    rw [List.length_append, List.length_singleton] at this
    rw [hw.count] at hroom
    exact Nat.le_trans (Nat.add_le_add_left this _) (by exact_mod_cast hroom)

theorem Wf.leave (hw : s.Wf) {i : Nat} {op : Op} (hop : s.ops[i]? = some op) {ok : Bool}
    (hok : ok = true ↔ s.fs.outstanding = 1) : Wf { s with
      fs := { s.fs with outstanding := s.fs.outstanding - 1, committing := ok }
      ops := s.ops.eraseIdx i } := by
  obtain ⟨hperm, -⟩ := split_at hop
  have hres := hw.allotted.perm hperm
  obtain ⟨-, hrest⟩ := List.forall_mem_cons.mp hres.fits
  have hlen := hperm.length_eq
  rw [List.length_cons] at hlen
  have hcount := hw.count
  refine ⟨hw.ready.keep _ _, hw.size, hw.nodup, hw.mem, hw.content, ?_, fun h => ?_, fun h hnil => ?_, hrest,
    Nat.le_trans (Nat.add_le_add_left ?_ _) hres.sum⟩
  · dsimp only
    omega
  · have hone := hok.mp h
    refine List.length_eq_zero_iff.mp ?_
    dsimp only
    omega
  · dsimp only at h hnil
    rw [hnil] at hlen
    have : ok = true := hok.mpr (by rw [hcount, hlen]; rfl)
    exact absurd (h.symm.trans this) Bool.false_ne_true
  · rw [List.map_cons, List.sum_cons]
    exact Nat.le_add_left _ _

theorem Wf.erase (hw : s.Wf) (hn : s.fs.lh.n = 0) :
    Wf { s with fs := { s.fs with committing := false }, group := [] } := by
  have hnil : s.fs.lh.blocks = [] := by
    rw [Header.blocks, hn]
    rfl
  have hgroup : s.group = [] := by
    refine List.eq_nil_iff_forall_not_mem.mpr fun w hwm => ?_
    have := (hw.mem w.1).mpr (List.mem_map_of_mem hwm)
    rw [hnil] at this
    cases this
  have hcontent := hw.content
  rw [hgroup] at hcontent
  refine ⟨hw.ready.keep _ _, hw.size, hw.nodup, fun b => ?_, hcontent, hw.count, fun h => ?_, fun _ _ => hn,
    hw.ops, hw.reserved⟩
  · rw [hw.mem, hgroup]
  · cases h

theorem Wf.commit (hw : s.Wf) (hc : s.fs.committing = true) (hroom : s.fs.lh.n < sb.nlog)
    {buf : Block} (hbuf : buf 0 = 0) : Wf { s with
      fs := { (s.fs.storeAll (s.fs.committing₁ ++ s.fs.committing₂)).store s.fs.start buf with
        lh := { s.fs.lh with n := 0 }
        committing := false }
      group := [] } := by
  obtain ⟨hempty, hdirty⟩ := hw.ready.done hroom hbuf
  obtain ⟨hstart, hsize, hout, -, -⟩ := s.fs.storeAll_other (s.fs.committing₁ ++ s.fs.committing₂)
  have hops := hw.quiet hc
  refine ⟨⟨hstart.trans hw.ready.start, fun i hi => absurd hi (Nat.not_lt_zero i), hempty.head, fun b _ => hdirty b⟩,
    hsize.trans hw.size, List.nodup_nil, fun b => Iff.rfl, ?_, hout.trans hw.count,
    fun h => absurd h Bool.false_ne_true, fun _ _ => rfl, ?_, ?_⟩
  · funext b
    exact congrArg (Option.getD · _) (hdirty b)
  · rw [hops]
    exact fun op hop => by cases hop
  · rw [hops]
    exact Nat.zero_le _

theorem Wf.step (hw : s.Wf) (hroom : s.InRoom e t) (h : Stepped s e t) : t.Wf := by
  cases h with
  | sleep => exact hw
  | begin hc hle => exact hw.begin hc hle
  | enter i b x op hop hhome hlen _ => exact hw.enter hop hhome hlen
  | append i op hop w hwr => exact hw.append hop hwr
  | leave i op hop ok hok => exact hw.leave hop hok
  | erase hc hn => exact hw.erase hn
  | commit hc hn buf hbuf => exact hw.commit hc (hroom rfl) hbuf

/-- The tests of `log_write` do not depend on what other operations do, so a panic of a step is one
of `log_write` on a full log. -/
theorem step_cases (hw : s.Wf) (hroom : s.InRoom e t) (h : s.step e = some t) :
    (t.panic = none ∧ Stepped s e t ∧ t.Wf) ∨
      (t.panic = some .tooBig ∧ ∃ i b x, e = .enter i b x ∧ sb.nlog - 1 ≤ s.fs.lh.n) := by
  obtain ⟨hp, hst | hbig⟩ := stepped hw hroom h
  · refine .inl ⟨?_, hst, hw.step (t := t) (fun he => hroom he) hst⟩
    cases hst <;> exact hp
  · exact .inr hbig

theorem wf_boot (d : Image) : (boot d).Wf ∧ (boot d).panic = none := by
  have hn : (headerOn d).n = 0 := d.2
  have hwp := initlog_spec (d := d) (fun i hi => absurd (hn ▸ hi) (Nat.not_lt_zero i))
    (by rw [hn]; decide)
  refine run_wp (P := fun s => s.Wf ∧ s.panic = none) hwp ?_ (fun _ _ he => he.elim)
  rintro _ t ⟨buf, hbuf, rfl⟩
  have hinst : (Fs.recovering d).installed = [] := by
    have : (Fs.recovering d).lh.n = 0 := hn
    rw [Fs.installed, this]
    rfl
  rw [hinst]
  have hhead : update d.1 sb.logstart buf sb.logstart 0 = 0 := by rw [update_self, hbuf]
  have hdirty : ∀ b, update (fun _ => none) sb.logstart none b = (none : Option Block) := by
    intro b
    rw [update_apply, ite_self]
  refine ⟨⟨⟨rfl, fun i hi => absurd hi (Nat.not_lt_zero i), hhead, fun b _ => hdirty b⟩, rfl,
    List.nodup_nil, fun b => Iff.rfl, ?_, rfl, fun h => absurd h Bool.false_ne_true, fun _ _ => rfl,
    fun op hop => absurd hop List.not_mem_nil, Nat.zero_le _⟩, rfl⟩
  funext b
  exact congrArg (Option.getD · _) (hdirty b)

theorem panic_of_step (h : s.step e = some t) : s.panic = none := by
  unfold step at h
  split at h
  · cases h
  · rename_i hp
    exact Option.not_isSome_iff_eq_none.mp hp

theorem wf_step (hw : s.panic = none → s.Wf) (hroom : s.InRoom e t) (h : s.step e = some t) :
    t.panic = none → t.Wf := by
  intro hp
  rcases step_cases (hw (panic_of_step h)) hroom h with ⟨-, -, hwf⟩ | ⟨hbig, -⟩
  · exact hwf
  · rw [hp] at hbig
    cases hbig

theorem wf_run {d : Image} (h : Run.exec step (boot d) es = some s)
    (hroom : Run.Always step InRoom (boot d) es) : s.panic = none → s.Wf :=
  hroom.invariant (I := fun s => s.panic = none → s.Wf) (fun _ _ _ => wf_step)
    (fun _ => (wf_boot d).1) h

/-- The blocks outside of the log change in `commit` only. -/
theorem disk_step (hw : s.Wf) (hroom : s.InRoom e t) (h : s.step e = some t) (hp : t.panic = none)
    (he : e ≠ .commit) : t.fs.disk = s.fs.disk := by
  obtain ⟨-, hst | ⟨hbig, -⟩⟩ := stepped hw hroom h
  · cases hst with
    | erase => exact absurd rfl he
    | commit => exact absurd rfl he
    | sleep | begin | enter | append | leave => rfl
  · rw [hp] at hbig
    cases hbig

/-- However `commit` is cut short, and however often recovery is, the recovery that completes leaves
the blocks outside of the log as they were before the transaction or as they are after it; a
`commit` that is not cut short leaves them as they are after it. -/
theorem crash_atomic {d : Image} (h : Run.exec step (boot d) es = some s)
    (hroom : Run.Always step InRoom (boot d) es) (hn : s.fs.lh.n < sb.nlog)
    (ht : s.step .commit = some t) :
    (∀ k d', Crashes (install s.fs.disk ((trace commit s.fs).take k)) d' →
      (∀ b, Home b → recovered d' b = s.fs.disk b) ∨
        ∀ b, Home b → recovered d' b = install s.fs.disk s.group b) ∧
    ∀ b, Home b → t.fs.disk b = install s.fs.disk s.group b := by
  have hw := wf_run h hroom (panic_of_step ht)
  rw [← hw.content]
  constructor
  · intro k d' hd
    rcases Nat.eq_zero_or_pos s.fs.lh.n with hzero | hpos
    · have hnil : trace commit s.fs = [] := by
        have hwp : wp commit { s.fs with writes := [] } (fun _ t => t.writes = []) (fun _ _ => False) := by
          simp only [commit, wp_bind, wp_get, wp_ite, wp_pure]
          exact ⟨fun hpos => absurd hzero (Nat.ne_of_gt hpos), fun _ => trivial⟩
        obtain ⟨a, u, hm, hu⟩ := exists_ok_of_wp hwp
        rw [trace, hm]
        exact hu
      rw [hnil, List.take_nil] at hd
      have he : Empty s.fs.disk s.fs.disk := ⟨hw.ready.head, fun b _ => rfl⟩
      exact .inl (he.crashes hd).home
    · rcases hw.ready.crash hn hpos k with he | hc | he
      · exact .inl (he.crashes hd).home
      · exact .inr (hc.crashes hd).home
      · exact .inr (he.crashes hd).home
  · obtain ⟨-, hst | ⟨-, i, b, x, he, -⟩⟩ := stepped hw (fun _ => hn) ht
    · cases hst with
      | erase hc hn =>
        intro b _
        have hclean := hw.ready.clean b fun i hi => absurd (hn ▸ hi) (Nat.not_lt_zero i)
        rw [Fs.content, hclean, Option.getD_none]
      | commit hc _ buf hbuf => exact (hw.ready.done hn hbuf).1.home
    · cases he

/-- A disk of zeroes, as `mkfs` starts from. -/
def zeroes : Image := ⟨fun _ _ => 0, rfl⟩

/-- One operation that logs one block, up to its commit. -/
def oneBlock : List Event := [.begin, .enter 0 7000 (fun _ => 1), .append 0, .leave 0]

theorem crash_atomic_oneBlock : ∃ s t, Run.exec step (boot zeroes) oneBlock = some s ∧
    s.step .commit = some t ∧ (∀ k d', Crashes (install s.fs.disk ((trace commit s.fs).take k)) d' →
      (∀ b, Home b → recovered d' b = s.fs.disk b) ∨
        ∀ b, Home b → recovered d' b = install s.fs.disk s.group b) ∧
    ∀ b, Home b → t.fs.disk b = install s.fs.disk s.group b := by
  obtain ⟨s, hs, hn, t, ht⟩ : ∃ s, Run.exec step (boot zeroes) oneBlock = some s ∧
      s.fs.lh.n < sb.nlog ∧ ∃ t, s.step .commit = some t := ⟨_, rfl, by decide, _, rfl⟩
  have hroom : Run.Always step InRoom (boot zeroes) oneBlock := by
    refine Run.Always.of_mem fun e he _ _ hc => ?_
    subst hc
    simp [oneBlock] at he
  exact ⟨s, t, hs, ht, crash_atomic hs hroom hn ht⟩

end Sys

end Xv6.Log
