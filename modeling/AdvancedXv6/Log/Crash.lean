import AdvancedXv6.Log.Spec

/-! Crashes in `commit` and in recovery: what is on the disk once a recovery completes. -/

namespace Xv6.Log
open Function Effect Redo

variable {s t : Fs} {b c n k : Nat} {d d' h : Nat → Block}

/-- The writes of a procedure. -/
def trace (m : M Unit) (s : Fs) : List (Nat × Block) :=
  match m { s with writes := [] } with
  | .ok _ t => t.writes
  | .error _ t => t.writes

/-- A machine that has just been started. -/
def Fs.fresh (d : Nat → Block) : Fs where
  disk := d
  dirty _ := none
  start := 0
  size := 0
  outstanding := 0
  committing := false
  lh := ⟨0, fun _ => 0⟩
  writes := []

/-- The disk after a recovery. -/
def recovered (d : Nat → Block) : Nat → Block := install d (trace (initlog sb) (.fresh d))

/-- What crashes in the recoveries, each after some number of writes, can make of the disk. -/
inductive Crashes (d : Nat → Block) : (Nat → Block) → Prop
  | refl : Crashes d d
  | again {d' : Nat → Block} (k : Nat) (h : Crashes d d') :
    Crashes d (install d' ((trace (initlog sb) (.fresh d')).take k))

/-- A block outside of the log. -/
def Home (b : Nat) : Prop := b < sb.logstart ∨ sb.logstart + sb.nlog ≤ b

instance (b : Nat) : Decidable (Home b) := inferInstanceAs (Decidable (_ ∨ _))

/-- The log on the disk is empty, and the blocks outside of it are those of `h`. -/
structure Empty (h d : Nat → Block) : Prop where
  head : d sb.logstart 0 = 0
  home : ∀ b, Home b → d b = h b

/-- The log on the disk holds `n` blocks of `h`, and the blocks outside of it that it does not name
are those of `h`. -/
structure Committed (h : Nat → Block) (n : Nat) (block : Nat → Nat) (d : Nat → Block) : Prop where
  room : n < sb.nlog
  apart : ∀ i < n, Home (block i)
  head : d sb.logstart 0 = n
  names : ∀ i < n, d sb.logstart (i + 1) = block i
  copies : ∀ i < n, d (sb.logstart + i + 1) = h (block i)
  home : ∀ b, Home b → (∀ i < n, block i ≠ b) → d b = h b

theorem home_ne_head (hb : Home b) : b ≠ sb.logstart := by
  rintro rfl
  rcases hb with hlt | hle
  · exact Nat.lt_irrefl _ hlt
  · exact absurd hle (by decide)

theorem home_ne_slot (hb : Home b) (hc : c + 1 < sb.nlog) : b ≠ sb.logstart + c + 1 := by
  rcases hb with hlt | hle <;> omega

/-! ### Recovery -/

/-- What `read_head` finds on the disk. -/
def headerOn (d : Nat → Block) : Header :=
  ⟨d sb.logstart 0, fun i => if i < d sb.logstart 0 then d sb.logstart (i + 1) else 0⟩

theorem content_fresh (d : Nat → Block) : (Fs.fresh d).content = d := rfl

/-- The state of a recovery that has read the header. -/
def Fs.recovering (d : Nat → Block) : Fs :=
  { Fs.fresh d with start := sb.logstart, size := sb.nlog, lh := headerOn d }

theorem initlog_spec (hh : ∀ i < (headerOn d).n, Home ((headerOn d).block i))
    (hn : (headerOn d).n < sb.nlog) : wp (initlog sb) (.fresh d) (fun _ t => ∃ buf : Block, buf 0 = 0 ∧
      t = { ((Fs.recovering d).storeAll (Fs.recovering d).installed).store sb.logstart buf with
        lh := { headerOn d with n := 0 } }) (fun _ _ => False) := by
  have hap : (Fs.recovering d).Apart := by
    intro i hi j hj
    exact home_ne_slot (hh i hi) (Nat.lt_of_le_of_lt (Nat.succ_le_of_lt hj) hn)
  have herase := erase_spec (s := (Fs.recovering d).storeAll (Fs.recovering d).installed)
  obtain ⟨hstart, -, -, -, hlh⟩ := (Fs.recovering d).storeAll_other (Fs.recovering d).installed
  simp only [clear, wp_bind, wp_modify] at herase
  simp only [initlog, recoverFromLog, readHead, bread, clear, wp_bind, wp_modify, wp_get, wp_pure]
  refine wp_mono (installTrans_spec (s := Fs.recovering d) hap) ?_ (fun _ _ he => he)
  rintro _ t rfl
  refine wp_mono herase ?_ (fun _ _ he => he)
  rintro _ t ⟨buf, hbuf, rfl⟩
  refine ⟨buf, hbuf, ?_⟩
  rw [hstart, hlh]
  rfl

/-- A recovery installs the blocks of the log, then erases it. -/
theorem trace_initlog (hh : ∀ i < (headerOn d).n, Home ((headerOn d).block i))
    (hn : (headerOn d).n < sb.nlog) : ∃ buf : Block, buf 0 = 0 ∧ trace (initlog sb) (.fresh d) =
      copies d (sb.logstart + · + 1) (headerOn d).block (headerOn d).n ++ [(sb.logstart, buf)] := by
  obtain ⟨a, t, hm, buf, hbuf, rfl⟩ := exists_ok_of_wp (initlog_spec hh hn)
  have hfresh : { Fs.fresh d with writes := [] } = Fs.fresh d := rfl
  refine ⟨buf, hbuf, ?_⟩
  rw [trace, hfresh, hm]
  simp only [Fs.store, Fs.writes_storeAll]
  rfl

theorem Empty.headerOn (he : Empty h d) : (headerOn d).n = 0 := he.head

theorem Committed.headerOn {block : Nat → Nat} (hc : Committed h n block d) :
    (Log.headerOn d).n = n ∧ ∀ i < n, (Log.headerOn d).block i = block i := by
  refine ⟨hc.head, fun i hi => ?_⟩
  rw [Log.headerOn, hc.head]
  exact (if_pos hi).trans (hc.names i hi)

/-- What a write of the header with `n = 0` makes of a disk whose other blocks are those of `h`. -/
theorem Empty.erase {buf : Block} (hbuf : buf 0 = 0) (hh : ∀ b, Home b → d b = h b) :
    Empty h (update d sb.logstart buf) := by
  refine ⟨by rw [update_self, hbuf], fun b hb => ?_⟩
  rw [update_of_ne (home_ne_head hb)]
  exact hh b hb

/-- Installing a block keeps a committed log. -/
theorem Committed.step {block : Nat → Nat} (hc : Committed h n block d) (hk : k < n) :
    Committed h n block (update d (block k) (h (block k))) := by
  have hhead := home_ne_head (hc.apart k hk)
  refine ⟨hc.room, hc.apart, ?_, fun i hi => ?_, fun i hi => ?_, fun b hb hne => ?_⟩
  · rw [update_of_ne hhead.symm, hc.head]
  · rw [update_of_ne hhead.symm, hc.names i hi]
  · rw [update_of_ne (home_ne_slot (hc.apart k hk) (by have := hc.room; omega)).symm, hc.copies i hi]
  · rw [update_of_ne (hne k hk).symm, hc.home b hb hne]

theorem trace_empty (he : Empty h d) :
    ∃ buf : Block, buf 0 = 0 ∧ trace (initlog sb) (.fresh d) = [(sb.logstart, buf)] := by
  have hn := he.headerOn
  obtain ⟨buf, hbuf, ht⟩ := trace_initlog (d := d) (by rw [hn]; intro i hi; cases hi)
    (by rw [hn]; decide)
  rw [hn] at ht
  exact ⟨buf, hbuf, ht⟩

theorem trace_committed {block : Nat → Nat} (hc : Committed h n block d) :
    ∃ buf : Block, buf 0 = 0 ∧ trace (initlog sb) (.fresh d) =
      copies h block block n ++ [(sb.logstart, buf)] := by
  obtain ⟨hn, hb⟩ := hc.headerOn
  obtain ⟨buf, hbuf, ht⟩ := trace_initlog (d := d)
    (fun i hi => by rw [hn] at hi; rw [hb i hi]; exact hc.apart i hi) (by rw [hn]; exact hc.room)
  refine ⟨buf, hbuf, ht.trans (congrArg (· ++ _) ?_)⟩
  rw [hn]
  refine List.map_congr_left fun i hi => ?_
  have hi := List.mem_range.mp hi
  rw [hb i hi, hc.copies i hi]

/-- The home blocks once a committed log is installed, whole or in part before. -/
theorem Committed.installed {block : Nat → Nat} (hc : Committed h n block d) (hb : Home b) :
    install d (Log.copies h block block n) b = h b := by
  have hval : ∀ w ∈ Log.copies h block block n, w.2 = h w.1 := by
    intro w hw
    obtain ⟨i, -, rfl⟩ := mem_copies.mp hw
    rfl
  by_cases hmem : ∃ i < n, block i = b
  · obtain ⟨i, hi, rfl⟩ := hmem
    exact install_of_mem hval ⟨_, mem_copies.mpr ⟨i, hi, rfl⟩, rfl⟩
  · have hne : ∀ i < n, block i ≠ b := fun i hi hib => hmem ⟨i, hi, hib⟩
    rw [install_of_ne, hc.home b hb hne]
    intro w hw
    obtain ⟨i, hi, rfl⟩ := mem_copies.mp hw
    exact hne i hi

/-- A recovery that is cut short leaves a committed log, or the disk it was to leave. -/
theorem Committed.crash {block : Nat → Nat} (hc : Committed h n block d) (k : Nat) :
    Committed h n block (install d ((trace (initlog sb) (.fresh d)).take k)) ∨
      Empty h (install d ((trace (initlog sb) (.fresh d)).take k)) := by
  obtain ⟨buf, hbuf, ht⟩ := trace_committed hc
  rw [ht]
  rcases take_append_cases (Log.copies h block block n) [(sb.logstart, buf)] k with ⟨j, hj⟩ | ⟨j, hj⟩
  · rw [hj]
    refine .inl (prefix_invariant (fun d w hw hd => ?_) hc j)
    obtain ⟨i, hi, rfl⟩ := mem_copies.mp hw
    exact hd.step hi
  · rw [hj, install_append, List.take_succ_cons, List.take_nil]
    exact .inr (.erase hbuf fun b hb => hc.installed hb)

theorem Empty.crash (he : Empty h d) (k : Nat) :
    Empty h (install d ((trace (initlog sb) (.fresh d)).take k)) := by
  obtain ⟨buf, hbuf, ht⟩ := trace_empty he
  rw [ht]
  cases k with
  | zero => exact he
  | succ k =>
    rw [List.take_succ_cons, List.take_nil]
    exact .erase hbuf he.home

theorem Empty.recovered (he : Empty h d) : Empty h (recovered d) := by
  have := he.crash (trace (initlog sb) (.fresh d)).length
  rwa [List.take_length] at this

theorem Committed.recovered {block : Nat → Nat} (hc : Committed h n block d) :
    Empty h (recovered d) := by
  obtain ⟨buf, hbuf, ht⟩ := trace_committed hc
  rw [Log.recovered, ht, install_append]
  exact .erase hbuf fun b hb => hc.installed hb

/-- However often recovery is cut short, one that completes leaves the blocks of `h`. -/
theorem Committed.crashes {block : Nat → Nat} (hc : Committed h n block d) (hd : Crashes d d') :
    Empty h (Log.recovered d') := by
  have hor : Committed h n block d' ∨ Empty h d' := by
    induction hd with
    | refl => exact .inl hc
    | again k _ ih =>
      rcases ih with hc | he
      · exact hc.crash k
      · exact .inr (he.crash k)
  rcases hor with hc | he
  · exact hc.recovered
  · exact he.recovered

theorem Empty.crashes (he : Empty h d) (hd : Crashes d d') : Empty h (Log.recovered d') := by
  have he' : Empty h d' := by
    induction hd with
    | refl => exact he
    | again k _ ih => exact ih.crash k
  exact he'.recovered

/-! ### Commit -/

/-- Between commits: the log on the disk is empty, and the dirty buffers are those it will hold. -/
structure Ready (s : Fs) : Prop where
  start : s.start = sb.logstart
  apart : ∀ i < s.lh.n, Home (s.lh.block i)
  head : s.disk sb.logstart 0 = 0
  clean : ∀ b, (∀ i < s.lh.n, s.lh.block i ≠ b) → s.dirty b = none

theorem Ready.keep (hr : Ready s) (outstanding : Int) (committing : Bool) :
    Ready { s with outstanding, committing } := ⟨hr.start, hr.apart, hr.head, hr.clean⟩

theorem Ready.content (hr : Ready s) (hb : ∀ i < s.lh.n, s.lh.block i ≠ b) :
    s.content b = s.disk b := by
  rw [Fs.content, hr.clean b hb, Option.getD_none]

theorem Ready.content_head (hr : Ready s) : s.content sb.logstart = s.disk sb.logstart :=
  hr.content fun i hi => home_ne_head (hr.apart i hi)

/-- What `commit` writes up to the commit point, and after it. -/
def Fs.committing₁ (s : Fs) : List (Nat × Block) :=
  s.logged ++ [(s.start, s.lh.words (s.content s.start))]

def Fs.committing₂ (s : Fs) : List (Nat × Block) := copies s.content s.lh.block s.lh.block s.lh.n

theorem Ready.mem_logged (hr : Ready s) {w : Nat × Block} (hw : w ∈ s.logged) :
    ∃ i < s.lh.n, w.1 = sb.logstart + i + 1 ∧ w.2 = s.content (s.lh.block i) := by
  obtain ⟨i, hi, rfl⟩ := mem_copies.mp hw
  exact ⟨i, hi, by rw [hr.start], rfl⟩

/-- The slots of the log up to the commit point, whatever they held before. -/
theorem Ready.slot (hr : Ready s) {i : Nat} (hi : i < s.lh.n) (d : Nat → Block) :
    install d s.committing₁ (sb.logstart + i + 1) = s.content (s.lh.block i) := by
  have hval : ∀ w ∈ s.logged, w.2 = (fun b => s.content (s.lh.block (b - sb.logstart - 1))) w.1 := by
    intro w hw
    obtain ⟨j, -, hj, hval⟩ := hr.mem_logged hw
    rw [hval, hj]
    exact congrArg (fun j => s.content (s.lh.block j)) (by omega)
  have hmem : ∃ w ∈ s.logged, w.1 = sb.logstart + i + 1 :=
    ⟨_, mem_copies.mpr ⟨i, hi, rfl⟩, by rw [hr.start]⟩
  rw [Fs.committing₁, install_append, install_singleton, hr.start, update_of_ne (by omega),
    install_of_mem (f := fun b => s.content (s.lh.block (b - sb.logstart - 1))) hval hmem]
  exact congrArg (fun j => s.content (s.lh.block j)) (by omega)

/-- The disk once the header is written. -/
theorem Ready.committed (hr : Ready s) (hroom : s.lh.n < sb.nlog) :
    Committed s.content s.lh.n s.lh.block (install s.disk s.committing₁) := by
  refine ⟨hroom, hr.apart, ?_, fun i hi => ?_, fun i hi => hr.slot hi _, fun b hb hne => ?_⟩
  all_goals rw [Fs.committing₁, install_append, install_singleton, hr.start]
  · rw [update_self, Header.words_zero]
  · rw [update_self, Header.words_succ hi]
  · rw [update_of_ne (home_ne_head hb), install_of_ne, hr.content hne]
    intro w hw
    obtain ⟨i, hi, hslot, -⟩ := hr.mem_logged hw
    rw [hslot]
    exact (home_ne_slot hb (by omega)).symm

theorem Ready.storeAll_committing₁ (hr : Ready s) :
    (s.storeAll s.logged).store (s.storeAll s.logged).start
      ((s.storeAll s.logged).lh.words ((s.storeAll s.logged).content (s.storeAll s.logged).start)) =
      s.storeAll s.committing₁ := by
  obtain ⟨hstart, -, -, -, hlh⟩ := s.storeAll_other s.logged
  have hhead : (s.storeAll s.logged).content s.start = s.content s.start := by
    rw [Fs.content_storeAll, install_of_ne]
    intro w hw
    obtain ⟨i, -, hslot, -⟩ := hr.mem_logged hw
    rw [hslot, hr.start]
    omega
  rw [hstart, hlh, hhead, Fs.committing₁, Fs.storeAll_concat]

theorem commit_spec (hr : Ready s) (hroom : s.lh.n < sb.nlog) (hn : 0 < s.lh.n) :
    wp commit s (fun _ t => ∃ buf : Block, buf 0 = 0 ∧
      t = { (s.storeAll (s.committing₁ ++ s.committing₂)).store s.start buf with
        lh := { s.lh with n := 0 } }) (fun _ _ => False) := by
  have hap : s.Apart := by
    intro i hi j hj
    rw [hr.start]
    exact home_ne_slot (hr.apart i hi) (by omega)
  obtain ⟨hstart, -, -, -, hlh⟩ := s.storeAll_other s.committing₁
  have hap₁ : (s.storeAll s.committing₁).Apart := by
    rw [Fs.Apart, hstart, hlh]
    exact hap
  have hinst : (s.storeAll s.committing₁).installed = s.committing₂ := by
    rw [Fs.installed, hstart, hlh, Fs.content_storeAll]
    refine List.map_congr_left fun i hi => ?_
    rw [hr.start, hr.slot (List.mem_range.mp hi)]
  have herase := erase_spec (s := s.storeAll (s.committing₁ ++ s.committing₂))
  simp only [clear, wp_bind, wp_modify] at herase
  obtain ⟨hstart₂, -, -, -, hlh₂⟩ := s.storeAll_other (s.committing₁ ++ s.committing₂)
  simp only [commit, clear, wp_bind, wp_get, wp_ite, wp_modify]
  refine ⟨fun _ => ?_, fun h => absurd hn h⟩
  refine wp_mono (writeLog_spec hap) ?_ (fun _ _ he => he)
  rintro _ t rfl
  refine wp_mono writeHead_spec ?_ (fun _ _ he => he)
  rintro _ t rfl
  rw [hr.storeAll_committing₁]
  refine wp_mono (installTrans_spec hap₁) ?_ (fun _ _ he => he)
  rintro _ t rfl
  rw [hinst, ← Fs.storeAll_append]
  refine wp_mono herase ?_ (fun _ _ he => he)
  rintro _ t ⟨buf, hbuf, rfl⟩
  exact ⟨buf, hbuf, by rw [hstart₂, hlh₂]⟩

/-- A crash in `commit` leaves the disk of before, a committed log, or the disk of after. -/
theorem Ready.crash (hr : Ready s) (hroom : s.lh.n < sb.nlog) (hn : 0 < s.lh.n) (k : Nat) :
    Empty s.disk (install s.disk ((trace commit s).take k)) ∨
      Committed s.content s.lh.n s.lh.block (install s.disk ((trace commit s).take k)) ∨
      Empty s.content (install s.disk ((trace commit s).take k)) := by
  obtain ⟨buf, hbuf, ht⟩ : ∃ buf : Block, buf 0 = 0 ∧
      trace commit s = s.committing₁ ++ (s.committing₂ ++ [(sb.logstart, buf)]) := by
    obtain ⟨a, t, hm, buf, hbuf, rfl⟩ := exists_ok_of_wp
      (commit_spec (s := { s with writes := [] }) ⟨hr.start, hr.apart, hr.head, hr.clean⟩ hroom hn)
    refine ⟨buf, hbuf, ?_⟩
    rw [trace, hm, ← List.append_assoc, ← hr.start]
    simp only [Fs.store, Fs.writes_storeAll]
    rfl
  have hcom := hr.committed hroom
  have hstep : ∀ d, ∀ w ∈ s.committing₂, Committed s.content s.lh.n s.lh.block d →
      Committed s.content s.lh.n s.lh.block (update d w.1 w.2) := by
    intro d w hw hd
    obtain ⟨i, hi, rfl⟩ := mem_copies.mp hw
    exact hd.step hi
  rw [ht]
  rcases take_append_cases s.committing₁ (s.committing₂ ++ [(sb.logstart, buf)]) k with
    ⟨j, hj⟩ | ⟨j, hj⟩
  · rw [hj]
    rcases take_append_cases s.logged [(s.start, s.lh.words (s.content s.start))] j with
      ⟨i, hi⟩ | ⟨i, hi⟩
    · rw [Fs.committing₁, hi]
      refine .inl (prefix_invariant (fun d w hw hd => ?_) ⟨hr.head, fun b _ => rfl⟩ i)
      obtain ⟨i, hi, hslot, -⟩ := hr.mem_logged hw
      rw [hslot]
      refine ⟨?_, fun b hb => ?_⟩
      · rw [update_of_ne (by omega), hd.head]
      · rw [update_of_ne (home_ne_slot hb (by omega)), hd.home b hb]
    · rw [Fs.committing₁, hi, List.take_succ_cons, List.take_nil]
      exact .inr (.inl hcom)
  · rw [hj, install_append]
    rcases take_append_cases s.committing₂ [(sb.logstart, buf)] (j + 1) with ⟨i, hi⟩ | ⟨i, hi⟩
    · rw [hi]
      exact .inr (.inl (prefix_invariant hstep hcom i))
    · rw [hi, install_append, List.take_succ_cons, List.take_nil]
      exact .inr (.inr (.erase hbuf fun b hb => hcom.installed hb))

/-- What `commit` leaves: the disk of after, and no dirty buffer. -/
theorem Ready.done (hr : Ready s) (hroom : s.lh.n < sb.nlog) {buf : Block} (hbuf : buf 0 = 0) :
    Empty s.content ((s.storeAll (s.committing₁ ++ s.committing₂)).store s.start buf).disk ∧
      ∀ b, ((s.storeAll (s.committing₁ ++ s.committing₂)).store s.start buf).dirty b = none := by
  have hdisk : ((s.storeAll (s.committing₁ ++ s.committing₂)).store s.start buf).disk =
      update (install (install s.disk s.committing₁) s.committing₂) s.start buf := by
    rw [Fs.store, Fs.disk_storeAll, install_append]
  refine ⟨?_, fun b => ?_⟩
  · rw [hdisk, hr.start]
    exact .erase hbuf fun b hb => (hr.committed hroom).installed hb
  · have hdirty : ((s.storeAll (s.committing₁ ++ s.committing₂)).store s.start buf).dirty =
      update (s.storeAll (s.committing₁ ++ s.committing₂)).dirty s.start none := rfl
    rw [hdirty]
    by_cases hb : b = s.start
    · rw [hb, update_self]
    · rw [update_of_ne hb, Fs.dirty_storeAll]
      by_cases hmem : ∃ i < s.lh.n, s.lh.block i = b
      · obtain ⟨i, hi, rfl⟩ := hmem
        exact if_pos ⟨_, List.mem_append_right _ (mem_copies.mpr ⟨i, hi, rfl⟩), rfl⟩
      · rw [hr.clean b fun i hi hib => hmem ⟨i, hi, hib⟩, ite_self]

end Xv6.Log
