import AdvancedXv6.Lib.Run
import Mathlib.Logic.Function.Basic
import Mathlib.Data.List.Basic

/-! The command history: what `exec` appends, what it shifts out, and what `exit` marks as
completed. -/

namespace Xv6.History
open Function

def maxHistory : Nat := 64

/-- A string up to its NUL byte. -/
abbrev Name := List UInt8

/-- `struct history_entry` -/
structure Entry where
  pid : Int
  name : Name
  memUsage : Nat
  completed : Bool
  deriving DecidableEq

structure Proc where
  pid : Int
  name : Name
  sz : Nat

structure Kernel where
  /-- the processes that have not exited -/
  procs : List Proc
  nextpid : Int
  history : Nat → Entry
  historyCount : Nat

/-- `init` -/
def initName : Name := [105, 110, 105, 116]

def safestrcpy (t : Name) (n : Nat) : Name := t.take (n - 1)

/-- The loop of `exec` over the path: what comes after the last slash. -/
def lastLoop (last : Name) : Name → Name
  | [] => last
  | c :: s => lastLoop (if c = 47 then s else last) s

/-- The loop of `exit` over the indexes `is`. -/
def complete (pid : Int) (h : Nat → Entry) : List Nat → Nat → Entry
  | [] => h
  | i :: is => if (h i).pid = pid then update h i { h i with completed := true } else complete pid h is

namespace Kernel

def addToHistory (k : Kernel) (p : Proc) : Kernel :=
  if p.pid ≤ 2 ∨ p.name = initName then k
  else
    let k := if maxHistory ≤ k.historyCount then
      { k with
        history := (List.range' 1 (maxHistory - 1)).foldl (fun h i => update h (i - 1) (h i)) k.history
        historyCount := k.historyCount - 1 }
      else k
    { k with
      history := update k.history k.historyCount ⟨p.pid, safestrcpy p.name 16, p.sz, false⟩
      historyCount := k.historyCount + 1 }

end Kernel

inductive Event
  | fork (pid : Int)
  /-- a successful `exec` of the process, with the size of its new image -/
  | exec (pid : Int) (path : Name) (sz : Nat)
  | exit (pid : Int)
  deriving DecidableEq

namespace Kernel

def find (k : Kernel) (pid : Int) : Option Proc := k.procs.find? fun p => p.pid = pid

/-- `curproc` at the end of a successful `exec` -/
def commit (p : Proc) (path : Name) (sz : Nat) : Proc :=
  { p with name := safestrcpy (lastLoop path path) 16, sz }

def setProc (k : Kernel) (q : Proc) : Kernel :=
  { k with procs := k.procs.map fun x => if x.pid = q.pid then q else x }

def exec (k : Kernel) (p : Proc) (path : Name) (sz : Nat) : Kernel :=
  (k.setProc (commit p path sz)).addToHistory (commit p path sz)

def exit (k : Kernel) (pid : Int) : Kernel :=
  { k with
    procs := k.procs.filter fun p => p.pid ≠ pid
    history := complete pid k.history (List.range k.historyCount) }

/-- The first process does not exit. -/
def step (k : Kernel) : Event → Option Kernel
  | .fork pid => (k.find pid).map fun p =>
    { k with procs := ⟨k.nextpid, safestrcpy p.name 16, p.sz⟩ :: k.procs, nextpid := k.nextpid + 1 }
  | .exec pid path sz => (k.find pid).map fun p => k.exec p path sz
  | .exit pid => if pid = 1 then none else (k.find pid).map fun _ => k.exit pid

/-- The first process runs `initcode`. -/
def boot : Kernel where
  procs := [⟨1, [105, 110, 105, 116, 99, 111, 100, 101], 4096⟩]
  nextpid := 2
  history _ := ⟨0, [], 0, false⟩
  historyCount := 0

/-- What `gethistory2` goes through. -/
def entries (k : Kernel) : List Entry := (List.range k.historyCount).map k.history

end Kernel

/-- The system with a record of what has happened. -/
structure Record where
  kernel : Kernel
  /-- the successful `exec`s that the history is about, the oldest first -/
  execs : List (Int × Name)
  exited : List Int

namespace Record

def step (r : Record) (e : Event) : Option Record :=
  (r.kernel.step e).map fun t => match e with
    | .exec pid path _ =>
      let name := safestrcpy (lastLoop path path) 16
      { r with
        kernel := t
        execs := if 2 < pid ∧ name ≠ initName then r.execs ++ [(pid, name)] else r.execs }
    | .exit pid => { r with kernel := t, exited := pid :: r.exited }
    | .fork _ => { r with kernel := t }

def boot : Record := ⟨Kernel.boot, [], []⟩

/-- The history is the last executions, and an entry is completed if and only if its process has
exited. -/
structure Exact (r : Record) : Prop where
  last : r.kernel.entries.map (fun e => (e.pid, e.name)) = r.execs.drop (r.execs.length - maxHistory)
  completed : ∀ e ∈ r.kernel.entries, e.completed = true ↔ e.pid ∈ r.exited

/-- A process that exits has at most one entry in the history. -/
def ExitsOnce (r : Record) (e : Event) (_ : Record) : Prop :=
  ∀ pid, e = .exit pid → ∀ i < r.kernel.historyCount, ∀ j < r.kernel.historyCount,
    (r.kernel.history i).pid = pid → (r.kernel.history j).pid = pid → i = j

end Record

/-! ### The two loops -/

theorem foldl_shift (h : Nat → Entry) (n : Nat) :
    (List.range' 1 n).foldl (fun h i => update h (i - 1) (h i)) h =
      fun j => if j < n then h (j + 1) else h j := by
  induction n with
  | zero => rfl
  | succ n ih =>
    rw [List.range'_1_concat, List.foldl_concat, ih]
    funext j
    rw [Nat.add_sub_cancel_left]
    dsimp only
    rcases Nat.lt_trichotomy j n with hj | hj | hj
    · rw [update_of_ne (by omega), if_pos hj, if_pos (by omega)]
    · rw [hj, update_self, if_neg (by omega), if_pos (by omega), Nat.add_comm]
    · rw [update_of_ne (by omega), if_neg (by omega), if_neg (by omega)]

/-- The loop stops at the first entry of the process. -/
theorem complete_cases (pid : Int) (h : Nat → Entry) (is : List Nat) :
    (complete pid h is = h ∧ ∀ i ∈ is, (h i).pid ≠ pid) ∨
      ∃ i ∈ is, (h i).pid = pid ∧ complete pid h is = update h i { h i with completed := true } := by
  induction is with
  | nil => exact .inl ⟨rfl, fun i hi => absurd hi List.not_mem_nil⟩
  | cons i is ih =>
    rw [complete]
    by_cases hi : (h i).pid = pid
    · rw [if_pos hi]
      exact .inr ⟨i, List.mem_cons_self, hi, rfl⟩
    · rw [if_neg hi]
      rcases ih with ⟨hc, hne⟩ | ⟨j, hj, hpid, hc⟩
      · exact .inl ⟨hc, List.forall_mem_cons.mpr ⟨hi, hne⟩⟩
      · exact .inr ⟨j, List.mem_cons_of_mem _ hj, hpid, hc⟩

theorem map_range_update (h : Nat → Entry) (n : Nat) (e : Entry) :
    (List.range (n + 1)).map (update h n e) = (List.range n).map h ++ [e] := by
  rw [List.range_succ, List.map_append, List.map_cons, List.map_nil, update_self]
  refine congrArg (· ++ _) (List.map_congr_left fun i hi => ?_)
  exact update_of_ne (Nat.ne_of_lt (List.mem_range.mp hi)) _ _

theorem map_range_succ (h : Nat → Entry) (n : Nat) :
    (List.range n).map (fun i => h (i + 1)) = ((List.range (n + 1)).map h).drop 1 := by
  rw [List.range_succ_eq_map, List.map_cons, List.drop_one, List.tail_cons, List.map_map]
  rfl

namespace Kernel

variable {k : Kernel}

/-- What `exec` appends, and what it shifts out. -/
theorem entries_addToHistory (hk : k.historyCount ≤ maxHistory) {p : Proc} (hp : 2 < p.pid)
    (hname : p.name ≠ initName) : (k.addToHistory p).entries =
      k.entries.drop (k.historyCount + 1 - maxHistory) ++
        [⟨p.pid, safestrcpy p.name 16, p.sz, false⟩] := by
  rw [addToHistory, if_neg (not_or.mpr ⟨Int.not_le.mpr hp, hname⟩)]
  by_cases hfull : maxHistory ≤ k.historyCount
  · obtain hcount : k.historyCount = maxHistory := Nat.le_antisymm hk hfull
    rw [if_pos hfull, hcount, foldl_shift, Nat.add_sub_cancel_left]
    refine (map_range_update _ _ _).trans (congrArg (· ++ _) ?_)
    rw [entries, hcount]
    refine (List.map_congr_left fun i hi => ?_).trans (map_range_succ k.history 63)
    exact if_pos (List.mem_range.mp hi)
  · have hlt : k.historyCount + 1 - maxHistory = 0 := by omega
    rw [if_neg hfull, hlt, List.drop_zero]
    exact map_range_update k.history _ _

/-- `exit` marks the entries of the process if there is at most one. -/
theorem entries_exit {pid : Int} (honce : ∀ i < k.historyCount, ∀ j < k.historyCount,
    (k.history i).pid = pid → (k.history j).pid = pid → i = j) :
    (k.exit pid).entries =
      k.entries.map fun e => if e.pid = pid then { e with completed := true } else e := by
  simp only [entries, exit, List.map_map]
  refine List.map_congr_left fun j hj => ?_
  rw [comp_apply]
  rcases complete_cases pid k.history (List.range k.historyCount) with
    ⟨hc, hne⟩ | ⟨i, hi, hpid, hc⟩ <;> rw [hc]
  · rw [if_neg (hne j hj)]
  · by_cases hji : j = i
    · subst hji
      rw [update_self, if_pos hpid]
    · rw [update_of_ne hji, if_neg fun hj' =>
        hji (honce j (List.mem_range.mp hj) i (List.mem_range.mp hi) hj' hpid)]

theorem exit_entry (k : Kernel) (pid : Int) (i : Nat) :
    (k.exit pid).history i = k.history i ∨ (k.history i).pid = pid ∧
      (k.exit pid).history i = { k.history i with completed := true } := by
  show complete pid k.history (List.range k.historyCount) i = k.history i ∨ _ ∧
    complete pid k.history (List.range k.historyCount) i = _
  rcases complete_cases pid k.history (List.range k.historyCount) with ⟨hc, -⟩ | ⟨j, -, hpid, hc⟩ <;>
    rw [hc]
  · exact .inl rfl
  · by_cases hij : i = j
    · subst hij
      exact .inr ⟨hpid, update_self ..⟩
    · exact .inl (update_of_ne hij _ _)

/-- Of two entries of the process, `exit` leaves one as it is. -/
theorem exit_skips {pid : Int} {i j : Nat} (hij : i ≠ j) :
    (k.exit pid).history i = k.history i ∨ (k.exit pid).history j = k.history j := by
  show complete pid k.history (List.range k.historyCount) i = k.history i ∨
    complete pid k.history (List.range k.historyCount) j = k.history j
  rcases complete_cases pid k.history (List.range k.historyCount) with ⟨hc, -⟩ | ⟨n, -, -, hc⟩ <;>
    rw [hc]
  · exact .inl rfl
  · by_cases hi : i = n
    · exact .inr (update_of_ne (hi ▸ hij.symm) _ _)
    · exact .inl (update_of_ne hi _ _)

theorem historyCount_addToHistory (hk : k.historyCount ≤ maxHistory) (p : Proc) :
    (k.addToHistory p).historyCount ≤ maxHistory := by
  rw [addToHistory]
  split
  · exact hk
  · by_cases hfull : maxHistory ≤ k.historyCount
    · have hpos : 1 ≤ k.historyCount := Nat.le_trans (by decide) hfull
      simpa only [if_pos hfull, Nat.sub_add_cancel hpos] using hk
    · rw [if_neg hfull]
      exact Nat.lt_of_not_le hfull

theorem addToHistory_other (k : Kernel) (p : Proc) : (k.addToHistory p).procs = k.procs ∧
    (k.addToHistory p).nextpid = k.nextpid := by
  rw [addToHistory]
  split
  · exact ⟨rfl, rfl⟩
  · dsimp only
    split <;> exact ⟨rfl, rfl⟩

theorem find_some {pid : Int} {p : Proc} (h : k.find pid = some p) : p ∈ k.procs ∧ p.pid = pid :=
  ⟨List.mem_of_find?_eq_some h, by simpa using List.find?_some h⟩

theorem exec_procs {p q : Proc} {path : Name} {sz : Nat} (hp : p ∈ k.procs)
    (hq : q ∈ (k.exec p path sz).procs) : ∃ x ∈ k.procs, q.pid = x.pid := by
  rw [exec, (addToHistory_other _ _).1] at hq
  obtain ⟨x, hx, rfl⟩ := List.mem_map.mp hq
  split
  · exact ⟨p, hp, rfl⟩
  · exact ⟨x, hx, rfl⟩

theorem safestrcpy_safestrcpy (name : Name) (n : Nat) :
    safestrcpy (safestrcpy name n) n = safestrcpy name n := by
  rw [safestrcpy, safestrcpy, List.take_take, Nat.min_self]

theorem exec_entries (hk : k.historyCount ≤ maxHistory) (p : Proc) (path : Name) (sz : Nat) :
    (k.exec p path sz).entries =
      if 2 < p.pid ∧ safestrcpy (lastLoop path path) 16 ≠ initName then
        k.entries.drop (k.entries.length + 1 - maxHistory) ++
          [⟨p.pid, safestrcpy (lastLoop path path) 16, sz, false⟩]
      else k.entries := by
  have hlen : k.entries.length = k.historyCount := by simp [entries]
  by_cases hlog : 2 < p.pid ∧ safestrcpy (lastLoop path path) 16 ≠ initName
  · have hent := entries_addToHistory (k := k.setProc (commit p path sz)) (p := commit p path sz) hk
      hlog.1 hlog.2
    rw [if_pos hlog, hlen, exec, hent, commit, safestrcpy_safestrcpy]
    rfl
  · have hskip : (commit p path sz).pid ≤ 2 ∨ (commit p path sz).name = initName :=
      (not_and_or.mp hlog).imp Int.not_lt.mp Classical.not_not.mp
    rw [if_neg hlog, exec, addToHistory, if_pos hskip]
    rfl

end Kernel

/-! ### The record -/

namespace Record

variable {r t : Record} {e : Event}

/-- What every step keeps. -/
structure Good (r : Record) : Prop where
  count : r.kernel.historyCount ≤ maxHistory
  last : r.kernel.entries.map (fun e => (e.pid, e.name)) = r.execs.drop (r.execs.length - maxHistory)
  live : ∀ p ∈ r.kernel.procs, p.pid < r.kernel.nextpid ∧ p.pid ∉ r.exited
  exited : ∀ pid ∈ r.exited, pid < r.kernel.nextpid
  completed : ∀ e ∈ r.kernel.entries, e.completed = true → e.pid ∈ r.exited

/-- What a step does. -/
inductive Stepped (r : Record) (t : Record) : Event → Prop
  | fork (p : Proc) (hp : p ∈ r.kernel.procs)
      (ht : t = { r with kernel := { r.kernel with
        procs := ⟨r.kernel.nextpid, safestrcpy p.name 16, p.sz⟩ :: r.kernel.procs
        nextpid := r.kernel.nextpid + 1 } }) : Stepped r t (.fork p.pid)
  | exec (p : Proc) (hp : p ∈ r.kernel.procs) (path : Name) (sz : Nat)
      (ht : t = { r with
        kernel := r.kernel.exec p path sz
        execs := if 2 < p.pid ∧ safestrcpy (lastLoop path path) 16 ≠ initName then
          r.execs ++ [(p.pid, safestrcpy (lastLoop path path) 16)] else r.execs }) :
      Stepped r t (.exec p.pid path sz)
  | exit (p : Proc) (hp : p ∈ r.kernel.procs)
      (ht : t = { r with kernel := r.kernel.exit p.pid, exited := p.pid :: r.exited }) :
      Stepped r t (.exit p.pid)

theorem stepped (h : r.step e = some t) : Stepped r t e := by
  obtain ⟨k, hk, rfl⟩ := Option.map_eq_some_iff.mp h
  cases e with
  | fork pid =>
    obtain ⟨p, hp, rfl⟩ := Option.map_eq_some_iff.mp hk
    obtain ⟨hmem, rfl⟩ := Kernel.find_some hp
    exact .fork p hmem rfl
  | exec pid path sz =>
    obtain ⟨p, hp, rfl⟩ := Option.map_eq_some_iff.mp hk
    obtain ⟨hmem, rfl⟩ := Kernel.find_some hp
    exact .exec p hmem path sz rfl
  | exit pid =>
    rw [Kernel.step] at hk
    split at hk
    · cases hk
    · obtain ⟨p, hp, rfl⟩ := Option.map_eq_some_iff.mp hk
      obtain ⟨hmem, rfl⟩ := Kernel.find_some hp
      exact .exit p hmem rfl

theorem drop_append {α : Type} (l : List α) (n : Nat) (x : α) (hn : 0 < n) :
    (l ++ [x]).drop ((l ++ [x]).length - n) =
      (l.drop (l.length - n)).drop ((l.drop (l.length - n)).length + 1 - n) ++ [x] := by
  rw [List.drop_drop, List.length_drop, List.length_append, List.length_singleton,
    List.drop_append_of_le_length (by omega)]
  refine congrArg (· ++ [x]) (congrArg (l.drop ·) ?_)
  omega

theorem Good.step (hg : r.Good) (h : r.step e = some t) : t.Good := by
  cases stepped h with
  | fork p hp ht =>
    subst ht
    refine ⟨hg.count, hg.last, List.forall_mem_cons.mpr ⟨⟨?_, fun hmem => ?_⟩, fun q hq => ?_⟩,
      fun pid hpid => ?_, hg.completed⟩
    · exact Int.lt_succ _
    · exact Int.lt_irrefl _ (hg.exited _ hmem)
    · exact ⟨Int.lt_trans (hg.live q hq).1 (Int.lt_succ _), (hg.live q hq).2⟩
    · exact Int.lt_trans (hg.exited pid hpid) (Int.lt_succ _)
  | exec p hp path sz ht =>
    subst ht
    have hkeys := hg.last
    have hent := Kernel.exec_entries hg.count p path sz
    refine ⟨Kernel.historyCount_addToHistory (k := r.kernel.setProc _) hg.count _, ?_, fun q hq => ?_, fun pid hpid => ?_,
      fun e he => ?_⟩
    · dsimp only
      rw [hent]
      split
      · rw [drop_append _ _ _ (by decide), ← hkeys, List.length_map, List.map_append, List.map_drop]
        rfl
      · exact hg.last
    · obtain ⟨x, hx, hqx⟩ := Kernel.exec_procs hp hq
      rw [hqx, Kernel.exec, (Kernel.addToHistory_other _ _).2]
      exact hg.live x hx
    · rw [Kernel.exec, (Kernel.addToHistory_other _ _).2]
      exact hg.exited pid hpid
    · rw [hent] at he
      intro hc
      split at he
      · rcases List.mem_append.mp he with he | he
        · exact hg.completed e (List.mem_of_mem_drop he) hc
        · obtain rfl := List.mem_singleton.mp he
          cases hc
      · exact hg.completed e he hc
  | exit p hp ht =>
    subst ht
    refine ⟨hg.count, ?_, fun q hq => ?_, fun pid hpid => ?_, fun e he hc => ?_⟩
    · refine Eq.trans ?_ hg.last
      simp only [Kernel.entries, List.map_map]
      refine List.map_congr_left fun i _ => ?_
      rw [comp_apply, comp_apply]
      rcases r.kernel.exit_entry p.pid i with hi | ⟨-, hi⟩ <;> rw [hi]
    · obtain ⟨hq, hne⟩ := List.mem_filter.mp hq
      obtain ⟨hlt, hnot⟩ := hg.live q hq
      refine ⟨hlt, fun hmem => ?_⟩
      rcases List.mem_cons.mp hmem with hpid | hmem
      · exact of_decide_eq_true hne hpid
      · exact hnot hmem
    · rcases List.mem_cons.mp hpid with rfl | hpid
      · exact (hg.live p hp).1
      · exact hg.exited pid hpid
    · obtain ⟨i, hi, rfl⟩ := List.mem_map.mp he
      dsimp only at hc ⊢
      rcases r.kernel.exit_entry p.pid i with heq | ⟨hpid, heq⟩
      · rw [heq] at hc ⊢
        exact List.mem_cons_of_mem _ (hg.completed _ (List.mem_map_of_mem hi) hc)
      · rw [heq, hpid]
        exact List.mem_cons_self

theorem good_boot : boot.Good := by
  refine ⟨by decide, rfl, fun p hp => ?_, fun pid hpid => ?_, fun e he => ?_⟩
  · obtain rfl := List.mem_singleton.mp hp
    exact ⟨by decide, List.not_mem_nil⟩
  · cases hpid
  · cases he

/-- Where no step but an `exit` of a process with two entries is in question, the history stays
exact. -/
theorem Exact.step (hg : r.Good) (hx : r.Exact) (honce : r.ExitsOnce e t) (h : r.step e = some t) :
    t.Exact := by
  refine ⟨(hg.step h).last, ?_⟩
  cases stepped h with
  | fork p hp ht =>
    subst ht
    exact hx.completed
  | exec p hp path sz ht =>
    subst ht
    intro e he
    rw [Kernel.exec_entries hg.count] at he
    split at he
    · rcases List.mem_append.mp he with he | he
      · exact hx.completed e (List.mem_of_mem_drop he)
      · obtain rfl := List.mem_singleton.mp he
        exact iff_of_false Bool.false_ne_true (hg.live p hp).2
    · exact hx.completed e he
  | exit p hp ht =>
    subst ht
    intro e he
    rw [Kernel.entries_exit (honce p.pid rfl)] at he
    obtain ⟨e, hmem, rfl⟩ := List.mem_map.mp he
    by_cases hpid : e.pid = p.pid
    · rw [if_pos hpid]
      exact iff_of_true rfl (List.mem_cons.mpr (.inl hpid))
    · rw [if_neg hpid, hx.completed e hmem, List.mem_cons, or_iff_right hpid]

/-- An `exit` that leaves the history exact found at most one entry of its process. -/
theorem Exact.exitsOnce (hg : r.Good) (hx : t.Exact) (h : r.step e = some t) : r.ExitsOnce e t := by
  rintro pid rfl i hi j hj hpi hpj
  cases stepped h with
  | exit p hp ht =>
    subst ht
    by_contra hij
    have running {n : Nat} (hn : n < r.kernel.historyCount) (hpn : (r.kernel.history n).pid = p.pid) :
        (r.kernel.exit p.pid).history n ≠ r.kernel.history n := by
      intro hsame
      have hdone := hx.completed _ (List.mem_map_of_mem (List.mem_range.mpr hn))
      dsimp only at hdone
      rw [hsame, hpn] at hdone
      have hold := hg.completed _ (List.mem_map_of_mem (List.mem_range.mpr hn))
        (hdone.mpr List.mem_cons_self)
      rw [hpn] at hold
      exact (hg.live p hp).2 hold
    rcases Kernel.exit_skips hij with hi' | hj'
    · exact running hi hpi hi'
    · exact running hj hpj hj'

/-- The history is the last executions, with the exited processes marked, after every event of a
run if and only if each process that exits has at most one entry. -/
theorem exact_iff (es : List Event) : Run.Always step (fun _ _ t => t.Exact) boot es ↔
    Run.Always step ExitsOnce boot es := by
  constructor
  · refine Run.Always.of_invariant (I := Good) (fun s e t hg hx h => ?_) good_boot
    exact ⟨hg.step h, hx.exitsOnce hg h⟩
  · refine Run.Always.of_invariant (I := fun r => r.Good ∧ r.Exact) (fun s e t hI honce h => ?_)
      ⟨good_boot, ⟨rfl, fun e he => by cases he⟩⟩
    have hx := hI.2.step hI.1 honce h
    exact ⟨⟨hI.1.step h, hx⟩, hx⟩

/-- A process (pid 3) calls `exec` twice and exits. -/
def execTwice : List Event :=
  [.fork 1, .fork 2, .exec 3 [108, 115] 4096, .exec 3 [119, 99] 4096, .exit 3]

theorem execTwice_unmarked : ∃ r, Run.exec step boot execTwice = some r ∧
    (∃ e ∈ r.kernel.entries, e.pid = 3 ∧ e.completed = false) ∧ 3 ∈ r.exited ∧ ¬r.Exact := by
  obtain ⟨r, hr, he, hx⟩ : ∃ r, Run.exec step boot execTwice = some r ∧
      (∃ e ∈ r.kernel.entries, e.pid = 3 ∧ e.completed = false) ∧ 3 ∈ r.exited :=
    ⟨_, rfl, ⟨⟨3, [119, 99], 4096, false⟩, by decide, rfl, rfl⟩, by decide⟩
  refine ⟨r, hr, he, hx, fun hexact => ?_⟩
  obtain ⟨e, hmem, hpid, hrun⟩ := he
  have hdone := (hexact.completed e hmem).mpr (hpid ▸ hx)
  exact Bool.false_ne_true (hrun.symm.trans hdone)

end Record

end Xv6.History
