import AdvancedXv6.Lib.Run
import Mathlib.Logic.Function.Basic
import Mathlib.Data.List.Basic

/-! Blocked system calls: the check in `syscall`, `block_dummy`, `unblock_dummy` and `kill`, and
what `fork`, `exit`, `wait` and `exec` do to the fields that they read. System calls are taken one
after the other. -/

namespace Xv6.Block
open Function

def nProc : Nat := 64
def maxSyscalls : Nat := 26

inductive ProcState
  | unused
  /-- any state of a process that has not exited -/
  | live
  | zombie
  deriving DecidableEq, Repr

structure Proc where
  state : ProcState
  pid : Int
  parent : Option Nat
  killed : Bool
  toBeBlocked : Nat

structure Kernel where
  proc : Nat → Proc
  nextpid : Int
  initproc : Nat
  blockedSyscalls : Nat → Bool
  whichPidBlockedIt : Nat → Int

/-- A system call with its arguments; `none` for an argument that `argint` does not get. -/
inductive Call
  /-- `ok` unless memory runs out -/
  | fork (ok : Bool)
  | exit
  | wait
  | kill (pid : Option Int)
  | exec
  | block (id : Option Int)
  | unblock (id : Option Int)
  deriving DecidableEq

def Call.num : Call → Nat
  | .fork _ => 1
  | .exit => 2
  | .wait => 3
  | .kill _ => 6
  | .exec => 7
  | .block _ => 23
  | .unblock _ => 24

namespace Kernel

def setProc (k : Kernel) (i : Nat) (p : Proc) : Kernel := { k with proc := update k.proc i p }

/-- `curproc->parent->pid`; only the first process has no parent. -/
def parentPid (k : Kernel) (i : Nat) : Int :=
  match (k.proc i).parent with
  | none => 0
  | some j => (k.proc j).pid

/-- `syscall` refuses the system call `s` to the process `i`. -/
def Refused (k : Kernel) (i s : Nat) : Prop :=
  k.blockedSyscalls s = true ∧ 2 < (k.proc i).pid ∧
    ((k.proc i).toBeBlocked = 1 ∧ k.whichPidBlockedIt s < (k.proc i).pid ∨
      (k.proc i).toBeBlocked = 0 ∧ k.whichPidBlockedIt s < k.parentPid i)

instance (k : Kernel) (i s : Nat) : Decidable (k.Refused i s) :=
  inferInstanceAs (Decidable (_ ∧ _))

def fork (k : Kernel) (p : Nat) (ok : Bool) : Kernel :=
  match (List.range nProc).find? (fun i => (k.proc i).state = .unused) with
  | none => k
  | some i =>
    let k := { k with nextpid := k.nextpid + 1, proc := update k.proc i { k.proc i with pid := k.nextpid } }
    if ok then
      k.setProc i { k.proc i with state := .live, parent := some p, toBeBlocked := 0 }
    else k

/-- Children of `p` are passed to the first process. -/
def exit (k : Kernel) (p : Nat) : Kernel :=
  { k with proc := fun i =>
      let q := if (k.proc i).parent = some p then { k.proc i with parent := some k.initproc } else k.proc i
      if i = p then { q with state := .zombie } else q }

def wait (k : Kernel) (p : Nat) : Kernel :=
  match (List.range nProc).find? (fun i => (k.proc i).parent = some p ∧ (k.proc i).state = .zombie) with
  | none => k
  | some i => k.setProc i { k.proc i with pid := 0, parent := none, killed := false, state := .unused }

def kill (k : Kernel) (pid : Int) : Kernel :=
  let k := { k with
    whichPidBlockedIt := fun s => if s < maxSyscalls ∧ pid = k.whichPidBlockedIt s then 0
      else k.whichPidBlockedIt s
    blockedSyscalls := fun s => if s < maxSyscalls ∧ pid = k.whichPidBlockedIt s then false
      else k.blockedSyscalls s }
  match (List.range nProc).find? (fun i => (k.proc i).pid = pid) with
  | none => k
  | some i => k.setProc i { k.proc i with killed := true }

def blockDummy (k : Kernel) (p : Nat) (id : Int) : Kernel :=
  if id < 0 ∨ maxSyscalls ≤ id ∨ id = 1 ∨ id = 2 then k
  else
    let s := id.toNat
    let w := if k.whichPidBlockedIt s = 0 then (k.proc p).pid else k.whichPidBlockedIt s
    let w := if (k.proc p).pid < w then (k.proc p).pid else w
    { k with
      blockedSyscalls := update k.blockedSyscalls s true
      whichPidBlockedIt := update k.whichPidBlockedIt s w }

def unblockDummy (k : Kernel) (p : Nat) (id : Int) : Kernel :=
  if id < 0 ∨ maxSyscalls ≤ id then k
  else
    let s := id.toNat
    if (k.proc p).pid ≤ k.whichPidBlockedIt s then
      { k with
        blockedSyscalls := update k.blockedSyscalls s false
        whichPidBlockedIt := update k.whichPidBlockedIt s 0 }
    else k

/-- The system call itself. -/
def perform (k : Kernel) (p : Nat) : Call → Kernel
  | .fork ok => k.fork p ok
  | .exit => k.exit p
  | .wait => k.wait p
  | .kill (some pid) => k.kill pid
  | .block (some id) => k.blockDummy p id
  | .unblock (some id) => k.unblockDummy p id
  | _ => k

/-- `syscall` of the process `p`. -/
def syscall (k : Kernel) (p : Nat) (c : Call) : Kernel :=
  if k.Refused p c.num then k
  else
    let k := if (k.proc p).toBeBlocked = 0 ∧ c.num = 7 then
      k.setProc p { k.proc p with toBeBlocked := 1 } else k
    k.perform p c

/-- A process that has not exited makes a system call; one that is killed exits, and the first
process does not. -/
def step (k : Kernel) (e : Nat × Call) : Option Kernel :=
  if e.1 < nProc ∧ (k.proc e.1).state = .live ∧ ((k.proc e.1).killed = true → e.2 = .exit) ∧
      ¬(e.1 = k.initproc ∧ e.2 = .exit) then
    some (k.syscall e.1 e.2)
  else none

/-- The first process runs, and nothing is blocked. -/
def boot : Kernel where
  proc i := if i = 0 then ⟨.live, 1, none, false, 0⟩ else ⟨.unused, 0, none, false, 0⟩
  nextpid := 2
  initproc := 0
  blockedSyscalls _ := false
  whichPidBlockedIt _ := 0

/-! ### What holds in every reachable state -/

structure Wf (k : Kernel) : Prop where
  init : (k.proc k.initproc).state = .live ∧ (k.proc k.initproc).pid = 1
  pid : ∀ i, (k.proc i).pid < k.nextpid
  first : ∀ i, (k.proc i).state ≠ .unused → 0 < (k.proc i).pid ∧
    ((k.proc i).pid = 1 → i = k.initproc)
  parent : ∀ i j, (k.proc i).state ≠ .unused → (k.proc i).parent = some j →
    (k.proc j).state = .live ∧ (k.proc j).pid < (k.proc i).pid
  which : ∀ s, 0 ≤ k.whichPidBlockedIt s ∧ (k.blockedSyscalls s = true → 0 < k.whichPidBlockedIt s)

variable {k t : Kernel} {i j p q s : Nat} {c : Call} {n w pid : Int} {ok : Bool}

theorem setProc_self {r : Proc} : (k.setProc i r).proc i = r := update_self _ _ _

theorem setProc_of_ne {r : Proc} (h : j ≠ i) : (k.setProc i r).proc j = k.proc j :=
  update_of_ne h _ _

theorem wf_boot : boot.Wf where
  init := ⟨rfl, rfl⟩
  pid i := by
    simp only [boot]
    split <;> decide
  first i h := by
    by_cases hi : i = 0
    · subst hi
      exact ⟨by decide, fun _ => rfl⟩
    · simp [boot, hi] at h
  parent i j h hj := by
    by_cases hi : i = 0
    · subst hi
      cases hj
    · simp [boot, hi] at h
  which _ := ⟨Int.le_refl 0, by rintro ⟨⟩⟩

/-- Processes differ in fields that say nothing about who they are. -/
theorem Wf.same (h : k.Wf) (hproc : ∀ i, (t.proc i).state = (k.proc i).state ∧
      (t.proc i).pid = (k.proc i).pid ∧ (t.proc i).parent = (k.proc i).parent)
    (hnext : t.nextpid = k.nextpid) (hinit : t.initproc = k.initproc)
    (hwhich : ∀ s, 0 ≤ t.whichPidBlockedIt s ∧
      (t.blockedSyscalls s = true → 0 < t.whichPidBlockedIt s)) : t.Wf where
  init := by
    rw [hinit, (hproc _).1, (hproc _).2.1]
    exact h.init
  pid i := by
    rw [(hproc i).2.1, hnext]
    exact h.pid i
  first i hi := by
    rw [(hproc i).1] at hi
    rw [(hproc i).2.1, hinit]
    exact h.first i hi
  parent i j hi hj := by
    rw [(hproc i).1] at hi
    rw [(hproc i).2.2] at hj
    rw [(hproc j).1, (hproc j).2.1, (hproc i).2.1]
    exact h.parent i j hi hj
  which := hwhich

/-- A slot that is not in use changes. -/
theorem parentPid_of_unused {r : Proc} (h : k.Wf) (hi : (k.proc i).state = .unused)
    (hj : (k.proc j).state ≠ .unused) (hproc : t.proc = update k.proc i r) :
    t.parentPid j = k.parentPid j := by
  have hji : j ≠ i := fun e => hj (e ▸ hi)
  rw [parentPid, parentPid, hproc, update_of_ne hji]
  cases hp : (k.proc j).parent with
  | none => rfl
  | some x =>
    have hx : x ≠ i := fun e => by
      have := (h.parent j x hj hp).1
      rw [e, hi] at this
      cases this
    simp only [update_of_ne hx]

/-- `fork` finds no slot, or fills one in: with a child, or with a new pid only. -/
theorem fork_cases (k : Kernel) (p : Nat) (ok : Bool) :
    k.fork p ok = k ∨ ∃ i r, (k.proc i).state = .unused ∧ r.pid = k.nextpid ∧
    (r.state = .unused ∨ r.state = .live ∧ r.parent = some p ∧ r.toBeBlocked = 0) ∧
    k.fork p ok = { k with nextpid := k.nextpid + 1, proc := update k.proc i r } := by
  rw [Kernel.fork]
  cases hs : (List.range nProc).find? (fun i => (k.proc i).state = .unused) with
  | none => exact .inl rfl
  | some i =>
    have hi : (k.proc i).state = .unused := by simpa using List.find?_some hs
    refine .inr ⟨i, ?_⟩
    cases ok with
    | false => exact ⟨{ k.proc i with pid := k.nextpid }, hi, rfl, .inl hi, rfl⟩
    | true =>
      refine ⟨{ k.proc i with pid := k.nextpid, state := .live, parent := some p, toBeBlocked := 0 },
        hi, rfl, .inr ⟨rfl, rfl, rfl⟩, ?_⟩
      dsimp only
      rw [if_pos rfl]
      simp only [setProc, update_self, update_idem]

theorem Wf.fork (h : k.Wf) (hp : (k.proc p).state = .live) : (k.fork p ok).Wf := by
  rcases fork_cases k p ok with hk | ⟨i, r, hi, hpid, hr, hk⟩
  · rw [hk]
    exact h
  have hne {x : Nat} (hx : (k.proc x).state ≠ .unused) : x ≠ i := fun e => hx (e ▸ hi)
  have hpi : p ≠ i := hne (by rw [hp]; simp)
  have hii : k.initproc ≠ i := hne (by rw [h.init.1]; simp)
  have hgt : 1 < k.nextpid := h.init.2 ▸ h.pid k.initproc
  rw [hk]
  refine ⟨?_, fun x => ?_, fun x hx => ?_, fun x y hx hy => ?_, h.which⟩
  · simp only [update_of_ne hii]
    exact h.init
  · by_cases hxi : x = i
    · subst hxi
      simp only [update_self, hpid]
      omega
    · simp only [update_of_ne hxi]
      have := h.pid x
      omega
  · by_cases hxi : x = i
    · subst hxi
      simp only [update_self, hpid]
      exact ⟨by omega, fun e => by omega⟩
    · simp only [update_of_ne hxi] at hx ⊢
      exact h.first x hx
  · by_cases hxi : x = i
    · subst hxi
      simp only [update_self] at hx hy ⊢
      obtain ⟨-, hpar, -⟩ := hr.resolve_left hx
      obtain rfl : p = y := Option.some.inj (hpar.symm.trans hy)
      rw [update_of_ne hpi, hpid]
      exact ⟨hp, h.pid p⟩
    · simp only [update_of_ne hxi] at hx hy ⊢
      rw [update_of_ne (hne (by rw [(h.parent x y hx hy).1]; simp))]
      exact h.parent x y hx hy

theorem Wf.exit (h : k.Wf) (hp : (k.proc p).state = .live) (hpi : p ≠ k.initproc) :
    (k.exit p).Wf := by
  have hst (x : Nat) : ((k.exit p).proc x).state = if x = p then .zombie else (k.proc x).state := by
    simp only [Kernel.exit]
    split <;> split <;> rfl
  have hpid (x : Nat) : ((k.exit p).proc x).pid = (k.proc x).pid := by
    simp only [Kernel.exit]
    split <;> split <;> rfl
  have hpar (x : Nat) : ((k.exit p).proc x).parent =
      if (k.proc x).parent = some p then some k.initproc else (k.proc x).parent := by
    simp only [Kernel.exit]
    split <;> split <;> rfl
  have hused {x : Nat} (hx : ((k.exit p).proc x).state ≠ .unused) : (k.proc x).state ≠ .unused := by
    rw [hst] at hx
    by_cases hxp : x = p
    · rw [hxp, hp]
      simp
    · rwa [if_neg hxp] at hx
  refine ⟨?_, fun x => ?_, fun x hx => ?_, fun x y hx hy => ?_, h.which⟩
  · show ((k.exit p).proc k.initproc).state = _ ∧ ((k.exit p).proc k.initproc).pid = _
    rw [hst, hpid, if_neg hpi.symm]
    exact h.init
  · rw [hpid]
    exact h.pid x
  · rw [hpid]
    exact h.first x (hused hx)
  · have hx := hused hx
    rw [hpar] at hy
    rw [hst, hpid, hpid]
    by_cases hxp : (k.proc x).parent = some p
    · rw [if_pos hxp] at hy
      obtain rfl : k.initproc = y := Option.some.inj hy
      have hlt := (h.parent x p hx hxp).2
      have hpos := (h.first p (by rw [hp]; simp)).1
      rw [if_neg hpi.symm, h.init.1, h.init.2]
      exact ⟨rfl, by omega⟩
    · rw [if_neg hxp] at hy
      have hyp : y ≠ p := fun e => hxp (e ▸ hy)
      rw [if_neg hyp]
      exact h.parent x y hx hy

theorem Wf.wait (h : k.Wf) : (k.wait p).Wf := by
  rw [Kernel.wait]
  cases hs : (List.range nProc).find?
      (fun i => (k.proc i).parent = some p ∧ (k.proc i).state = .zombie) with
  | none => exact h
  | some i =>
    have hz : (k.proc i).state = .zombie := by
      have := List.find?_some hs
      simp only [decide_eq_true_eq] at this
      exact this.2
    have hne {x : Nat} (hx : (k.proc x).state = .live) : x ≠ i := fun e => by
      rw [e, hz] at hx
      cases hx
    have hi := hne h.init.1
    have hgt : 1 < k.nextpid := h.init.2 ▸ h.pid k.initproc
    have hused {x : Nat} (hx : ((k.setProc i { k.proc i with
        pid := 0, parent := none, killed := false, state := .unused }).proc x).state ≠ .unused) :
        x ≠ i := by
      rintro rfl
      rw [setProc_self] at hx
      exact hx rfl
    refine ⟨?_, fun x => ?_, fun x hx => ?_, fun x y hx hy => ?_, h.which⟩
    · show (update k.proc i _ k.initproc).state = _ ∧ (update k.proc i _ k.initproc).pid = _
      rw [update_of_ne hi]
      exact h.init
    · show ((k.setProc i _).proc x).pid < k.nextpid
      by_cases hx : x = i
      · subst hx
        rw [setProc_self]
        show 0 < k.nextpid
        omega
      · rw [setProc_of_ne hx]
        exact h.pid x
    · have hxi := hused hx
      rw [setProc_of_ne hxi] at hx ⊢
      exact h.first x hx
    · have hxi := hused hx
      rw [setProc_of_ne hxi] at hx hy ⊢
      have hp := h.parent x y hx hy
      rw [setProc_of_ne (hne hp.1)]
      exact hp

/-- `kill` changes nothing about who the processes are. -/
theorem kill_proc (k : Kernel) (pid : Int) (i : Nat) :
    ((k.kill pid).proc i).state = (k.proc i).state ∧
    ((k.kill pid).proc i).pid = (k.proc i).pid ∧ ((k.kill pid).proc i).parent = (k.proc i).parent ∧
    ((k.kill pid).proc i).toBeBlocked = (k.proc i).toBeBlocked := by
  rw [kill]
  dsimp only
  cases (List.range nProc).find? (fun i => (k.proc i).pid = pid) with
  | none => exact ⟨rfl, rfl, rfl, rfl⟩
  | some j =>
    by_cases hij : i = j
    · subst hij
      rw [setProc_self]
      exact ⟨rfl, rfl, rfl, rfl⟩
    · rw [setProc_of_ne hij]
      exact ⟨rfl, rfl, rfl, rfl⟩

theorem kill_tables (k : Kernel) (pid : Int) :
    (k.kill pid).nextpid = k.nextpid ∧ (k.kill pid).initproc = k.initproc ∧
    ∀ s, pid ≠ k.whichPidBlockedIt s ∧
        (k.kill pid).whichPidBlockedIt s = k.whichPidBlockedIt s ∧
        (k.kill pid).blockedSyscalls s = k.blockedSyscalls s ∨
      pid = k.whichPidBlockedIt s ∧ ((k.kill pid).whichPidBlockedIt s = 0 ∧
        (k.kill pid).blockedSyscalls s = false ∨
        (k.kill pid).whichPidBlockedIt s = k.whichPidBlockedIt s ∧
        (k.kill pid).blockedSyscalls s = k.blockedSyscalls s) := by
  have hs (s : Nat) : (k.kill pid).whichPidBlockedIt s = (if s < maxSyscalls ∧
      pid = k.whichPidBlockedIt s then 0 else k.whichPidBlockedIt s) ∧
      (k.kill pid).blockedSyscalls s = (if s < maxSyscalls ∧ pid = k.whichPidBlockedIt s then false
        else k.blockedSyscalls s) := by
    rw [kill]
    dsimp only
    cases (List.range nProc).find? (fun i => (k.proc i).pid = pid) <;> exact ⟨rfl, rfl⟩
  refine ⟨?_, ?_, fun s => ?_⟩
  · rw [kill]
    dsimp only
    cases (List.range nProc).find? (fun i => (k.proc i).pid = pid) <;> rfl
  · rw [kill]
    dsimp only
    cases (List.range nProc).find? (fun i => (k.proc i).pid = pid) <;> rfl
  · rw [(hs s).1, (hs s).2]
    by_cases hp : pid = k.whichPidBlockedIt s
    · by_cases hl : s < maxSyscalls
      · rw [if_pos ⟨hl, hp⟩, if_pos ⟨hl, hp⟩]
        exact .inr ⟨hp, .inl ⟨rfl, rfl⟩⟩
      · rw [if_neg fun h => hl h.1, if_neg fun h => hl h.1]
        exact .inr ⟨hp, .inr ⟨rfl, rfl⟩⟩
    · rw [if_neg fun h => hp h.2, if_neg fun h => hp h.2]
      exact .inl ⟨hp, rfl, rfl⟩

theorem Wf.kill (h : k.Wf) : (k.kill pid).Wf := by
  obtain ⟨hn, hi, hs⟩ := kill_tables k pid
  refine h.same (fun i => have hp := kill_proc k pid i; ⟨hp.1, hp.2.1, hp.2.2.1⟩) hn hi fun s => ?_
  rcases hs s with ⟨-, hw, hb⟩ | ⟨-, ⟨hw, hb⟩ | ⟨hw, hb⟩⟩
  · rw [hw, hb]
    exact h.which s
  · rw [hw, hb]
    exact ⟨Int.le_refl 0, by simp⟩
  · rw [hw, hb]
    exact h.which s

/-- `block_dummy` leaves an entry, or sets it; an older pid in the entry gives way to a smaller one
only. -/
theorem block_tables (id : Int) : (k.blockDummy p id).proc = k.proc ∧
    (k.blockDummy p id).nextpid = k.nextpid ∧ (k.blockDummy p id).initproc = k.initproc ∧
    ∀ s, (k.blockDummy p id).whichPidBlockedIt s = k.whichPidBlockedIt s ∧
        ((k.blockDummy p id).blockedSyscalls s = k.blockedSyscalls s ∨
          (k.blockDummy p id).blockedSyscalls s = true ∧ k.whichPidBlockedIt s ≠ 0) ∨
      (k.whichPidBlockedIt s = 0 ∨ (k.proc p).pid < k.whichPidBlockedIt s) ∧
        (k.blockDummy p id).whichPidBlockedIt s = (k.proc p).pid := by
  rw [blockDummy]
  split
  · exact ⟨rfl, rfl, rfl, fun s => .inl ⟨rfl, .inl rfl⟩⟩
  · refine ⟨rfl, rfl, rfl, fun s => ?_⟩
    by_cases hs : s = id.toNat
    · subst hs
      simp only [update_self]
      by_cases h0 : k.whichPidBlockedIt id.toNat = 0
      · rw [if_pos h0, if_neg (Int.lt_irrefl _)]
        exact .inr ⟨.inl h0, rfl⟩
      · rw [if_neg h0]
        by_cases hlt : (k.proc p).pid < k.whichPidBlockedIt id.toNat
        · rw [if_pos hlt]
          exact .inr ⟨.inr hlt, rfl⟩
        · rw [if_neg hlt]
          exact .inl ⟨rfl, .inr ⟨trivial, h0⟩⟩
    · simp only [update_of_ne hs]
      exact .inl ⟨trivial, .inl trivial⟩

theorem Wf.block (h : k.Wf) (id : Int) (hp : 0 < (k.proc p).pid) : (k.blockDummy p id).Wf := by
  obtain ⟨hproc, hn, hi, hs⟩ := block_tables (k := k) (p := p) id
  refine h.same (fun i => by rw [hproc]; exact ⟨rfl, rfl, rfl⟩) hn hi fun s => ?_
  have hw := h.which s
  rcases hs s with ⟨hs, hb | ⟨hb, hne⟩⟩ | ⟨-, hs⟩
  · rw [hs, hb]
    exact hw
  · rw [hs, hb]
    exact ⟨hw.1, fun _ => by omega⟩
  · rw [hs]
    exact ⟨by omega, fun _ => hp⟩

/-- `unblock_dummy` clears an entry only if its pid is not below the caller's. -/
theorem unblock_tables (id : Int) : (k.unblockDummy p id).proc = k.proc ∧
    (k.unblockDummy p id).nextpid = k.nextpid ∧ (k.unblockDummy p id).initproc = k.initproc ∧
    ∀ s, (k.unblockDummy p id).whichPidBlockedIt s = k.whichPidBlockedIt s ∧
        (k.unblockDummy p id).blockedSyscalls s = k.blockedSyscalls s ∨
      (k.proc p).pid ≤ k.whichPidBlockedIt s ∧
        (k.unblockDummy p id).whichPidBlockedIt s = 0 ∧
        (k.unblockDummy p id).blockedSyscalls s = false := by
  by_cases hbad : id < 0 ∨ maxSyscalls ≤ id
  · rw [unblockDummy, if_pos hbad]
    exact ⟨rfl, rfl, rfl, fun s => .inl ⟨rfl, rfl⟩⟩
  · rw [unblockDummy, if_neg hbad]
    by_cases hle : (k.proc p).pid ≤ k.whichPidBlockedIt id.toNat
    · rw [if_pos hle]
      refine ⟨rfl, rfl, rfl, fun s => ?_⟩
      by_cases hs : s = id.toNat
      · subst hs
        simp only [update_self]
        exact .inr ⟨hle, trivial, trivial⟩
      · simp only [update_of_ne hs]
        exact .inl ⟨trivial, trivial⟩
    · rw [if_neg hle]
      exact ⟨rfl, rfl, rfl, fun s => .inl ⟨rfl, rfl⟩⟩

theorem Wf.unblock (h : k.Wf) (id : Int) : (k.unblockDummy p id).Wf := by
  obtain ⟨hproc, hn, hi, hs⟩ := unblock_tables (k := k) (p := p) id
  refine h.same (fun i => by rw [hproc]; exact ⟨rfl, rfl, rfl⟩) hn hi fun s => ?_
  rcases hs s with ⟨hw, hb⟩ | ⟨-, hw, hb⟩
  · rw [hw, hb]
    exact h.which s
  · rw [hw, hb]
    exact ⟨Int.le_refl 0, by simp⟩

/-- The state in which the system call itself starts. -/
def marked (k : Kernel) (p : Nat) (c : Call) : Kernel :=
  if (k.proc p).toBeBlocked = 0 ∧ c.num = 7 then k.setProc p { k.proc p with toBeBlocked := 1 }
  else k

theorem marked_proc (i : Nat) : ((k.marked p c).proc i).state = (k.proc i).state ∧
    ((k.marked p c).proc i).pid = (k.proc i).pid ∧
    ((k.marked p c).proc i).parent = (k.proc i).parent ∧
    (((k.marked p c).proc i).toBeBlocked = (k.proc i).toBeBlocked ∨
      i = p ∧ ((k.marked p c).proc i).toBeBlocked = 1) := by
  rw [marked]
  split
  · by_cases hi : i = p
    · subst hi
      rw [setProc_self]
      exact ⟨rfl, rfl, rfl, .inr ⟨rfl, rfl⟩⟩
    · rw [setProc_of_ne hi]
      exact ⟨rfl, rfl, rfl, .inl rfl⟩
  · exact ⟨rfl, rfl, rfl, .inl rfl⟩

theorem marked_tables : (k.marked p c).nextpid = k.nextpid ∧
    (k.marked p c).initproc = k.initproc ∧
    (k.marked p c).whichPidBlockedIt = k.whichPidBlockedIt ∧
    (k.marked p c).blockedSyscalls = k.blockedSyscalls := by
  rw [marked]
  split <;> exact ⟨rfl, rfl, rfl, rfl⟩

theorem Wf.marked (h : k.Wf) : (k.marked p c).Wf := by
  obtain ⟨hn, hi, hw, hb⟩ := marked_tables (k := k) (p := p) (c := c)
  refine h.same (fun i => ⟨(marked_proc i).1, (marked_proc i).2.1, (marked_proc i).2.2.1⟩) hn hi
    fun s => ?_
  rw [hw, hb]
  exact h.which s

theorem step_cases (h : k.step (p, c) = some t) : (k.proc p).state = .live ∧
    ¬(p = k.initproc ∧ c = .exit) ∧
    (k.Refused p c.num ∧ t = k ∨ ¬k.Refused p c.num ∧ t = (k.marked p c).perform p c) := by
  rw [step] at h
  split at h
  · rename_i hc
    refine ⟨hc.2.1, hc.2.2.2, ?_⟩
    obtain rfl := Option.some.inj h
    rw [syscall]
    by_cases hr : k.Refused p c.num
    · exact .inl ⟨hr, if_pos hr⟩
    · exact .inr ⟨hr, if_neg hr⟩
  · cases h

theorem Wf.perform (h : k.Wf) (hp : (k.proc p).state = .live) (hno : ¬(p = k.initproc ∧ c = .exit)) :
    (k.perform p c).Wf := by
  have hpos := (h.first p (by rw [hp]; simp)).1
  cases c with
  | fork ok => exact h.fork hp
  | exit => exact h.exit hp fun e => hno ⟨e, rfl⟩
  | wait => exact h.wait
  | exec => exact h
  | kill pid =>
    cases pid with
    | none => exact h
    | some pid => exact h.kill
  | block id =>
    cases id with
    | none => exact h
    | some id => exact h.block id hpos
  | unblock id =>
    cases id with
    | none => exact h
    | some id => exact h.unblock id

theorem Wf.step (h : k.Wf) (ht : k.step (p, c) = some t) : t.Wf := by
  obtain ⟨hp, hno, ⟨-, rfl⟩ | ⟨-, rfl⟩⟩ := step_cases ht
  · exact h
  · refine h.marked.perform ((marked_proc p).1.trans hp) ?_
    rw [marked_tables.2.1]
    exact hno

theorem Wf.reachable (h : Run.Reaches Kernel.step boot k) : k.Wf :=
  h.invariant (fun _ _ _ hk hs => hk.step hs) wf_boot

/-! ### Refusals that last -/

/-- The process `q` with pid `m`, or one forked when the next pid was `n` or more. -/
def Member (m n : Int) (q : Nat) (k : Kernel) (i : Nat) : Prop :=
  i = q ∧ (k.proc i).pid = m ∨ n ≤ (k.proc i).pid

/-- Refused what `w` has blocked. -/
def Barred (w : Int) (k : Kernel) (i : Nat) : Prop :=
  (k.proc i).toBeBlocked = 1 ∧ w < (k.proc i).pid ∨ (k.proc i).toBeBlocked = 0 ∧ w < k.parentPid i

structure Confined (m n w : Int) (q s : Nat) (k : Kernel) : Prop where
  wf : k.Wf
  blocked : k.blockedSyscalls s = true
  which : k.whichPidBlockedIt s = w
  next : n ≤ k.nextpid
  member : ∀ i, (k.proc i).state = .live → Member m n q k i → Barred w k i

/-- Nobody kills the process that blocked `s`, and nobody exits while a child of the family that has
not called `exec` is alive. -/
def Keeps (n : Int) (s : Nat) (k : Kernel) (e : Nat × Call) : Prop :=
  (∀ pid, e.2 = .kill (some pid) → ¬k.Refused e.1 6 → pid ≠ k.whichPidBlockedIt s) ∧
  (e.2 = .exit → ∀ i, (k.proc i).state = .live → n ≤ (k.proc i).pid →
    (k.proc i).parent = some e.1 → (k.proc i).toBeBlocked ≠ 0)

variable {m : Int}

/-- The pid of the process that blocked is smaller. -/
theorem Barred.lt (h : k.Wf) (hw : 0 < w) (hp : (k.proc p).state = .live) (hb : Barred w k p) :
    w < (k.proc p).pid := by
  rcases hb with ⟨-, hlt⟩ | ⟨-, hlt⟩
  · exact hlt
  · rw [parentPid] at hlt
    cases hpar : (k.proc p).parent with
    | none =>
      rw [hpar] at hlt
      dsimp only at hlt
      omega
    | some j =>
      rw [hpar] at hlt
      have := (h.parent p j (by rw [hp]; simp) hpar).2
      dsimp only at hlt
      omega

theorem Confined.pos (h : Confined m n w q s k) : 0 < w := h.which ▸ (h.wf.which s).2 h.blocked

theorem parentPid_same (hpar : (t.proc i).parent = (k.proc i).parent)
    (hpid : ∀ j, (t.proc j).pid = (k.proc j).pid) : t.parentPid i = k.parentPid i := by
  rw [parentPid, parentPid, hpar]
  cases (k.proc i).parent with
  | none => rfl
  | some j => exact hpid j

/-- Operations that leave the processes and the entry for `s` as they are, but for the flag of the
caller that `exec` sets. -/
theorem Confined.same (h : Confined m n w q s k) (ht : t.Wf) (hp : (k.proc p).state = .live)
    (hm : Member m n q k p) (hproc : ∀ i, (t.proc i).state = (k.proc i).state ∧
      (t.proc i).pid = (k.proc i).pid ∧ (t.proc i).parent = (k.proc i).parent ∧
      ((t.proc i).toBeBlocked = (k.proc i).toBeBlocked ∨ i = p ∧ (t.proc i).toBeBlocked = 1))
    (hb : t.blockedSyscalls s = true) (hw : t.whichPidBlockedIt s = w)
    (hn : t.nextpid = k.nextpid) : Confined m n w q s t where
  wf := ht
  blocked := hb
  which := hw
  next := hn ▸ h.next
  member i hi hmem := by
    obtain ⟨hst, hpid, hpar, htbb⟩ := hproc i
    have hi : (k.proc i).state = .live := hst ▸ hi
    have hmem : Member m n q k i := by
      rw [Member, hpid] at hmem
      exact hmem
    have hbar := h.member i hi hmem
    rcases htbb with htbb | ⟨rfl, htbb⟩
    · rw [Barred, htbb, hpid, parentPid_same hpar fun j => (hproc j).2.1]
      exact hbar
    · exact .inl ⟨htbb, by rw [hpid]; exact hbar.lt h.wf h.pos hp⟩

theorem Confined.fork (h : Confined m n w q s k) (hp : (k.proc p).state = .live)
    (hmp : Member m n q k p) : Confined m n w q s (k.fork p ok) := by
  have hwf : (k.fork p ok).Wf := h.wf.fork hp
  rcases fork_cases k p ok with hk | ⟨i, r, hi, hpid, hr, hk⟩
  · rw [hk]
    exact h
  rw [hk] at hwf ⊢
  have hne {x : Nat} (hx : (k.proc x).state ≠ .unused) : x ≠ i := fun e => hx (e ▸ hi)
  have hpi : p ≠ i := hne (by rw [hp]; simp)
  refine ⟨hwf, h.blocked, h.which, by have := h.next; dsimp only; omega, fun x hx hmem => ?_⟩
  by_cases hxi : x = i
  · subst hxi
    simp only [update_self] at hx
    obtain ⟨-, hpar, htbb⟩ := hr.resolve_left (by rw [hx]; simp)
    refine .inr ⟨by simp only [update_self]; exact htbb, ?_⟩
    have hpp : Kernel.parentPid { k with nextpid := k.nextpid + 1, proc := update k.proc x r } x =
        (k.proc p).pid := by
      simp only [parentPid, update_self, hpar, update_of_ne hpi]
    rw [hpp]
    exact (h.member p hp hmp).lt h.wf h.pos hp
  · have hx' : (k.proc x).state = .live := by simpa only [update_of_ne hxi] using hx
    have hmem' : Member m n q k x := by simpa only [Member, update_of_ne hxi] using hmem
    have hpp := parentPid_of_unused (j := x) h.wf hi (by rw [hx']; simp)
      (t := { k with nextpid := k.nextpid + 1, proc := update k.proc i r }) (r := r) rfl
    rw [Barred, hpp]
    simpa only [Barred, update_of_ne hxi] using h.member x hx' hmem'

theorem Confined.exit (h : Confined m n w q s k) (hp : (k.proc p).state = .live)
    (hpi : p ≠ k.initproc) (hm : Member m n q k p)
    (hok : ∀ i, (k.proc i).state = .live → n ≤ (k.proc i).pid → (k.proc i).parent = some p →
      (k.proc i).toBeBlocked ≠ 0) : Confined m n w q s (k.exit p) := by
  refine ⟨h.wf.exit hp hpi, h.blocked, h.which, h.next, fun x hx hmem => ?_⟩
  have hxp : x ≠ p := by
    rintro rfl
    simp only [Kernel.exit, if_true] at hx
    cases hx
  have hproc : (k.exit p).proc x = if (k.proc x).parent = some p then
      { k.proc x with parent := some k.initproc } else k.proc x := by
    simp only [Kernel.exit, if_neg hxp]
  have hpid (j : Nat) : ((k.exit p).proc j).pid = (k.proc j).pid := by
    simp only [Kernel.exit]
    split <;> split <;> rfl
  have hmem : Member m n q k x := by
    rw [Member, hpid] at hmem
    exact hmem
  by_cases hpar : (k.proc x).parent = some p
  · rw [if_pos hpar] at hproc
    have hx' : (k.proc x).state = .live := by
      rw [hproc] at hx
      exact hx
    have hlt := (h.wf.parent x p (by rw [hx']; simp) hpar).2
    -- the pid of a member with a parent in the family is `n` or more
    have hge : n ≤ (k.proc x).pid := by
      rcases hmem with ⟨rfl, hx⟩ | hx
      · rcases hm with ⟨rfl, -⟩ | hm
        · exact absurd rfl hxp
        · omega
      · exact hx
    rcases h.member x hx' hmem with ⟨htbb, hlt⟩ | ⟨htbb, -⟩
    · refine .inl ⟨?_, by rw [hpid]; exact hlt⟩
      rw [hproc]
      exact htbb
    · exact absurd htbb (hok x hx' hge hpar)
  · rw [if_neg hpar] at hproc
    rw [hproc] at hx
    have hbar := h.member x hx hmem
    rw [Barred, hproc, parentPid_same (by rw [hproc]) hpid]
    exact hbar

theorem Confined.wait (h : Confined m n w q s k) : Confined m n w q s (k.wait p) := by
  have hwf := h.wf.wait (p := p)
  rw [Kernel.wait] at hwf ⊢
  cases hs : (List.range nProc).find?
      (fun i => (k.proc i).parent = some p ∧ (k.proc i).state = .zombie) with
  | none => exact h
  | some i =>
    rw [hs] at hwf
    have hz : (k.proc i).state = .zombie := by
      have := List.find?_some hs
      simp only [decide_eq_true_eq] at this
      exact this.2
    refine ⟨hwf, h.blocked, h.which, h.next, fun x hx hmem => ?_⟩
    have hxi : x ≠ i := by
      rintro rfl
      rw [setProc_self] at hx
      cases hx
    rw [setProc_of_ne hxi] at hx
    rw [Member, setProc_of_ne hxi] at hmem
    have hbar := h.member x hx hmem
    rw [Barred, setProc_of_ne hxi]
    have hpp : (k.setProc i { k.proc i with
        pid := 0, parent := none, killed := false, state := .unused }).parentPid x =
        k.parentPid x := by
      rw [parentPid, parentPid, setProc_of_ne hxi]
      cases hpar : (k.proc x).parent with
      | none => rfl
      | some j =>
        have hj : j ≠ i := by
          rintro rfl
          have := (h.wf.parent x j (by rw [hx]; simp) hpar).1
          rw [hz] at this
          cases this
        dsimp only
        rw [setProc_of_ne hj]
    rw [hpp]
    exact hbar

theorem Confined.perform (h : Confined m n w q s k) (hp : (k.proc p).state = .live)
    (hno : ¬(p = k.initproc ∧ c = .exit)) (hm : Member m n q k p)
    (hkill : ∀ pid, c = .kill (some pid) → pid ≠ w)
    (hexit : c = .exit → ∀ i, (k.proc i).state = .live → n ≤ (k.proc i).pid →
      (k.proc i).parent = some p → (k.proc i).toBeBlocked ≠ 0) :
    Confined m n w q s (k.perform p c) := by
  have hwf := h.wf.perform hp hno
  have hlt := (h.member p hp hm).lt h.wf h.pos hp
  cases c with
  | fork ok => exact h.fork hp hm
  | exit => exact h.exit hp (fun e => hno ⟨e, rfl⟩) hm (hexit rfl)
  | wait => exact h.wait
  | exec => exact h
  | kill pid =>
    cases pid with
    | none => exact h
    | some pid =>
      obtain ⟨hn, -, hs⟩ := kill_tables k pid
      rcases hs s with ⟨-, hw, hb⟩ | ⟨he, -⟩
      · refine h.same hwf hp hm (fun i => ?_) (hb.trans h.blocked) (hw.trans h.which) hn
        obtain ⟨h₁, h₂, h₃, h₄⟩ := kill_proc k pid i
        exact ⟨h₁, h₂, h₃, .inl h₄⟩
      · exact absurd (he.trans h.which) (hkill pid rfl)
  | block id =>
    cases id with
    | none => exact h
    | some id =>
      obtain ⟨hproc, hn, -, hs⟩ := block_tables (k := k) (p := p) id
      have hpos := h.pos
      have hsame (i : Nat) : ((k.blockDummy p id).proc i) = k.proc i := by rw [hproc]
      rcases hs s with ⟨hw, hb⟩ | ⟨hbad, -⟩
      · refine h.same hwf hp hm (fun i => ?_) ?_ (hw.trans h.which) hn
        · rw [show (k.perform p (.block (some id))).proc i = k.proc i from hsame i]
          exact ⟨rfl, rfl, rfl, .inl rfl⟩
        · rcases hb with hb | ⟨hb, -⟩
          · exact hb.trans h.blocked
          · exact hb
      · rw [h.which] at hbad
        omega
  | unblock id =>
    cases id with
    | none => exact h
    | some id =>
      obtain ⟨hproc, hn, -, hs⟩ := unblock_tables (k := k) (p := p) id
      rcases hs s with ⟨hw, hb⟩ | ⟨hle, -⟩
      · refine h.same hwf hp hm (fun i => ?_) (hb.trans h.blocked) (hw.trans h.which) hn
        rw [show (k.perform p (.unblock (some id))).proc i = k.proc i from congrFun hproc i]
        exact ⟨rfl, rfl, rfl, .inl rfl⟩
      · rw [h.which] at hle
        omega

theorem Confined.step (h : Confined m n w q s k) (hm : Member m n q k p)
    (hok : Keeps n s k (p, c)) (ht : k.step (p, c) = some t) : Confined m n w q s t := by
  obtain ⟨hp, hno, ⟨-, rfl⟩ | ⟨hr, rfl⟩⟩ := step_cases ht
  · exact h
  obtain ⟨hn, hi, hw, hb⟩ := marked_tables (k := k) (p := p) (c := c)
  have hproc (i : Nat) := marked_proc (k := k) (p := p) (c := c) i
  have h' : Confined m n w q s (k.marked p c) :=
    h.same h.wf.marked hp hm hproc (by rw [hb]; exact h.blocked) (by rw [hw]; exact h.which) hn
  refine h'.perform ((hproc p).1.trans hp) (by rw [hi]; exact hno) ?_ (fun pid hc => ?_)
    fun hc i hst hge hpar => ?_
  · rw [Member, (hproc p).2.1]
    exact hm
  · subst hc
    have := hok.1 pid rfl hr
    rwa [h.which] at this
  · rw [(hproc i).1] at hst
    rw [(hproc i).2.1] at hge
    rw [(hproc i).2.2.1] at hpar
    have := hok.2 hc i hst hge hpar
    rcases (hproc i).2.2.2 with he | ⟨-, he⟩
    · rw [he]
      exact this
    · rw [he]
      simp

end Kernel

end Xv6.Block
