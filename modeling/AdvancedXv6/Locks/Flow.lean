import AdvancedXv6.Locks.State
import Mathlib.Data.Finset.Card

/-! What the code of a thread does with the locks, read off the code alone: the locks that are held at
each of its points, and what it may do there. -/

namespace Xv6.Locks

/-- What a process has set its state to, before it calls `sched`. -/
inductive Parked
  | standing
  | asleep (ch : Chan)
  | zombie
  deriving DecidableEq

structure Flow where
  /-- a process, not the scheduler of a CPU -/
  proc : Bool
  /-- calls of `pushcli` to undo, the ones for the locks held apart -/
  extra : Nat
  held : Finset Lock
  /-- the locks whose `cpu` is set -/
  named : Finset Lock
  parked : Option Parked
  /-- the sleep locks that the code counts on -/
  owns : Finset Nat
  /-- the slots that `allocproc` has found -/
  kids : Finset Slot
  /-- a sleep lock that was found free -/
  free : Option Nat
  /-- a sleep lock that was let go, with its `wakeup` to come -/
  owes : Option Nat
  /-- a sleep lock that was found taken, before the process sleeps -/
  bound : Option Nat

/-- The sleep lock that a process sleeps for. -/
def Chan.lock? : Chan → Option Nat
  | .sleeplock i => some i
  | _ => none

namespace Flow

def depth (a : Flow) : Nat := a.held.card + a.extra

/-- Nothing is under way but that the locks of `S` are held. -/
def holds (a : Flow) (S : Finset Lock) : Flow :=
  { a with extra := 0, held := S, named := S, parked := none, free := none, owes := none, bound := none }

/-- Nothing is under way but that the locks of `S` are held, and that the sleep lock `b` was found taken. -/
def Ends (a : Flow) (S : Finset Lock) (b : Option Nat) : Prop :=
  a.extra = 0 ∧ a.held = S ∧ a.named = S ∧ a.free = none ∧ a.owes = none ∧ a.bound = b

def Only (a : Flow) (S : Finset Lock) : Prop := a.Ends S none

def push (a : Flow) (l : Lock) : Flow := { a with held := insert l a.held, named := insert l a.named }

def pop (a : Flow) (l : Lock) : Flow := { a with held := a.held.erase l, named := a.named.erase l }

end Flow

/-- The second lock may be taken by a thread that holds the first. -/
def Lock.Below : Lock → Lock → Prop
  | .ptable, .kmem | .ptable, .cons => True
  | .ptable, _ | .kmem, _ => False
  | _, .ptable => True
  | _, _ => False

/-- What an instruction asks for; `sched` alone may follow what sets the state of the process. -/
def Instr.guard : Instr → Flow → Prop
  | .popcli, a => 0 < a.extra
  | .sti, a | .forever, a => a.Only ∅ ∧ a.proc = false
  | .checkFree l, a => l ∉ a.held
  | .xchg l, a => 0 < a.extra ∧ l ∉ a.held ∧ ∀ k ∈ a.held, k.Below l
  | .setCpu l, a | .clearCpu l, a => l ∈ a.held
  | .checkHeld l, a => l ∈ a.named
  | .clear l, a => l ∈ a.held ∧ l ∉ a.named ∧
    (∀ i, l = .lk i → a.free ≠ some i ∧ a.owes ≠ some i ∧ (a.bound = some i → .ptable ∈ a.held)) ∧
    (l = .ptable → a.bound = none)
  | .await i, a | .readHeld i, a => a.Only {.lk i} ∧ a.proc = true
  | .take i, a => .lk i ∈ a.held ∧ a.free = some i ∧ a.proc = true
  | .drop i, a => .lk i ∈ a.held ∧ i ∈ a.owns ∧ a.owes = none ∧ a.free = none
  | .wakeup1 _, a => .ptable ∈ a.held ∧ a.bound = none
  | .killLoop _, a | .restore _, a => .ptable ∈ a.held
  | .stand, a | .leave, a | .alloc _, a | .scan, a => a.Only {.ptable} ∧ a.proc = true
  | .doze ch, a => a.Ends {.ptable} ch.lock? ∧ a.proc = true
  | .tidy, a => .ptable ∈ a.held ∧ a.proc = true
  | .ready r, a => r ∈ a.kids ∧ .ptable ∈ a.held
  | .abandon r, a => r ∈ a.kids
  | .freeing, a => a.Only {.ptable}
  | .tryRun _, a => a.Only {.ptable} ∧ a.proc = false
  | .checkInit, a | .exitIfKilled, a | .busy, a => a.Only ∅ ∧ a.proc = true
  | .yieldIfRunning, a | .trapret, a | .iret, a | .notHeld, a => a.Only ∅
  | .zombieExit, _ => False
  | .pushcli, _ | .sched, _ => True

def Instr.allowed (i : Instr) (a : Flow) : Prop := (a.parked ≠ none ↔ i = .sched) ∧ i.guard a

def Instr.next : Instr → Flow → Flow
  | .pushcli, a => { a with extra := a.extra + 1 }
  | .popcli, a => { a with extra := a.extra - 1 }
  | .xchg l, a => { a with extra := a.extra - 1, held := insert l a.held }
  | .setCpu l, a => { a with named := insert l a.named }
  | .clearCpu l, a => { a with named := a.named.erase l }
  | .clear l, a => { a with extra := a.extra + 1, held := a.held.erase l }
  | .await i, a => { a with free := some i }
  | .take i, a => { a with free := none, owns := insert i a.owns }
  | .readHeld i, a => { a with owns := insert i a.owns }
  | .drop i, a => { a with owns := a.owns.erase i, owes := some i }
  | .wakeup1 ch, a => { a with owes := if a.owes = ch.lock? then none else a.owes }
  | .stand, a => { a with parked := some .standing }
  | .doze ch, a => { a with parked := some (.asleep ch), bound := none }
  | .leave, a => { a with parked := some .zombie, owns := ∅, kids := ∅ }
  | .sched, a => { a with parked := none }
  | .alloc _, a | .scan, a => a.holds ∅
  | .ready r, a | .abandon r, a => { a with kids := a.kids.erase r }
  | _, a => a

-- the equations of `Instr.next` are made here, once for all proofs
section
attribute [local simp] Instr.next
end

/-- The code after the instruction is never come to. -/
def Instr.last : Instr → Flow → Prop
  | .sched, a => a.parked = some .zombie
  | .notHeld, _ => True
  | _, _ => False

/-- The code keeps to the rules when it is begun at `a`, and ends with nothing under way. -/
def Flows : Code → Flow → Prop
  | [], a => a.parked = none ∧ a.Only ∅
  | i :: code, a => i.allowed a ∧ (i.last a ∨ Flows code (i.next a))

section
variable {a b : Flow} {S : Finset Lock} {l : Lock} {i : Nat} {ch : Chan} {code : Code} {x : Instr}

theorem Flow.holds_pop (hl : l ∉ S) : (a.holds (insert l S)).pop l = a.holds S := by
  unfold pop
  simp [Flow.holds, Finset.erase_insert hl]

theorem Flows.cons (hp : a.parked = none) (hx : x ≠ .sched) (hg : x.guard a) (h : Flows code (x.next a)) :
    Flows (x :: code) a :=
  ⟨⟨iff_of_false (not_not_intro hp) hx, hg⟩, .inr h⟩

/-! ### The routines -/

theorem Flows.acquire (hp : a.parked = none) (hl : l ∉ a.held) (hb : ∀ k ∈ a.held, k.Below l)
    (h : Flows code (a.push l)) : Flows (acquire l ++ code) a := by
  refine Flows.cons hp Instr.noConfusion trivial ?_
  refine Flows.cons hp Instr.noConfusion hl ?_
  refine Flows.cons hp Instr.noConfusion ⟨a.extra.succ_pos, hl, hb⟩ ?_
  exact Flows.cons hp Instr.noConfusion (Finset.mem_insert_self l a.held) h

theorem Flows.release (hp : a.parked = none) (hh : l ∈ a.held) (hn : l ∈ a.named)
    (hi : ∀ i, l = .lk i → a.free ≠ some i ∧ a.owes ≠ some i ∧ (a.bound = some i → .ptable ∈ a.held))
    (hb : l = .ptable → a.bound = none) (h : Flows code (a.pop l)) : Flows (release l ++ code) a := by
  refine Flows.cons hp Instr.noConfusion hn ?_
  refine Flows.cons hp Instr.noConfusion hh ?_
  refine Flows.cons hp Instr.noConfusion ⟨hh, Finset.notMem_erase l a.named, hi, hb⟩ ?_
  exact Flows.cons hp Instr.noConfusion a.extra.succ_pos h

theorem Flows.take (hl : l ∉ S) (hb : ∀ k ∈ S, k.Below l) (h : Flows code (a.holds (insert l S))) :
    Flows (Locks.acquire l ++ code) (a.holds S) :=
  .acquire rfl hl hb h

theorem Flows.give (hl : l ∉ S) (h : Flows code (a.holds S)) : Flows (Locks.release l ++ code) (a.holds (insert l S)) := by
  apply Flows.release rfl (Finset.mem_insert_self ..) (Finset.mem_insert_self ..)
  · exact fun i _ => ⟨(Option.some_ne_none i).symm, (Option.some_ne_none i).symm,
      fun h => absurd h (Option.some_ne_none i).symm⟩
  · exact fun _ => rfl
  · rwa [Flow.holds_pop hl]

theorem Flows.first (h : Flows code (a.holds {l})) : Flows (Locks.acquire l ++ code) (a.holds ∅) :=
  .take (Finset.notMem_empty l) (fun k hk => absurd hk (Finset.notMem_empty k)) h

theorem Flows.lastOne (h : Flows code (a.holds ∅)) : Flows (Locks.release l ++ code) (a.holds {l}) :=
  .give (Finset.notMem_empty l) h

theorem Flow.Only.eq (hp : a.parked = none) (h : a.Only S) : a = a.holds S := by
  obtain ⟨hextra, hheld, hnamed, hfree, howes, hbound⟩ := h
  cases a
  dsimp only at *
  subst hextra hheld hnamed hfree howes hbound hp
  rfl

theorem Flow.only_holds : (a.holds S).Only S := ⟨rfl, rfl, rfl, rfl, rfl, rfl⟩

/-- The code may count on more slots, and on fewer sleep locks as long as it lets none of the others go. -/
theorem Flows.frame {o : Finset Nat} {k : Finset Slot} (h : Flows code a) (hk : a.kids ⊆ k)
    (ho : ∀ i ∈ a.owns, .drop i ∈ code → i ∈ o) : Flows code { a with owns := o, kids := k } := by
  induction code generalizing a o k with
  | nil => exact h
  | cons x code ih =>
    obtain ⟨hallowed, hrest⟩ := h
    have hrest : x.last a ∨ ∀ {u v}, (x.next a).kids ⊆ v → (∀ i ∈ (x.next a).owns, .drop i ∈ code → i ∈ u) →
        Flows code { x.next a with owns := u, kids := v } :=
      hrest.imp id fun h _ _ hk ho => ih h hk ho
    have hlater : ∀ i ∈ a.owns, Instr.drop i ∈ code → i ∈ o := fun i hi hd => ho i hi (List.mem_cons_of_mem _ hd)
    cases x with
    | take j | readHeld j =>
      refine ⟨hallowed, hrest.imp id fun h => h (u := insert j o) hk fun i hi hd => ?_⟩
      rw [Instr.next, Finset.mem_insert] at hi
      exact Finset.mem_insert.mpr (hi.imp id fun hi => hlater i hi hd)
    | drop j =>
      obtain ⟨hpark, hheld, hown, howes⟩ := hallowed
      refine ⟨⟨hpark, hheld, ho j hown (List.mem_cons_self ..), howes⟩,
        hrest.imp id fun h => h (u := o.erase j) hk fun i hi hd => ?_⟩
      rw [Instr.next, Finset.mem_erase] at hi
      exact Finset.mem_erase.mpr ⟨hi.1, hlater i hi.2 hd⟩
    | leave =>
      refine ⟨hallowed, hrest.imp id fun h => ?_⟩
      exact h (u := ∅) (v := ∅) (Finset.empty_subset _) fun i hi _ => absurd hi (Finset.notMem_empty i)
    | ready r =>
      obtain ⟨hpark, hkid, hheld⟩ := hallowed
      refine ⟨⟨hpark, hk hkid, hheld⟩, hrest.imp id fun h => ?_⟩
      exact h (v := k.erase r) (Finset.erase_subset_erase r hk) hlater
    | abandon r =>
      obtain ⟨hpark, hkid⟩ := hallowed
      refine ⟨⟨hpark, hk hkid⟩, hrest.imp id fun h => ?_⟩
      exact h (v := k.erase r) (Finset.erase_subset_erase r hk) hlater
    | _ => exact ⟨hallowed, hrest.imp id fun h => h hk hlater⟩

/-! ### The routines that sleep and wake -/

section Under
variable (hl : l ≠ .ptable) (hb : l.Below .ptable)
include hl

theorem Flow.ptable_notMem : Lock.ptable ∉ ({l} : Finset Lock) := fun h => hl (Finset.mem_singleton.mp h).symm

theorem Flow.erase_lower : ({.ptable, l} : Finset Lock).erase l = {.ptable} := by
  rw [Finset.erase_insert_of_ne hl.symm, Finset.erase_singleton]
  rfl

include hb

theorem Flows.takeTable (hheld : a.held = {l}) (hp : a.parked = none) (h : Flows code (a.push .ptable)) :
    Flows (Locks.acquire .ptable ++ code) a := by
  apply Flows.acquire hp _ _ h
  · rw [hheld]
    exact Flow.ptable_notMem hl
  · intro k hk
    rw [hheld] at hk
    rwa [Finset.mem_singleton.mp hk]

/-- `wakeup` by a thread that holds one lock, and that may owe it. -/
theorem Flows.wakeup (hheld : a.held = {l}) (hnamed : a.named = {l}) (hp : a.parked = none)
    (hbound : a.bound = none) (h : Flows code ((Instr.wakeup1 ch).next a)) : Flows (Locks.wakeup ch ++ code) a := by
  rw [Locks.wakeup, List.append_assoc]
  apply Flows.takeTable hl hb hheld hp
  refine Flows.cons hp Instr.noConfusion ⟨Finset.mem_insert_self .., hbound⟩ ?_
  refine Flows.release (l := .ptable) hp (Finset.mem_insert_self ..) (Finset.mem_insert_self ..) ?_ ?_ ?_
  · exact fun i h => Lock.noConfusion h
  · exact fun _ => hbound
  · convert h using 1
    simp [Flow.pop, Flow.push, Instr.next, hheld, hnamed, Flow.ptable_notMem hl]

theorem Flows.wakes (h : Flows code (a.holds {l})) : Flows (Locks.wakeup ch ++ code) (a.holds {l}) := by
  apply Flows.wakeup hl hb rfl rfl rfl rfl
  cases ch <;> exact h

/-- `sleep` by a thread that holds one lock; the sleep lock that it sleeps for, if any, was found taken. -/
theorem Flows.sleep (hproc : a.proc = true) (ha : a.Ends {l} ch.lock?) (hp : a.parked = none)
    (h : Flows code (a.holds {l})) : Flows (Locks.sleep ch l ++ code) a := by
  obtain ⟨hextra, hheld, hnamed, hfree, howes, hbound⟩ := ha
  simp only [Locks.sleep, List.append_assoc]
  apply Flows.takeTable hl hb hheld hp
  apply Flows.release (a := a.push .ptable) hp
  · simp [Flow.push, hheld]
  · simp [Flow.push, hnamed]
  · intro i _
    simp [Flow.push, hfree, howes]
  · exact fun h => absurd h hl
  have hpop : (a.push .ptable).pop l = { a.holds {.ptable} with bound := ch.lock? } := by
    simp [Flow.push, Flow.pop, Flow.holds, hheld, hnamed, hextra, hp, hfree, howes, hbound, Flow.erase_lower hl]
  rw [hpop]
  refine Flows.cons rfl Instr.noConfusion ⟨⟨rfl, rfl, rfl, rfl, rfl, rfl⟩, hproc⟩ ?_
  refine ⟨⟨iff_of_true (Option.some_ne_none _) rfl, trivial⟩, .inr ?_⟩
  refine Flows.cons rfl Instr.noConfusion ⟨Finset.mem_singleton_self _, hproc⟩ ?_
  apply Flows.lastOne (a := a) (l := .ptable)
  exact Flows.first h

theorem Flows.sleeps (hproc : a.proc = true) (hch : ch.lock? = none) (h : Flows code (a.holds {l})) :
    Flows (Locks.sleep ch l ++ code) (a.holds {l}) :=
  .sleep hl hb hproc ⟨rfl, rfl, rfl, rfl, rfl, hch.symm⟩ rfl h

end Under

theorem Flows.yield (hproc : a.proc = true) (h : Flows code (a.holds ∅)) :
    Flows (Locks.yield ++ code) (a.holds ∅) := by
  simp only [Locks.yield, List.append_assoc]
  apply Flows.first
  refine Flows.cons rfl Instr.noConfusion ⟨Flow.only_holds, hproc⟩ ?_
  refine ⟨⟨iff_of_true (Option.some_ne_none _) rfl, trivial⟩, .inr ?_⟩
  exact Flows.lastOne h

theorem Flows.repeats {n : Nat} {body : Code} (hbody : ∀ {code}, Flows code a → Flows (body ++ code) a)
    (h : Flows code a) : Flows (Locks.repeats n body ++ code) a := by
  induction n with
  | zero => exact h
  | succ n ih =>
    rw [Locks.repeats, List.replicate_succ, List.flatten_cons, List.append_assoc]
    exact hbody ih

theorem Flows.critical (hl : l ∉ S) (hb : ∀ k ∈ S, k.Below l) (h : Flows code (a.holds S)) :
    Flows (Locks.critical l ++ code) (a.holds S) := by
  rw [Locks.critical, List.append_assoc]
  exact .take hl hb (.give hl h)

theorem Flows.alone (h : Flows code (a.holds ∅)) : Flows (Locks.critical l ++ code) (a.holds ∅) :=
  .critical (Finset.notMem_empty l) (fun k hk => absurd hk (Finset.notMem_empty k)) h

/-! ### Sleep locks -/

theorem Flows.acquiresleep (hproc : a.proc = true) (h : Flows code { a.holds ∅ with owns := insert i a.owns }) :
    Flows (Locks.acquiresleep i ++ code) (a.holds ∅) := by
  simp only [Locks.acquiresleep, List.append_assoc]
  apply Flows.first
  refine Flows.cons rfl Instr.noConfusion ⟨Flow.only_holds, hproc⟩ ?_
  refine Flows.cons rfl Instr.noConfusion ⟨Finset.mem_singleton_self _, rfl, hproc⟩ ?_
  exact Flows.lastOne (a := { a with owns := insert i a.owns }) h

theorem Flows.holdingsleep (hproc : a.proc = true) (h : Flows code { a.holds ∅ with owns := insert i a.owns }) :
    Flows (Locks.holdingsleep i ++ code) (a.holds ∅) := by
  rw [Locks.holdingsleep, List.append_assoc]
  apply Flows.first
  refine Flows.cons rfl Instr.noConfusion ⟨Flow.only_holds, hproc⟩ ?_
  exact Flows.lastOne (a := { a with owns := insert i a.owns }) h

theorem Flows.releasesleep (hown : i ∈ a.owns) (h : Flows code { a.holds ∅ with owns := a.owns.erase i }) :
    Flows (Locks.releasesleep i ++ code) (a.holds ∅) := by
  simp only [Locks.releasesleep, List.append_assoc]
  apply Flows.first
  refine Flows.cons rfl Instr.noConfusion ⟨Finset.mem_singleton_self _, hown, rfl, rfl⟩ ?_
  apply Flows.wakeup (l := .lk i) Lock.noConfusion trivial rfl rfl rfl rfl
  have hpaid : (Instr.wakeup1 (.sleeplock i)).next ((Instr.drop i).next (a.holds {Lock.lk i})) =
      { a with owns := a.owns.erase i }.holds {Lock.lk i} := by
    simp [Instr.next, Flow.holds, Chan.lock?]
  rw [hpaid]
  exact Flows.lastOne (a := { a with owns := a.owns.erase i }) h

theorem Flows.exit (hproc : a.proc = true) : Flows (Locks.exit ++ code) (a.holds ∅) := by
  simp only [Locks.exit, List.append_assoc]
  refine Flows.cons rfl Instr.noConfusion ⟨Flow.only_holds, hproc⟩ ?_
  refine Flows.cons rfl Instr.noConfusion ⟨Flow.only_holds, hproc⟩ ?_
  apply Flows.first
  refine Flows.cons rfl Instr.noConfusion ⟨Flow.only_holds, hproc⟩ ?_
  exact ⟨⟨iff_of_true (Option.some_ne_none _) rfl, trivial⟩, .inl rfl⟩

/-! ### What the kernel calls -/

section Routines
variable (hproc : a.proc = true) (h : Flows code (a.holds ∅))
include h

/-- The code may count on more sleep locks. -/
theorem Flows.gains (o : Finset Nat) (ho : a.owns ⊆ o) : Flows code ({ a with owns := o }.holds ∅) :=
  h.frame (o := o) (k := a.kids) subset_rfl fun _ hi _ => ho hi

theorem Flows.loses (hi : .drop i ∉ code) : Flows code ({ a with owns := (insert i a.owns).erase i }.holds ∅) := by
  refine h.frame (o := (insert i a.owns).erase i) (k := a.kids) subset_rfl fun j hj hd => ?_
  refine Finset.mem_erase.mpr ⟨?_, Finset.mem_insert_of_mem hj⟩
  rintro rfl
  exact hi hd

include hproc

theorem Flows.sleepLoop {n : Nat} (hl : l ≠ .ptable) (hb : l.Below .ptable) (hch : ch.lock? = none) :
    Flows (Locks.acquire l ++ Locks.repeats n (Locks.sleep ch l) ++ Locks.release l ++ code) (a.holds ∅) := by
  simp only [List.append_assoc]
  apply Flows.first
  apply Flows.repeats
  · exact fun h => h.sleeps hl hb hproc hch
  · exact h.lastOne

theorem Flows.endOp (last : Bool) : Flows (Routine.code (.endOp last) ++ code) (a.holds ∅) := by
  have hlast : Flows (Locks.acquire .log ++ (Locks.wakeup .log ++ (Locks.release .log ++ code))) (a.holds ∅) :=
    .first (.wakes Lock.noConfusion (by trivial) h.lastOne)
  cases last with
  | false => simpa only [Routine.code, Bool.false_eq_true, if_false, List.append_assoc] using hlast
  | true =>
    simp only [Routine.code, if_true, List.append_assoc]
    apply Flows.alone
    exact .cons (x := .busy) rfl Instr.noConfusion ⟨Flow.only_holds, hproc⟩ hlast

theorem Flows.iunlock (hi : .drop i ∉ code) : Flows (Routine.code (.iunlock i) ++ code) (a.holds ∅) := by
  rw [Routine.code, List.append_assoc]
  apply Flows.holdingsleep hproc
  exact Flows.releasesleep (a := { a with owns := insert i a.owns }) (Finset.mem_insert_self ..) (h.loses hi)

theorem Flows.iput (hi : .drop i ∉ code) (valid : Bool) :
    Flows (Routine.code (.iput i valid) ++ code) (a.holds ∅) := by
  have hrest : Flows (Locks.releasesleep i ++ (Locks.critical .icache ++ code))
      ({ a with owns := insert i a.owns }.holds ∅) :=
    .releasesleep (Finset.mem_insert_self ..) (.alone (h.loses hi))
  have hcode : Routine.code (.iput i valid) ++ code = Locks.acquiresleep i ++
      ((if valid then Locks.critical .icache ++ [.busy] else []) ++
        (Locks.releasesleep i ++ (Locks.critical .icache ++ code))) := by
    simp only [Routine.code, Locks.acquiresleep, List.append_assoc]
  rw [hcode]
  apply Flows.acquiresleep hproc
  cases valid with
  | false => exact hrest
  | true =>
    rw [if_pos rfl, List.append_assoc]
    apply Flows.alone (a := { a with owns := insert i a.owns })
    exact .cons (x := .busy) rfl Instr.noConfusion ⟨Flow.only_holds, hproc⟩ hrest

theorem Flows.pipewrite (p n : Nat) : Flows (Routine.code (.pipewrite p n) ++ code) (a.holds ∅) := by
  simp only [Routine.code, List.append_assoc]
  apply Flows.first
  apply Flows.repeats
  · intro code h
    rw [List.append_assoc]
    exact .wakes Lock.noConfusion trivial (.sleeps Lock.noConfusion trivial hproc rfl h)
  · exact .wakes Lock.noConfusion trivial h.lastOne

theorem Flows.piperead (p n : Nat) : Flows (Routine.code (.piperead p n) ++ code) (a.holds ∅) := by
  simp only [Routine.code, List.append_assoc]
  apply Flows.first
  apply Flows.repeats
  · exact fun h => h.sleeps Lock.noConfusion trivial hproc rfl
  · exact .wakes Lock.noConfusion trivial h.lastOne

theorem Flows.iderw (b n : Nat) : Flows (Routine.code (.iderw b n) ++ code) (a.holds ∅) := by
  have hrest : Flows (Locks.acquire .idelock ++ Locks.repeats n (Locks.sleep (.buf b) .idelock) ++
      Locks.release .idelock ++ code) ({ a with owns := insert b a.owns }.holds ∅) :=
    Flows.sleepLoop (a := { a with owns := insert b a.owns }) (l := .idelock) hproc
      (h.gains _ (Finset.subset_insert b a.owns)) Lock.noConfusion trivial rfl
  simp only [Routine.code, List.append_assoc] at hrest ⊢
  exact .holdingsleep hproc hrest

end Routines

/-- A routine keeps to the rules wherever the kernel calls it. -/
theorem Routine.flows (r : Routine) (hproc : a.proc = true) (hr : ∀ i ∈ r.unlocks, .drop i ∉ code)
    (h : Flows code (a.holds ∅)) : Flows (r.code ++ code) (a.holds ∅) := by
  cases r with
  | myproc =>
    refine Flows.cons rfl Instr.noConfusion trivial ?_
    refine Flows.cons rfl Instr.noConfusion Nat.one_pos ?_
    exact h
  | kalloc | filealloc | iget | logWrite | uptime | cprintf | swapOutOnePage => exact h.alone
  | sysSleep n | beginOp n | consoleread n => exact h.sleepLoop hproc Lock.noConfusion trivial rfl
  | endOp last => exact h.endOp hproc last
  | bget b =>
    rw [Routine.code, List.append_assoc]
    exact .alone (.acquiresleep hproc (h.gains _ (Finset.subset_insert b a.owns)))
  | ilock i => exact .acquiresleep hproc (h.gains _ (Finset.subset_insert i a.owns))
  | bwrite b => exact .holdingsleep hproc (h.gains _ (Finset.subset_insert b a.owns))
  | iderw b n => exact h.iderw hproc b n
  | brelse b =>
    have hcode : Routine.code (.brelse b) ++ code = Routine.code (.iunlock b) ++ (critical .bcache ++ code) := by
      simp only [Routine.code, List.append_assoc]
    rw [hcode]
    apply h.alone.iunlock hproc
    simpa [critical, acquire, release] using hr b (List.mem_singleton_self b)
  | iunlock i => exact h.iunlock hproc (hr i (List.mem_singleton_self i))
  | iput i valid => exact h.iput hproc (hr i (List.mem_singleton_self i)) valid
  | pipeclose p writable =>
    simp only [Routine.code, List.append_assoc]
    exact .first (.wakes Lock.noConfusion trivial h.lastOne)
  | pipewrite p n => exact h.pipewrite hproc p n
  | piperead p n => exact h.piperead hproc p n
  | fork ok | wait =>
    rw [Routine.code, List.append_assoc]
    apply Flows.first
    refine .cons rfl Instr.noConfusion ⟨Flow.only_holds, hproc⟩ ?_
    exact h
  | exit => exact .exit hproc
  | kill pid =>
    rw [Routine.code, List.append_assoc]
    apply Flows.first
    refine .cons rfl Instr.noConfusion (Finset.mem_singleton_self _) ?_
    exact h.lastOne

/-! ### The other threads -/

/-- The case of an interrupt leaves everything as it was. -/
theorem Irq.flows (irq : Irq) (h : Flows code (a.holds ∅)) : Flows (irq.code ++ code) (a.holds ∅) := by
  cases irq with
  | timer tick =>
    cases tick with
    | false => exact h
    | true =>
      simp only [Irq.code, if_true, List.append_assoc]
      exact .first (.wakes Lock.noConfusion trivial h.lastOne)
  | ide b =>
    cases b with
    | none => exact h.alone
    | some b =>
      simp only [Irq.code, List.append_assoc]
      exact .first (.wakes Lock.noConfusion trivial h.lastOne)
  | console n lines counts =>
    simp only [Irq.code, List.append_assoc]
    apply Flows.first
    refine Flows.repeats (fun h => .wakes Lock.noConfusion trivial h) ?_
    apply Flows.lastOne
    apply Flows.repeats Flows.alone
    cases counts with
    | none => exact h
    | some m =>
      simp only [pagecount, List.append_assoc]
      apply Flows.first
      refine Flows.repeats (fun h => .critical ?_ ?_ h) h.lastOne
      · exact fun h => Lock.noConfusion (Finset.mem_singleton.mp h)
      · exact fun k hk => Finset.mem_singleton.mp hk ▸ trivial
  | spurious => exact h.alone

theorem Irq.tail_flows (irq : Irq) {user : Bool} (hproc : user = true → a.proc = true) (h : Flows code (a.holds ∅)) :
    Flows (irq.tail user ++ code) (a.holds ∅) := by
  have hiret : Flows (.iret :: code) (a.holds ∅) := .cons rfl Instr.noConfusion Flow.only_holds h
  have hkill (hu : user = true) {code : Code} (h : Flows code (a.holds ∅)) : Flows (.exitIfKilled :: code) (a.holds ∅) :=
    .cons rfl Instr.noConfusion ⟨Flow.only_holds, hproc hu⟩ h
  have hyield {code : Code} (h : Flows code (a.holds ∅)) : Flows (.yieldIfRunning :: code) (a.holds ∅) :=
    .cons rfl Instr.noConfusion Flow.only_holds h
  cases irq <;> cases user
  case timer.true => exact hkill rfl (hyield (hkill rfl hiret))
  case timer.false => exact hyield hiret
  all_goals first
    | exact hiret
    | exact hkill rfl (hkill rfl hiret)

theorem syscall_flows (hproc : a.proc = true) : Flows syscall (a.holds ∅) := by
  refine Flows.cons rfl Instr.noConfusion ⟨Flow.only_holds, hproc⟩ ?_
  refine Flows.cons rfl Instr.noConfusion ⟨Flow.only_holds, hproc⟩ ?_
  refine Flows.cons rfl Instr.noConfusion ⟨Flow.only_holds, hproc⟩ ?_
  exact Flows.cons rfl Instr.noConfusion Flow.only_holds ⟨rfl, Flow.only_holds⟩

theorem forkret_flows : Flows forkret (a.holds {.ptable}) :=
  .lastOne (.cons rfl Instr.noConfusion Flow.only_holds ⟨rfl, Flow.only_holds⟩)

theorem scheduler_flows (hproc : a.proc = false) : Flows scheduler (a.holds ∅) := by
  have hloop (l : List Slot) {code : Code} (h : Flows code (a.holds {.ptable})) :
      Flows (l.map .tryRun ++ code) (a.holds {.ptable}) := by
    induction l with
    | nil => exact h
    | cons q l ih => exact .cons rfl Instr.noConfusion ⟨Flow.only_holds, hproc⟩ ih
  simp only [scheduler, List.append_assoc, List.cons_append]
  refine Flows.cons rfl Instr.noConfusion ⟨Flow.only_holds, hproc⟩ ?_
  apply Flows.first
  apply hloop
  apply Flows.lastOne
  exact .cons rfl Instr.noConfusion ⟨Flow.only_holds, hproc⟩ ⟨rfl, Flow.only_holds⟩

end

end Xv6.Locks
