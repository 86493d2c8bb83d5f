import AdvancedXv6.Jobs.Trap

/-! Signal handlers as the process sees them: its registers and its memory, the deliveries whose
handlers have not returned, and the `ret` with which a handler ends. -/

namespace Xv6.Jobs
open Function

/-- The word at address `a`. -/
def word (mem : Nat → Nat) (a : Nat) : Nat :=
  mem a + 2 ^ 8 * mem (a + 1) + 2 ^ 16 * mem (a + 2) + 2 ^ 24 * mem (a + 3)

namespace Frame

/-- The frame that lies at address 0. -/
def read (mem : Nat → Nat) : Frame where
  edi := word mem 0
  esi := word mem 4
  ebp := word mem 8
  oesp := word mem 12
  ebx := word mem 16
  edx := word mem 20
  ecx := word mem 24
  eax := word mem 28
  gs := word mem 32 % 2 ^ 16
  fs := word mem 36 % 2 ^ 16
  es := word mem 40 % 2 ^ 16
  ds := word mem 44 % 2 ^ 16
  trapno := word mem 48
  err := word mem 52
  eip := word mem 56
  cs := word mem 60 % 2 ^ 16
  eflags := word mem 64
  esp := word mem 68
  ss := word mem 72 % 2 ^ 16

/-- The words of the frame in memory. -/
def words (f : Frame) : List Nat :=
  [f.edi, f.esi, f.ebp, f.oesp, f.ebx, f.edx, f.ecx, f.eax, f.gs, f.fs, f.es, f.ds, f.trapno, f.err,
    f.eip, f.cs, f.eflags, f.esp, f.ss]

/-- The frame is copied to address 0. -/
def write (f : Frame) (mem : Nat → Nat) (a : Nat) : Nat :=
  match f.words[a / 4]? with
  | some w => w / 2 ^ (8 * (a % 4)) % 2 ^ 8
  | none => mem a

/-- The registers that a C function gives back: the stack pointer and the callee-saved ones. -/
def Kept (f g : Frame) : Prop :=
  g.esp = f.esp ∧ g.ebp = f.ebp ∧ g.ebx = f.ebx ∧ g.esi = f.esi ∧ g.edi = f.edi

instance (f g : Frame) : Decidable (f.Kept g) := inferInstanceAs (Decidable (_ ∧ _))

end Frame

/-- What the page table allows in user mode. -/
structure Space where
  /-- a word can be read at the address -/
  readable : Nat → Bool
  /-- an instruction can be fetched at the address -/
  code : Nat → Bool

/-- A process in user mode, with its registers in `proc.tf`. -/
structure User where
  proc : Proc
  mem : Nat → Nat
  /-- the frames of the deliveries whose handlers have not returned, the last one first -/
  handlers : List Frame

inductive UserEvent
  /-- the handler computes -/
  | regs (tf : Frame)
  /-- it writes a byte -/
  | store (a b : Nat)
  /-- it calls `signal` -/
  | signal (handler : Nat)
  | ctrlG
  /-- the end of a trap other than a system call -/
  | trap (page : Bool)
  /-- the handler ends -/
  | ret (page : Bool)

namespace User

/-- The end of a trap; without a page for `tf1` the frame is copied to address 0. -/
def trapEnd (page : Bool) (u : User) : User :=
  { u with
    proc := Kernel.userTrapEnd page u.proc
    mem := if u.proc.Signalled ∧ ¬(u.proc.tf1.isSome ∨ page) then u.proc.tf.write u.mem else u.mem
    handlers := if u.proc.Signalled then u.proc.tf :: u.handlers else u.handlers }

/-- `ret` goes to an address at which the process can run. -/
def lands (S : Space) (u : User) : Bool :=
  S.readable u.proc.tf.esp && S.code (word u.mem u.proc.tf.esp)

/-- The registers after `ret` has popped the return address. -/
def popped (u : User) : Frame :=
  { u.proc.tf with eip := word u.mem u.proc.tf.esp, esp := (u.proc.tf.esp + 4) % 2 ^ 32 }

/-- A page fault or general protection fault, up to the end of the trap. -/
def fault (page : Bool) (u : User) : User :=
  trapEnd page { u with proc := Kernel.fault (Frame.read u.mem) u.proc }

/-- `ret`: if it cannot read the address or not go there, the processor takes a fault, before or
after the registers have changed. -/
def ret (S : Space) (page : Bool) (u : User) : User :=
  if u.lands S then { u with proc := { u.proc with tf := u.popped } }
  else if S.readable u.proc.tf.esp then fault page { u with proc := { u.proc with tf := u.popped } }
  else fault page u

/-- What happens while handlers run that obey the calling convention: they write only below the stack
pointer that they were entered with, stay below it, and end with the kept registers as they were. -/
def step (S : Space) (u : User) : UserEvent → Option User
  | .regs tf => u.handlers.head?.bind fun f =>
    if tf.User ∧ tf.esp ≤ f.esp then some { u with proc := { u.proc with tf } } else none
  | .store a b => u.handlers.head?.bind fun f =>
    if a < f.esp then some { u with mem := update u.mem a b } else none
  | .signal handler => some { u with proc := { u.proc with customHandler := handler } }
  | .ctrlG => if u.proc.customHandler ≠ 0 then
      some { u with proc := { u.proc with pendingCustom := true } } else some u
  | .trap page => some (u.trapEnd page)
  | .ret page => u.handlers.head?.bind fun f => if f.Kept u.proc.tf then
      some (ret S page { u with handlers := u.handlers.tail }) else none

/-- No signal is delivered while a handler runs. -/
def NotNested (u : User) (e : UserEvent) (_ : User) : Prop :=
  ∀ page, e = .trap page → ¬u.proc.Signalled

variable {S : Space} {u v w : User} {e : UserEvent} {f : Frame} {m : Nat → Nat}
  {page : Bool}

/-! ### What the kernel does at a trap and a fault -/

theorem trapEnd_of_not (h : ¬u.proc.Signalled) : u.trapEnd page = u := by
  rw [trapEnd, Kernel.userTrapEnd, Jobs.trapEnd_of_not h, if_neg fun hs => h hs.1, if_neg h]

theorem trapEnd_of_signalled (h : u.proc.Signalled) (hpage : u.proc.tf1.isSome ∨ page = true) :
    u.trapEnd page = { u with
      proc := { u.proc with
        pendingCustom := false
        tf1 := some u.proc.tf
        prevEip := u.proc.tf.eip
        tf := { u.proc.tf with eip := u.proc.customHandler } }
      handlers := u.proc.tf :: u.handlers } := by
  rw [trapEnd, Kernel.userTrapEnd, Jobs.trapEnd_of_signalled h, if_pos hpage, if_pos h,
    if_neg fun hs => hs.2 hpage]

/-- A fault is a trap from user mode that copies the saved frame back. -/
theorem fault_kernel {k t : Kernel} {c : Slot} (hc : k.cur = some c) (hu : k.proc c = u.proc)
    (ht : Run.exec Kernel.step k [.fault (Frame.read u.mem), .trapEnd page none] = some t) :
    t.proc c = (u.fault page).proc := by
  obtain ⟨k₁, h₁, ht⟩ := Run.exec_cons_some.mp ht
  obtain ⟨k₂, h₂, h₃⟩ := Run.exec_cons_some.mp ht
  obtain rfl := Option.some.inj h₃
  obtain ⟨-, -, h₁⟩ := Kernel.step_some h₁
  obtain ⟨-, -, h₂⟩ := Kernel.step_some h₂
  obtain ⟨c', hc', h₁⟩ := Option.bind_eq_some_iff.mp h₁
  obtain rfl := Option.some.inj (hc.symm.trans hc')
  split at h₁
  · cases h₁
  · obtain rfl := Option.some.inj h₁
    obtain ⟨c', hc', h₂⟩ := Option.bind_eq_some_iff.mp h₂
    obtain rfl := Option.some.inj (hc.symm.trans hc')
    split at h₂
    · obtain rfl := Option.some.inj h₂
      rw [Kernel.modify_proc, Kernel.modify_proc, hu]
      rfl
    · cases h₂

/-! ### Runs without nested deliveries -/

/-- The handler of the delivery with frame `f` runs, over the memory `m`. -/
structure Handling (f : Frame) (m : Nat → Nat) (v : User) : Prop where
  handlers : v.handlers = [f]
  saved : v.proc.tf1 = some f
  mem : ∀ a, f.esp ≤ a → v.mem a = m a

theorem Handling.word (h : Handling f m v) : word v.mem f.esp = Jobs.word m f.esp := by
  rw [Jobs.word, Jobs.word, h.mem _ (Nat.le_refl _), h.mem (f.esp + 1) (by omega),
    h.mem (f.esp + 2) (by omega), h.mem (f.esp + 3) (by omega)]

theorem Handling.lands (h : Handling f m v) (hk : f.Kept v.proc.tf) :
    v.lands S = (S.readable f.esp && S.code (Jobs.word m f.esp)) := by
  rw [User.lands, hk.1, h.word]

/-- A signal that is pending when the frame is back is delivered to it at once. -/
theorem trapEnd_saved (h0 : v.handlers = []) (htf : v.proc.tf = f) (hsaved : v.proc.tf1 = some f)
    (hm : ∀ a, f.esp ≤ a → v.mem a = m a) :
    Handling f m (v.trapEnd page) ∨ (v.trapEnd page).handlers = [] ∧ (v.trapEnd page).proc.tf = f := by
  by_cases hs : v.proc.Signalled
  · rw [trapEnd_of_signalled hs (.inl (by rw [hsaved]; rfl))]
    exact .inl ⟨by rw [h0, htf], by rw [htf], hm⟩
  · rw [trapEnd_of_not hs]
    exact .inr ⟨h0, htf⟩

theorem fault_saved (h0 : v.handlers = []) (hsaved : v.proc.tf1 = some f)
    (hm : ∀ a, f.esp ≤ a → v.mem a = m a) :
    Handling f m (v.fault page) ∨ (v.fault page).handlers = [] ∧ (v.fault page).proc.tf = f :=
  trapEnd_saved h0 (by rw [Kernel.fault, hsaved, Option.getD_some]) hsaved hm

/-- The handler ends: it is over, or runs again. -/
theorem Handling.ret (h : Handling f m v) (hl : v.lands S = false) :
    Handling f m (User.ret S page { v with handlers := [] }) ∨
      (User.ret S page { v with handlers := [] }).handlers = [] ∧
      (User.ret S page { v with handlers := [] }).proc.tf = f := by
  rw [User.ret, if_neg (by rw [show User.lands S { v with handlers := [] } = false from hl]; simp)]
  split
  · exact fault_saved rfl h.saved h.mem
  · exact fault_saved rfl h.saved h.mem

/-- What a step without a nested delivery does while the handler runs. -/
theorem Handling.step (h : Handling f m v) (hno : v.NotNested e w) (hs : v.step S e = some w) :
    Handling f m w ∨ w.handlers = [] ∧ f.Kept v.proc.tf ∧ ∃ page,
      w = User.ret S page { v with handlers := [] } := by
  cases e with
  | regs tf =>
    rw [User.step, h.handlers, List.head?_cons, Option.bind_some] at hs
    split at hs
    · obtain rfl := Option.some.inj hs
      exact .inl ⟨rfl, h.saved, h.mem⟩
    · cases hs
  | store a b =>
    rw [User.step, h.handlers, List.head?_cons, Option.bind_some] at hs
    split at hs
    · rename_i ha
      obtain rfl := Option.some.inj hs
      refine .inl ⟨rfl, h.saved, fun x hx => ?_⟩
      exact (update_of_ne (by omega) _ _).trans (h.mem x hx)
    · cases hs
  | signal handler =>
    obtain rfl := Option.some.inj hs
    exact .inl ⟨h.handlers, h.saved, h.mem⟩
  | ctrlG =>
    rw [User.step] at hs
    split at hs
    · obtain rfl := Option.some.inj hs
      exact .inl ⟨h.handlers, h.saved, h.mem⟩
    · obtain rfl := Option.some.inj hs
      exact .inl h
  | trap page =>
    obtain rfl := Option.some.inj hs
    rw [trapEnd_of_not (hno page rfl)]
    exact .inl h
  | ret page =>
    rw [User.step, h.handlers, List.head?_cons, Option.bind_some, List.tail_cons] at hs
    split at hs
    · rename_i hk
      obtain rfl := Option.some.inj hs
      by_cases hl : v.lands S = true
      · refine .inr ⟨?_, hk, page, rfl⟩
        rw [User.ret, if_pos (show User.lands S { v with handlers := [] } = true from hl)]
      · rcases h.ret (Bool.eq_false_iff.mpr hl) with hw | hw
        · exact .inl hw
        · exact .inr ⟨hw.1, hk, page, rfl⟩
    · cases hs

end User

end Xv6.Jobs
