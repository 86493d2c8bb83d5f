import AdvancedXv6.Lib.Run
import Mathlib.Logic.Function.Basic
import Mathlib.Data.BitVec

/-! The input of the console: the interrupt handler, which fills and edits the line, and the
processes that read. The steps of a process end where it lets `cons.lock` go. -/

namespace Xv6.Console
open Function

def inputBuf : Nat := 128

abbrev Uint := BitVec 32

/-- `C(x)` -/
def ctrl (x : Char) : UInt8 := UInt8.ofNat (x.toNat - '@'.toNat)

def newline : UInt8 := 10
def carriageReturn : UInt8 := 13
def delete : UInt8 := 127

structure Input where
  buf : Nat → UInt8
  r : Uint
  w : Uint
  e : Uint

namespace Input

/-- The character before the edit index. -/
def last (i : Input) : UInt8 := i.buf ((i.e - 1).toNat % inputBuf)

/-- The loop of `C('U')`, in at most `k` rounds. -/
def killLoop : Nat → Input → Input
  | 0, i => i
  | k + 1, i => if i.e ≠ i.w ∧ i.last ≠ newline then killLoop k { i with e := i.e - 1 } else i

def killLine (i : Input) : Input := killLoop (i.e - i.w).toNat i

def backspace (i : Input) : Input := if i.e ≠ i.w then { i with e := i.e - 1 } else i

/-- `input.buf[input.e++ % INPUT_BUF] = c` -/
def store (i : Input) (c : UInt8) : Input :=
  { i with buf := update i.buf (i.e.toNat % inputBuf) c, e := i.e + 1 }

/-- The characters from `w` up to `e`. -/
def line (i : Input) : List UInt8 :=
  (List.range (i.e - i.w).toNat).map fun k => i.buf ((i.w + BitVec.ofNat 32 k).toNat % inputBuf)

/-- The characters from `r` up to `w`. -/
def unread (i : Input) : List UInt8 :=
  (List.range (i.w - i.r).toNat).map fun k => i.buf ((i.r + BitVec.ofNat 32 k).toNat % inputBuf)

end Input

inductive Mode
  | user
  /-- in the loop of `consoleread` -/
  | reading (dst n target : Nat)
  deriving DecidableEq

structure Proc where
  mode : Mode
  /-- on `&input.r` -/
  asleep : Bool
  killed : Bool
  mem : Nat → UInt8
  /-- what the last call has returned -/
  eax : Int
  /-- the buffer of the last call, and what it has copied there -/
  arg : Nat
  got : List UInt8

def Proc.push (p : Proc) (dst : Nat) (b : UInt8) : Proc :=
  { p with mem := update p.mem dst b, got := p.got ++ [b] }

/-- What a reader takes off the input: a character, or an end of file. -/
inductive Item
  | byte (b : UInt8)
  | eof
  deriving DecidableEq

structure Sys where
  input : Input
  proc : Nat → Proc
  /-- the calls of `procdump` and of `pagecount` -/
  procdumps : Nat
  pagecounts : Nat
  /-- the characters that `w` has passed -/
  committed : List UInt8
  /-- what readers have taken, each by the process that has it -/
  taken : List (Nat × Item)

namespace Sys

def setProc (s : Sys) (c : Nat) (f : Proc → Proc) : Sys := { s with proc := update s.proc c (f (s.proc c)) }

theorem setProc_self (s : Sys) (c : Nat) (f : Proc → Proc) : (s.setProc c f).proc c = f (s.proc c) :=
  update_self ..

theorem setProc_of_ne {c d : Nat} (h : d ≠ c) (s : Sys) (f : Proc → Proc) : (s.setProc c f).proc d = s.proc d :=
  update_of_ne h ..

/-- `wakeup(&input.r)` -/
def wakeup (s : Sys) : Sys := { s with proc := fun d => { s.proc d with asleep := false } }

/-- `input.w = input.e` -/
def commit (s : Sys) : Sys :=
  { s with input := { s.input with w := s.input.e }, committed := s.committed ++ s.input.line }

/-- The default case of `consoleintr`. -/
def type (s : Sys) (c : UInt8) : Sys :=
  if c ≠ 0 ∧ s.input.e - s.input.r < BitVec.ofNat 32 inputBuf then
    let c := if c = carriageReturn then newline else c
    let t := { s with input := s.input.store c }
    if c = newline ∨ c = ctrl 'D' ∨ t.input.e = t.input.r + BitVec.ofNat 32 inputBuf then t.commit.wakeup else t
  else s

/-- One character of `consoleintr`, but for the two that are kept for later. -/
def key (s : Sys) (c : UInt8) : Sys :=
  if c = ctrl 'I' ∨ c = ctrl 'P' then s
  else if c = ctrl 'U' then { s with input := s.input.killLine }
  else if c = ctrl 'H' ∨ c = delete then { s with input := s.input.backspace }
  else s.type c

def consoleintr (s : Sys) (cs : List UInt8) : Sys :=
  let t := cs.foldl key s
  { t with
    procdumps := if ctrl 'P' ∈ cs then t.procdumps + 1 else t.procdumps
    pagecounts := if ctrl 'I' ∈ cs then t.pagecounts + 1 else t.pagecounts }

def ret (s : Sys) (c : Nat) (r : Int) : Sys := s.setProc c fun p => { p with mode := .user, eax := r }

/-- `input.r++` -/
def next (s : Sys) : Sys := { s with input := { s.input with r := s.input.r + 1 } }

/-- `input.r--` -/
def back (s : Sys) : Sys := { s with input := { s.input with r := s.input.r - 1 } }

/-- `*dst = b` -/
def copy (s : Sys) (c dst : Nat) (b : UInt8) : Sys :=
  { s.setProc c (·.push dst b) with taken := s.taken ++ [(c, .byte b)] }

def mark (s : Sys) (c : Nat) : Sys := { s with taken := s.taken ++ [(c, .eof)] }

/-- The loop of `consoleread`, and what follows it. -/
def readLoop (c target : Nat) : Nat → Nat → Sys → Sys
  | 0, _, s => s.ret c target
  | n + 1, dst, s =>
    if s.input.r = s.input.w then
      if (s.proc c).killed then s.ret c (-1)
      else s.setProc c fun p => { p with asleep := true, mode := .reading dst (n + 1) target }
    else
      let b := s.input.buf (s.input.r.toNat % inputBuf)
      if b = ctrl 'D' then
        -- the mark stays for the next call if this one has bytes to return
        if n + 1 < target then s.next.back.ret c ((target : Int) - (n + 1 : Nat))
        else (s.next.mark c).ret c ((target : Int) - (n + 1 : Nat))
      else if b = newline then (s.next.copy c dst b).ret c ((target : Int) - n)
      else readLoop c target n (dst + 1) (s.next.copy c dst b)

def consoleread (s : Sys) (c dst n : Nat) : Sys :=
  readLoop c n n dst (s.setProc c fun p => { p with arg := dst, got := [] })

end Sys

inductive Event
  /-- an interrupt, with the characters that `getc` gives -/
  | intr (cs : List UInt8)
  | read (c dst n : Nat)
  /-- a reader that has been woken goes on -/
  | resume (c : Nat)
  | kill (c : Nat)
  /-- user code of `c` stores a byte -/
  | store (c addr : Nat) (b : UInt8)
  deriving DecidableEq

namespace Sys

def step (s : Sys) : Event → Option Sys
  | .intr cs => some (s.consoleintr cs)
  | .read c dst n => if (s.proc c).mode = .user then some (s.consoleread c dst n) else none
  | .resume c =>
    if (s.proc c).asleep then none
    else match (s.proc c).mode with
      | .user => none
      | .reading dst n target => some (readLoop c target n dst s)
  | .kill c => some (s.setProc c fun p => { p with killed := true, asleep := false })
  | .store c addr b =>
    if (s.proc c).mode = .user then some (s.setProc c fun p => { p with mem := update p.mem addr b }) else none

def boot (mem : Nat → Nat → UInt8) : Sys where
  input := { buf := fun _ => 0, r := 0, w := 0, e := 0 }
  proc := fun c => { mode := .user, asleep := false, killed := false, mem := mem c, eax := 0, arg := 0, got := [] }
  procdumps := 0
  pagecounts := 0
  committed := []
  taken := []

end Sys

end Xv6.Console
