import AdvancedXv6.Lib.Effect
import Mathlib.Logic.Function.Basic

/-! The parser of the shell: `gettoken`, `peek`, the functions for each kind of command, and `nulterminate`. -/

namespace Xv6.Shell
open Function Effect

def maxArgs : Nat := 10

/-- `" \t\r\n\v"` -/
def whitespace : List UInt8 := [32, 9, 13, 10, 11]
/-- `"<|>&;()"` -/
def symbols : List UInt8 := [60, 124, 62, 38, 59, 40, 41]

/-- `'<'`, `'|'`, `'>'`, `'&'`, `';'`, `'('`, `')'` -/
def less : UInt8 := 60
def bar : UInt8 := 124
def greater : UInt8 := 62
def amp : UInt8 := 38
def semi : UInt8 := 59
def lparen : UInt8 := 40
def rparen : UInt8 := 41
/-- `'+'`, which `gettoken` returns for `>>`, and `'a'`, which it returns for a word -/
def plus : UInt8 := 43
def letter : UInt8 := 97

inductive Failure
  | panic (s : String)
  /-- the number of turns of the model is used up -/
  | outOfFuel
  deriving DecidableEq

/-- A command; `W` is a string, in the code the pointers to its two ends. -/
inductive Cmd (W : Type)
  | exec (argv : List W)
  | redir (cmd : Cmd W) (file : W) (mode fd : Nat)
  | pipe (left right : Cmd W)
  | list (left right : Cmd W)
  | back (cmd : Cmd W)

structure Redir (W : Type) where
  file : W
  mode : Nat
  fd : Nat

def oRdonly : Nat := 0
def oWronly : Nat := 0x001
def oCreate : Nat := 0x200

/-- The redirections around a command, the first one next to it. -/
def redirs {W : Type} (cmd : Cmd W) (rs : List (Redir W)) : Cmd W :=
  rs.foldl (fun cmd r => .redir cmd r.file r.mode r.fd) cmd

/-- What the parser reads from. -/
structure Reader (σ W : Type) where
  /-- `peek(ps, es, toks)` -/
  peek : List UInt8 → Prog Failure σ Bool
  /-- `gettoken(ps, es, &q, &eq)`: what it returns, and `q` with `eq` -/
  gettoken : Prog Failure σ (UInt8 × W)

section Parse
variable {σ W : Type} (r : Reader σ W)

/-- The `switch` of `parseredirs`. -/
def redirOf (tok : UInt8) (file : W) : List (Redir W) :=
  if tok = less then [⟨file, oRdonly, 0⟩]
  else if tok = greater then [⟨file, oWronly ||| oCreate, 1⟩]
  else if tok = plus then [⟨file, oWronly ||| oCreate, 1⟩]
  else []

/-- The redirections that the function puts around its command, after `rs`. -/
def parseredirs : Nat → List (Redir W) → Prog Failure σ (List (Redir W))
  | 0, _ => throw .outOfFuel
  | n + 1, rs => do
    if ← r.peek [less, greater] then
      let tok ← r.gettoken
      let file ← r.gettoken
      if file.1 ≠ letter then
        throw (.panic "missing file for redirection")
      else
        parseredirs n (rs ++ redirOf tok.1 file.2)
    else
      return rs

/-- The loop of `parseexec`. Its `cmd` is filled in while `ret` already has redirections around it: they are
put around it here when it is complete. -/
def parseargs : Nat → List W → List (Redir W) → Prog Failure σ (Cmd W)
  | 0, _, _ => throw .outOfFuel
  | n + 1, argv, rs => do
    if ← r.peek [bar, rparen, amp, semi] then
      return redirs (.exec argv) rs
    else
      let tok ← r.gettoken
      if tok.1 = 0 then
        return redirs (.exec argv) rs
      else if tok.1 ≠ letter then
        throw (.panic "syntax")
      else if maxArgs ≤ argv.length + 1 then
        throw (.panic "too many args")
      else
        let rs ← parseredirs r n rs
        parseargs n (argv ++ [tok.2]) rs

/-- The loop of `parseline`. -/
def parseback : Nat → Cmd W → Prog Failure σ (Cmd W)
  | 0, _ => throw .outOfFuel
  | n + 1, cmd => do
    if ← r.peek [amp] then
      let _ ← r.gettoken
      parseback n (.back cmd)
    else
      return cmd

mutual

def parseline : Nat → Prog Failure σ (Cmd W)
  | 0 => throw .outOfFuel
  | n + 1 => do
    let cmd ← parsepipe n
    let cmd ← parseback r n cmd
    if ← r.peek [semi] then
      let _ ← r.gettoken
      let right ← parseline n
      return .list cmd right
    else
      return cmd

def parsepipe : Nat → Prog Failure σ (Cmd W)
  | 0 => throw .outOfFuel
  | n + 1 => do
    let cmd ← parseexec n
    if ← r.peek [bar] then
      let _ ← r.gettoken
      let right ← parsepipe n
      return .pipe cmd right
    else
      return cmd

def parseblock : Nat → Prog Failure σ (Cmd W)
  | 0 => throw .outOfFuel
  | n + 1 => do
    if ← r.peek [lparen] then
      let _ ← r.gettoken
      let cmd ← parseline n
      if ← r.peek [rparen] then
        let _ ← r.gettoken
        let rs ← parseredirs r n []
        return redirs cmd rs
      else
        throw (.panic "syntax - missing )")
    else
      throw (.panic "parseblock")

def parseexec : Nat → Prog Failure σ (Cmd W)
  | 0 => throw .outOfFuel
  | n + 1 => do
    if ← r.peek [lparen] then
      parseblock n
    else
      let rs ← parseredirs r n []
      parseargs r n [] rs

end

end Parse

/-! ### Characters -/

section Characters
variable (buf : Nat → UInt8) (es : Nat)

def strchr (s : List UInt8) (c : UInt8) : Bool := decide (c ∈ s)

def wordChar (c : UInt8) : Bool := !strchr whitespace c && !strchr symbols c

/-- `while(s < es && p(*s)) s++`, for `n` bytes up to `es` -/
def skip (p : UInt8 → Bool) : Nat → Nat → Nat
  | 0, s => s
  | n + 1, s => if p (buf s) then skip p n (s + 1) else s

def skipSpace (s : Nat) : Nat := skip buf (strchr whitespace) (es - s) s

def skipWord (s : Nat) : Nat := skip buf wordChar (es - s) s

/-- What `gettoken` returns for the token at `s`, and the pointer behind it. -/
def tokenAt (s : Nat) : UInt8 × Nat :=
  if buf s = 0 then (0, s)
  else if buf s = bar ∨ buf s = lparen ∨ buf s = rparen ∨ buf s = semi ∨ buf s = amp ∨ buf s = less then (buf s, s + 1)
  else if buf s = greater then
    if buf (s + 1) = greater then (plus, s + 2) else (greater, s + 1)
  else (letter, skipWord buf es s)

def gettoken : Prog Failure Nat (UInt8 × Nat × Nat) := do
  let q := skipSpace buf es (← get)
  let (ret, eq) := tokenAt buf es q
  modify fun _ => skipSpace buf es eq
  return (ret, q, eq)

def peek (toks : List UInt8) : Prog Failure Nat Bool := do
  modify (skipSpace buf es)
  let s ← get
  return buf s ≠ 0 && strchr toks (buf s)

def pointers : Reader Nat (Nat × Nat) := ⟨peek buf es, gettoken buf es⟩

end Characters

/-! ### Commands -/

/-- The text after the NULs are written. -/
def nulterminate : Cmd (Nat × Nat) → (Nat → UInt8) → Nat → UInt8
  | .exec argv, buf => argv.foldl (fun buf w => update buf w.2 0) buf
  | .redir cmd file _ _, buf => update (nulterminate cmd buf) file.2 0
  | .pipe left right, buf => nulterminate right (nulterminate left buf)
  | .list left right, buf => nulterminate right (nulterminate left buf)
  | .back cmd, buf => nulterminate cmd buf

/-- A string with its NUL in memory. -/
def memory (text : List UInt8) : Nat → UInt8 := fun k => text.getD k 0

/-- On a string, which has no NUL before its end: the command and the memory that it points to. -/
def parsecmd (n : Nat) (text : List UInt8) : Prog Failure Nat (Cmd (Nat × Nat) × (Nat → UInt8)) := do
  let cmd ← parseline (pointers (memory text) text.length) n
  let _ ← peek (memory text) text.length []
  if (← get) ≠ text.length then
    throw (.panic "syntax")
  else
    return (cmd, nulterminate cmd (memory text))

end Xv6.Shell
