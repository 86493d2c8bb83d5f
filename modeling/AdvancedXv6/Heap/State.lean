import AdvancedXv6.Lib.Bytes
import AdvancedXv6.Lib.Effect

/-! `malloc` and `free` of the user library, in the memory of their process, over `sbrk` as the kernel does it
(version with paging). Pointers are the addresses of bytes, below 2^32. -/

namespace Xv6.Heap
open Effect Bytes

/-- the number of values of a `uint` -/
def uint : Nat := 2 ^ 32
def kernbase : Nat := 2 ^ 31
def pgsize : Nat := 4096
/-- `sizeof(Header)` -/
def headerSize : Nat := 8
/-- `(char*)-1` -/
def minusOne : Nat := uint - 1

/-- Rounds of a loop, more than a list of headers below `kernbase` can take. -/
def rounds : Nat := 2 ^ 30

def pgroundup (a : Nat) : Nat := (a + pgsize - 1) / pgsize * pgsize

/-- A `uint` as an `int`. -/
def toInt (n : Nat) : Int := if n < 2 ^ 31 then n else n - 2 ^ 32

structure Process where
  mem : Nat → UInt8
  sz : Nat
  /-- the addresses below are mapped -/
  top : Nat
  /-- the address of `base` -/
  base : Nat
  freep : Nat
  /-- the addresses of the words that the allocator has written, the latest first -/
  trail : List Nat

inductive Stop
  /-- the process is killed by a page fault -/
  | fault
  /-- out of rounds -/
  | spin
deriving DecidableEq

abbrev M := Prog Stop Process

namespace Process

/-- `p->s.ptr` -/
def ptr (s : Process) (p : Nat) : Nat := word s.mem p 4

/-- `p->s.size` -/
def size (s : Process) (p : Nat) : Nat := word s.mem ((p + 4) % uint) 4

def store (s : Process) (a x : Nat) : Process := { s with mem := put s.mem a (digits x) 4, trail := a :: s.trail }

def setPtr (s : Process) (p x : Nat) : Process := s.store p x

def setSize (s : Process) (p x : Nat) : Process := s.store ((p + 4) % uint) x

end Process

/-! ### The kernel -/

/-- The result is 0 where it fails; `grant` tells whether the pages that it asks for can be had. -/
def allocuvm (grant : Bool) (oldsz newsz : Nat) : M Nat := do
  if kernbase ≤ newsz then pure 0
  else if newsz < oldsz then pure oldsz
  else if newsz ≤ pgroundup oldsz then pure newsz
  else if grant then do
    modify fun s => { s with
      mem := fun a => if pgroundup oldsz ≤ a ∧ a < pgroundup newsz then 0 else s.mem a
      top := pgroundup newsz }
    pure newsz
  else pure 0

def deallocuvm (oldsz newsz : Nat) : M Nat := do
  if oldsz ≤ newsz then pure oldsz
  else do
    modify fun s => { s with top := min s.top (pgroundup newsz) }
    pure newsz

def growproc (grant : Bool) (n : Int) : M Int := do
  let sz := (← get).sz
  let newsz := ((sz + n) % uint).toNat
  if 0 < n then do
    let r ← allocuvm grant sz newsz
    if r = 0 then pure (-1)
    else do
      modify fun s => { s with sz := r }
      pure 0
  else if n < 0 then do
    let r ← deallocuvm sz newsz
    if r = 0 then pure (-1)
    else do
      modify fun s => { s with sz := r }
      pure 0
  else pure 0

/-- The system call; a process that has no page left cannot go on after it. -/
def sbrk (grant : Bool) (n : Int) : M Nat := do
  let addr := (← get).sz
  let r ← growproc grant n
  if (← get).top = 0 then throw .fault
  else if r < 0 then pure minusOne
  else pure addr

/-! ### Memory accesses -/

/-- `p + n` for a header `p` -/
def add (p n : Nat) : Nat := (p + n * headerSize) % uint

def access (a : Nat) : M Unit := do
  if (← get).top < a + 4 then throw .fault

def getPtr (p : Nat) : M Nat := do
  access p
  pure ((← get).ptr p)

def getSize (p : Nat) : M Nat := do
  access ((p + 4) % uint)
  pure ((← get).size p)

def setPtr (p x : Nat) : M Unit := do
  access p
  modify fun s => s.setPtr p x

def setSize (p x : Nat) : M Unit := do
  access ((p + 4) % uint)
  modify fun s => s.setSize p x

/-! ### The allocator -/

/-- The block `bp` goes between `p` and `next`. -/
def Between (bp p next : Nat) : Prop := p < bp ∧ bp < next ∨ next ≤ p ∧ (p < bp ∨ bp < next)

instance (bp p next : Nat) : Decidable (Between bp p next) := inferInstanceAs (Decidable (_ ∨ _))

/-- The `for` loop of `free`. -/
def freeLoop (bp : Nat) : Nat → Nat → M Nat
  | 0, _ => throw .spin
  | k + 1, p => do
    let next ← getPtr p
    if Between bp p next then pure p else freeLoop bp k next

/-- The block `bp` before the one that `p` points to. -/
def joinNext (bp p : Nat) : M Unit := do
  let next ← getPtr p
  let size ← getSize bp
  if add bp size = next then do
    setSize bp ((size + (← getSize next)) % uint)
    setPtr bp (← getPtr next)
  else setPtr bp next

/-- The block `bp` behind `p`. -/
def joinPrev (bp p : Nat) : M Unit := do
  let size ← getSize p
  if add p size = bp then do
    setSize p ((size + (← getSize bp)) % uint)
    setPtr p (← getPtr bp)
  else setPtr p bp

def free (ap : Nat) : M Unit := do
  let bp := (ap + uint - headerSize) % uint
  let p ← freeLoop bp rounds (← get).freep
  joinNext bp p
  joinPrev bp p
  modify fun s => { s with freep := p }

/-- The units that `morecore` asks for, at least 4096. -/
def request (nu : Nat) : Nat := if nu < 4096 then 4096 else nu

def morecore (sbrk : Int → M Nat) (nu : Nat) : M Nat := do
  let nu := request nu
  let p ← sbrk (toInt (nu * headerSize % uint))
  if p = minusOne then pure 0
  else do
    setSize p nu
    free (add p 1)
    pure (← get).freep

/-- `malloc` with the block `p` that it has found behind `prevp`. -/
def carve (nunits prevp p size : Nat) : M Nat := do
  if size = nunits then do
    setPtr prevp (← getPtr p)
    modify fun s => { s with freep := prevp }
    pure (add p 1)
  else do
    setSize p (size - nunits)
    let q := add p (size - nunits)
    setSize q nunits
    modify fun s => { s with freep := prevp }
    pure (add q 1)

/-- The `for` loop of `malloc`. -/
def mallocLoop (sbrk : Int → M Nat) (nunits : Nat) : Nat → Nat → Nat → M Nat
  | 0, _, _ => throw .spin
  | k + 1, prevp, p => do
    let size ← getSize p
    if nunits ≤ size then carve nunits prevp p size
    else if p = (← get).freep then do
      let q ← morecore sbrk nunits
      if q = 0 then pure 0 else do mallocLoop sbrk nunits k q (← getPtr q)
    else do mallocLoop sbrk nunits k p (← getPtr p)

/-- Units for `nbytes` and a header. -/
def unitsOf (nbytes : Nat) : Nat := (nbytes + headerSize - 1) % uint / headerSize + 1

/-- The first call makes the list of `base` alone. -/
def initList : M Unit := do
  let s ← get
  if s.freep = 0 then do
    setPtr s.base s.base
    modify fun s => { s with freep := s.base }
    setSize s.base 0
  else pure ()

def malloc (sbrk : Int → M Nat) (nbytes : Nat) : M Nat := do
  initList
  let prevp := (← get).freep
  mallocLoop sbrk (unitsOf nbytes) rounds prevp (← getPtr prevp)

end Xv6.Heap
