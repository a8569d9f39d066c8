import Cibyl.LibcString
import Cibyl.Mips

namespace Cibyl
set_option autoImplicit true

open Lanes (Flat)

namespace Smalloc

/-- A `size_t`. -/
def u32 (n : Nat) : Nat := n % 2 ^ 32

def sub32 (a b : Nat) : Nat := u32 (a + 2 ^ 32 - b)

/-- An `int`. -/
def int32 (n : Nat) : Int := Int.bmod n (2 ^ 32)

def maxint : Nat := 2 ^ 31 - 1

def overhead : Nat := 12

def minnode : Nat := 64 * 4

def align (p : Nat) : Nat := u32 (p + 3) / 4 * 4

/-- The header of a block at `addr`. -/
structure Node where
  addr : Nat
  rsize : Nat
  usize : Nat
  deriving DecidableEq, Repr

namespace Node

/-- The macro `ADDR`. -/
def address (n : Node) : Int := int32 (n.addr + overhead)

/-- The macro `AFTER`. -/
def after (n : Node) : Nat := u32 (n.addr + overhead + n.rsize)

def adjacent (n1 n2 : Node) : Bool := u32 (n1.addr + overhead + n1.rsize) == n2.addr

/-- `c` with the block behind it. -/
def grow (c n : Node) : Node := { c with rsize := u32 (c.rsize + (overhead + n.rsize)) }

end Node

/-- The loop of `delete`; behind the last node it reads through a null pointer. -/
def delete : List Node → Node → Option (List Node)
  | [], _ => none
  | c :: l, n => if c.address > n.address then (delete l n).map (c :: ·) else some l

/-- A store to the node at an address, in the list it is in. -/
def update (a : Nat) (f : Node → Node) (l : List Node) : List Node :=
  l.map (fun c => if c.addr = a then f c else c)

/-- The nodes that the loop of `insert` passes. -/
def higher (l : List Node) (n : Node) : List Node := l.takeWhile (fun c => c.address > n.address)

def lower (l : List Node) (n : Node) : List Node := l.dropWhile (fun c => c.address > n.address)

def insertAllocated (l : List Node) (n : Node) : List Node := higher l n ++ n :: lower l n

/-- The second branch of `insert` on the list of free blocks. -/
def insertNew (l : List Node) (n : Node) : Option (List Node) :=
  let l' := higher l n ++ n :: lower l n
  match (higher l n).getLast? with
  | none => some l'
  | some p =>
    if n.adjacent p then (delete l' p).map (update n.addr (·.grow p)) else some l'

/-- `insert` on the list of free blocks. At its head `p` is `c`. -/
def insertAvailable (l : List Node) (n : Node) : Option (List Node) :=
  match lower l n with
  | [] => insertNew l n
  | c :: cs =>
    if c.adjacent n then
      let c' := c.grow n
      let l' := higher l n ++ c' :: cs
      let p := (higher l n).getLastD c'
      if c'.adjacent p then (delete l' p).map (update c.addr (·.grow p)) else some l'
    else insertNew l n

def find (head : List Node) (ptr : Nat) : Option Node :=
  match head.dropWhile (fun c => c.address > int32 ptr) with
  | [] => none
  | c :: _ => if c.address = int32 ptr then some c else none

/-- One round of the loop of `bestfit`, on `b` and `best`. -/
def fitStep (available : List Node) (size : Nat) (x : Option Node × Nat) (c : Node) :
    Option Node × Nat :=
  if c.rsize ≥ size then
    let waste := c.rsize - size
    if waste < x.2 ∨ available.head?.map Node.addr = some c.addr then (some c, waste) else x
  else x

def fit (available : List Node) (size : Nat) : Option Node :=
  (available.foldl (fitStep available size) (none, maxint)).1

/-- The static variables of the allocator, and the memory. -/
structure State where
  available : List Node
  allocated : List Node
  total : Nat
  memory : Flat

/-- The block without what a request leaves over, and the free blocks with it. -/
def splitNode (b : Node) (aligned : Nat) (available : List Node) : Option (Node × List Node) :=
  if b.rsize ≥ u32 (aligned + overhead + minnode) then
    let leftover := sub32 (sub32 b.rsize aligned) overhead
    let b' := { b with rsize := aligned }
    (insertAvailable available ⟨b'.after, leftover, 0⟩).map (fun l => (b', l))
  else some (b, available)

def bestfit (s : State) (size : Nat) : Option (Option Node × State) :=
  match fit s.available size with
  | none => some (none, s)
  | some b => do
    let l ← delete s.available b
    let (b, available) ← splitNode b (align size) l
    let b := { b with usize := size }
    return (some b, { s with available, allocated := insertAllocated s.allocated b })

/-- A null pointer is 0. -/
def malloc (s : State) (size : Word) : Option (Nat × State) := do
  let (store, s) ← bestfit s size.toNat
  match store with
  | none => return (0, s)
  | some n => return (u32 (n.addr + overhead), { s with total := u32 (s.total + size.toNat) })

def free (s : State) (ptr : Word) : Option State :=
  if ptr = 0 then some s
  else
    match find s.allocated ptr.toNat with
    | none => some s
    | some t => do
      let allocated ← delete s.allocated t
      let available ← insertAvailable s.available t
      return { s with available, allocated, total := sub32 s.total t.usize }

def realloc (s : State) (ptr size : Word) : Option (Nat × State) := do
  let (out, s) ← malloc s size
  if out = 0 then return (0, s)
  else if ptr = 0 then return (out, s)
  else
    let s ← free { s with memory := (Libc.memcpy out ptr.toNat size.toNat s.memory).2 } ptr
    return (out, s)

def setMemoryPool (memory_start memory_end : Nat) (memory : Flat) : State where
  available := [⟨memory_start, sub32 (sub32 memory_end memory_start) overhead, 0⟩]
  allocated := []
  total := 0
  memory := memory

end Smalloc

end Cibyl
