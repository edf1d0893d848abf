import XdpCollectives.Wire.Header
import XdpCollectives.Process.Basic

open Memory Wire Process

namespace Mpi

-- The conversions to `int` and to `size_t`.
def i32 (x : Int) : Int := x.bmod (2 ^ 32)
def u64 (x : Int) : Nat := (x % 2 ^ 64).toNat

-- `MPI_PROCESS` with `WORD_SIZE`, and what newly allocated memory happens to hold.
structure ProcessInfo where
  rank    : Nat
  size    : Nat
  ids     : Nat → Nat → BitVec 64
  garbage : Mem

def ProcessInfo.next (p : ProcessInfo) : Nat := (p.rank + 1) % p.size
def ProcessInfo.prev (p : ProcessInfo) : Nat := (p.rank + p.size - 1) % p.size

-- What is noted of a run of a process: when it enters and leaves the calls of the program above, the
-- value and the buffer it leaves them with, and when a receive has stored its message.
inductive Note
  | enter (i : Nat)
  | leave (i : Nat) (ret : Int) (buf : Mem)
  | stored (buf : Mem)

abbrev Program := Prog Note

-- What an observer writes down: the notes, and what it makes of an index into `socket_tcp_fd` or `peer_addrs`.
class Observer (E : Type) where
  note : Note → E
  slot : Int → Option E

@[default_instance]
instance : Observer Note where
  note n := n
  slot _ := none

variable {E : Type} [Observer E]

def takeNote (n : Note) : Prog E Unit :=
  .takeNote (Observer.note n)

-- `i` is going to be used as an index.
def useSlot (i : Int) : Prog E Unit :=
  match Observer.slot i with
  | some e => .takeNote e
  | none   => pure ()

namespace ProcessInfo

variable (p : ProcessInfo)

def InRange (r : Int) : Prop :=
  0 ≤ r ∧ r < p.size

instance : DecidablePred p.InRange :=
  fun _ => inferInstanceAs <| Decidable (_ ∧ _)

-- `ids[i][j] += 1`
def countId (i j : Nat) : ProcessInfo :=
  { p with ids := Function.update p.ids i (Function.update (p.ids i) j (p.ids i j + 1)) }

-- The slot of a process itself in `socket_tcp_fd` holds -1: nothing goes out, and a receive fails.
def send (dest : Int) (message : Bytes) : Prog E Unit := do
  useSlot dest
  if ¬p.InRange dest then .fault
  else if dest = p.rank then pure ()
  else .sendBytes dest.toNat message

-- The address of a process itself in `peer_addrs` is all zeros: sending to it fails.
def sendto (dest : Int) (message : Bytes) : Prog E Bool := do
  useSlot dest
  if dest = p.rank then return false
  .sendDatagram dest.toNat message
  return true

-- All callers end the process when the receive fails.
def recv (source : Int) (len : Nat) : Prog E Bytes := do
  useSlot source
  if ¬p.InRange source then .fault
  else if source = p.rank then .exit
  else .recvBytes source.toNat len

end ProcessInfo

def datatypeSizeInBytes (count : Int) (datatype : MPIDatatype) : Int :=
  match datatype.sizeof? with
  | some size => i32 (count * size)
  | none      => -1

-- The header that every sender writes. `id` is its own `ids` entry.
def header (p : ProcessInfo) (root dest : Int) (collective : MPICollective) (datatype : MPIDatatype)
    (len tag : Int) (seq : Nat) (id : BitVec 64) : Header where
  root       := BitVec.ofInt 32 root
  src        := BitVec.ofNat 32 p.rank
  dst        := BitVec.ofInt 32 dest
  collective := BitVec.ofNat 32 collective.code
  datatype   := BitVec.ofNat 32 datatype.code
  len        := BitVec.ofInt 32 len
  tag        := BitVec.ofInt 32 tag
  seq        := BitVec.ofNat 64 seq
  id         := id

-- The last element of `count` elements of a character type, or the one after them, becomes zero.
def terminate (datatype : MPIDatatype) (elementSize at_ : Nat) (buf : Mem) : Mem :=
  if datatype.isChar then buf.write (elementSize * at_) (List.replicate elementSize 0) else buf

end Mpi
