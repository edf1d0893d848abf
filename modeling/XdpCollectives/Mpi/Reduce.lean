import XdpCollectives.Mpi.Collectives

open Memory Wire Process

namespace Mpi

inductive MPIOpcode
  | sum
  | prod
  | max
  | min
  | land
  | lor
  | lxor
  | band
  | bor
  | bxor
  | maxloc
  | minloc
  | replace
  deriving DecidableEq, Repr

-- How the branches of `mpi_opcode` on the datatype differ.
inductive Arith
  | signed
  | unsigned
  | bool
  | floating
  deriving DecidableEq, Repr

-- `char` and `wchar_t` are signed on x86-64.
def arith? : MPIDatatype → Option Arith
  | .ack | .nack                                                              => none
  | .char | .signedChar | .short | .int | .long | .longLong | .wchar          => some .signed
  | .unsignedChar | .unsignedShort | .unsigned | .unsignedLong | .unsignedLongLong => some .unsigned
  | .float | .double | .longDouble                                            => some .floating
  | .cBool                                                                    => some .bool

-- What the floating-point unit makes of two elements.
abbrev Floating := MPIOpcode → (size : Nat) → BitVec (8 * size) → BitVec (8 * size) → BitVec (8 * size)

-- The value of a condition as an element.
def ofCondition (c : Prop) [Decidable c] : BitVec (8 * size) :=
  if c then 1 else 0

def less (a : Arith) (x y : BitVec (8 * size)) : Bool :=
  match a with
  | .signed => x.slt y
  | _       => x.ult y

-- The assignment to `__buf[i]` in each branch on the opcode, with `__buf[i]` and `__buf_local[i]` as its arguments.
-- `none` is the `default` of the inner `switch`, where the process exits.
def operation? (float : Floating) (a : Arith) (opcode : MPIOpcode) :
    Option (BitVec (8 * size) → BitVec (8 * size) → BitVec (8 * size)) :=
  match a, opcode with
  | .floating, .sum | .floating, .prod | .floating, .max | .floating, .min => some (float opcode size)
  | .floating, _                                                           => none
  | _, .land => some fun x y => ofCondition (x ≠ 0 ∧ y ≠ 0)
  | _, .lor  => some fun x y => ofCondition (x ≠ 0 ∨ y ≠ 0)
  | _, .lxor => some fun x y => ofCondition (x ≠ y)
  | .bool, _ => none
  | _, .sum  => some fun x y => x + y
  | _, .prod => some fun x y => x * y
  | _, .max  => some fun x y => if less a x y then y else x
  | _, .min  => some fun x y => if less a y x then y else x
  | _, .band => some fun x y => x &&& y
  | _, .bor  => some fun x y => x ||| y
  | _, .bxor => some fun x y => x ^^^ y
  | _, _     => none

-- The loop over the elements.
def accumulate (size : Nat) (f : BitVec (8 * size) → BitVec (8 * size) → BitVec (8 * size)) (buf bufLocal : Mem)
    (len : Nat) : Mem :=
  (List.range len).foldl (fun buf i =>
    buf.store (size * i) (f (buf.load size (size * i)) (bufLocal.load size (size * i)))) buf

def mpiOpcode (float : Floating) (buf bufLocal : Mem) (len : Nat) (datatype : MPIDatatype) (opcode : MPIOpcode) :
    Program (Int × Mem) :=
  match arith? datatype with
  | none   => return (-1, buf)
  | some a =>
    match operation? float a opcode with
    | none   => .exit
    | some f => return (0, accumulate (datatype.sizeof?.getD 0) f buf bufLocal len)

def anySource : Int := -2

-- The loop of the root over the contributions. Every branch of its `switch` does the same, with an array of its type.
def reduceRounds (float : Floating) (p : ProcessInfo) (count : Int) (datatype : MPIDatatype) (opcode : MPIOpcode) :
    (left : Nat) → Mem → Program (Int × Mem)
  | 0,        buf => return (0, buf)
  | left + 1, buf => do
    if (arith? datatype).isNone then return (-1, buf)
    let (err, bufLocal) ← _mpiRecvTcp p p.garbage count datatype anySource
    if err < 0 then return (-1, buf)
    let (err, buf) ← mpiOpcode float buf bufLocal (u64 count) datatype opcode
    if err ≠ 0 then .exit
    reduceRounds float p count datatype opcode left buf

-- `ids[i][rank] += 1` for every other rank
def countAll (p : ProcessInfo) : ProcessInfo :=
  ((List.range p.size).filter (· ≠ p.rank)).foldl (fun p i => p.countId i p.rank) p

def mpiReduceRing (float : Floating) (p : ProcessInfo) (buf : Mem) (count : Int) (datatype : MPIDatatype)
    (opcode : MPIOpcode) (root : Nat) : Program (Int × Mem × ProcessInfo) := do
  let tag := 1
  if p.rank ≠ root then
    let _ ← _mpiSendTcp p buf count datatype root root tag .reduce
  if p.rank = root then
    let (err, buf) ← reduceRounds float p count datatype opcode (p.size - 1) buf
    if err < 0 then return (-1, buf, p)
    return (0, buf, countAll p)
  return (0, buf, p)

-- `count` doubles from a peer, in memory that held `rest`. Nothing looks at how many bytes have come.
def recvContribution (p : ProcessInfo) (source : Nat) (count : Int) (rest : Mem) : Program Mem := do
  return rest.write 0 (← p.recv source (u64 (u64 count * 8 : Nat)))

def recvContributions (p : ProcessInfo) (f : BitVec (8 * 8) → BitVec (8 * 8) → BitVec (8 * 8)) (count : Int) :
    List Nat → Mem → Program Mem
  | [],      bufDest => return bufDest
  | i :: is, bufDest => do
    let buf ← recvContribution p i count p.garbage
    recvContributions p f count is (accumulate 8 f bufDest buf (u64 count))

-- `mpi_reduce_linear_sum` and `mpi_reduce_linear_max` differ in what they do with two elements.
def mpiReduceLinear (f : BitVec (8 * 8) → BitVec (8 * 8) → BitVec (8 * 8)) (p : ProcessInfo) (bufSrc bufDest : Mem)
    (count : Int) (root : Nat) : Program Mem := do
  if p.rank ≠ root then
    p.send root (bufSrc.read 0 (u64 (u64 count * 8 : Nat)))
    return bufDest
  recvContributions p f count ((List.range p.size).filter (· ≠ root)) bufDest

def mpiReduceLinearSum (float : Floating) := mpiReduceLinear (float .sum 8)
def mpiReduceLinearMax (float : Floating) := mpiReduceLinear (float .max 8)

-- `size` processes that call `mpi_reduce_ring` once.
def reduceNetwork (float : Floating) (size : Nat) (garbage bufs : Nat → Mem) (count : Int) (datatype : MPIDatatype)
    (opcode : MPIOpcode) (root : Nat) : Net Note :=
  .start fun r =>
    if r < size then do
      let (ret, buf, _) ← mpiReduceRing float (.init size r (garbage r)) (bufs r) count datatype opcode root
      .takeNote (.leave 0 ret buf)
    else .ret ()

end Mpi
