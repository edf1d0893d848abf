import XdpCollectives.Mpi.Collectives

open Memory Wire Process

namespace Mpi

-- `y`, with all its `N` characters set, as each process has it after the fork. Rank 0 marks the last one.
def mainBuffer (p : ProcessInfo) (N : Int) : Program Mem :=
  if N < 1 then .fault
  else
    let y := (p.garbage.write 0 (List.replicate N.toNat 97)).write (N.toNat - 1) [0]
    if p.rank ≠ 0 then pure y
    else if N < 2 then .fault
    else pure (y.write (N.toNat - 2) [69])

-- A call on `y`. Nothing looks at the value that it returns.
def mainCall (i : Nat) (c : Call) (y : Mem) (p : ProcessInfo) : Program (Mem × ProcessInfo) := do
  .takeNote (.enter i)
  let (ret, y, p) ← c.perform p y
  .takeNote (.leave i ret y)
  return (y, p)

-- The loop over the warm-up iterations. The calls are numbered from `i` on.
def warmup (algo : Bcast) (N : Int) : (left i : Nat) → Mem → ProcessInfo → Program (Mem × ProcessInfo)
  | 0,        _, y, p => return (y, p)
  | left + 1, i, y, p => do
    let (y, p) ← mainCall i (.bcast algo N .char 0) y p
    let (y, p) ← mainCall (i + 1) .barrier y p
    warmup algo N left (i + 2) y p

-- What a child of `main` does when it is connected to all the others.
def mainChild (p : ProcessInfo) (N : Int) (algo : Bcast) (warmupIterations : Int) : Program Unit := do
  let y ← mainBuffer p N
  let w := warmupIterations.toNat
  let (y, p) ← mainCall 0 .barrier y p
  let (y, p) ← warmup algo N w 1 y p
  let (y, p) ← mainCall (2 * w + 1) (.bcast algo N .char 0) y p
  let _ ← mainCall (2 * w + 2) .barrier y p
  return ()

def mainNetwork (size : Nat) (garbage : Nat → Mem) (N : Int) (algo : Bcast) (warmupIterations : Int) : Net Note :=
  .start fun r =>
    if r < size then mainChild (.init size r (garbage r)) N algo warmupIterations else .ret ()

end Mpi
