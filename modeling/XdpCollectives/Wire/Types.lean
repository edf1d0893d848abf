import XdpCollectives.Memory.Basic

namespace Wire

inductive MPICollective
  | send
  | bcast
  | bcastLinear
  | bcastRing
  | reduce
  | shatter
  | gather
  | shatterv
  | gatherv
  deriving DecidableEq, Repr

namespace MPICollective

def code : MPICollective → Nat
  | send        => 0
  | bcast       => 1
  | bcastLinear => 2
  | bcastRing   => 3
  | reduce      => 4
  | shatter     => 5
  | gather      => 6
  | shatterv    => 7
  | gatherv     => 8

-- A `switch` on an opcode read from the wire: `none` is its `default`.
def ofCode : Nat → Option MPICollective
  | 0 => some send
  | 1 => some bcast
  | 2 => some bcastLinear
  | 3 => some bcastRing
  | 4 => some reduce
  | 5 => some shatter
  | 6 => some gather
  | 7 => some shatterv
  | 8 => some gatherv
  | _ => none

theorem ofCode_code (c : MPICollective) : ofCode c.code = some c := by
  cases c <;> rfl

end MPICollective

inductive MPIDatatype
  | ack
  | nack
  | char
  | signedChar
  | unsignedChar
  | short
  | unsignedShort
  | int
  | unsigned
  | long
  | unsignedLong
  | longLong
  | unsignedLongLong
  | float
  | double
  | longDouble
  | cBool
  | wchar
  deriving DecidableEq, Repr

namespace MPIDatatype

def code : MPIDatatype → Nat
  | ack              => 0
  | nack             => 1
  | char             => 2
  | signedChar       => 3
  | unsignedChar     => 4
  | short            => 5
  | unsignedShort    => 6
  | int              => 7
  | unsigned         => 8
  | long             => 9
  | unsignedLong     => 10
  | longLong         => 11
  | unsignedLongLong => 12
  | float            => 13
  | double           => 14
  | longDouble       => 15
  | cBool            => 16
  | wchar            => 17

-- The `sizeof` of the element type in each branch of a `switch` on the datatype, on x86-64. The
-- two control datatypes have no branch.
def sizeof? : MPIDatatype → Option Nat
  | ack | nack                                                  => none
  | char | signedChar | unsignedChar | cBool                    => some 1
  | short | unsignedShort                                       => some 2
  | int | unsigned | float | wchar                              => some 4
  | long | unsignedLong | longLong | unsignedLongLong | double  => some 8
  | longDouble                                                  => some 16

-- The datatypes whose receivers store a terminator.
def isChar : MPIDatatype → Bool
  | char | signedChar | unsignedChar | wchar => true
  | _                                        => false

end MPIDatatype

def basePort     : Nat := 5000
def maxPayload   : Nat := 1472
def mpiHeader    : Nat := 48
def payloadSize  : Nat := maxPayload - mpiHeader

end Wire
