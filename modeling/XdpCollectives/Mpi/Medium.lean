import XdpCollectives.Mpi.Collectives
import XdpCollectives.Script.Rounds

-- What becomes of the datagrams, and what can be seen of a run.
namespace Mpi

open Memory Wire Process

-- The programs in the kernel rewrite the sender and the destination in the header of a message, and
-- nothing else.
def SameMessage (d d' : Bytes) : Prop :=
  d.length = d'.length ∧ d.take 8 = d'.take 8 ∧ d.drop 16 = d'.drop 16

-- What each rank gets of a datagram.
structure Forwarder where
  copy : Nat → Bytes → Bytes
  same : ∀ r d, SameMessage (copy r d) d

-- Datagrams that arrive as they were sent.
def Forwarder.id : Forwarder where
  copy _ d := d
  same _ _ := ⟨rfl, rfl, rfl⟩

-- The ranks that get a datagram: with one of the two opcodes for broadcasts, all but its sender.
def recipients (size src dest : Nat) (d : Bytes) : List Nat :=
  match MPICollective.ofCode (Header.decode d).collective.toNat with
  | some .bcastRing | some .bcastLinear => (List.range size).filter (· ≠ src)
  | _                                   => [dest]

-- Every datagram arrives once wherever it should, after any time, but for the ranks in `lost`: nothing
-- arrives there, and they time out.
def medium (size : Nat) (f : Forwarder) (lost : Nat → Bool) : Medium where
  reach src dest d := (recipients size src dest d).filter fun r => !lost r
  copy             := f.copy
  mayTimeout       := lost
  mayDrop          := false

abbrev lossless (size : Nat) (f : Forwarder) : Medium :=
  medium size f fun _ => false

-- The calls in the events of a rank.
def opens : Event Note → Option Nat
  | .note (.enter i) => some i
  | _                => none

def Entered (i : Nat) (es : List (Event Note)) : Prop :=
  .note (.enter i) ∈ es

def Left (i : Nat) (es : List (Event Note)) : Prop :=
  ∃ ret buf, .note (.leave i ret buf) ∈ es

-- What a rank has sent to another one over their connection, and received from it.
def sentTo (r : Nat) (es : List (Event Note)) : List Bytes :=
  es.filterMap fun
    | .send r' m => if r' = r then some m else none
    | _          => none

def recvFrom (r : Nat) (es : List (Event Note)) : List Bytes :=
  es.filterMap fun
    | .recv r' m => if r' = r then some m else none
    | _          => none

-- The datagrams that it has sent, and those that it has received.
def emitted (es : List (Event Note)) : List Bytes :=
  es.filterMap fun
    | .sendto _ d => some d
    | _           => none

def taken (es : List (Event Note)) : List Bytes :=
  es.filterMap fun
    | .took d => some d
    | _       => none

def entries (es : List (Event Note)) : Nat :=
  es.countP fun
    | .note (.enter _) => true
    | _                => false

def returns (es : List (Event Note)) : Nat :=
  es.countP fun
    | .note (.leave ..) => true
    | _                 => false

-- Buffers for tests: the root has letters in front of the terminator, and the other ranks something else.
def texts (root length r i : Nat) : Mem :=
  fun j => if r = root then if j + i < length then BitVec.ofNat 8 (65 + i) else 0 else 120

theorem texts_last (h : length ≤ j + i) : texts root length root i j = 0 := by
  rw [texts, if_pos rfl, if_neg (Nat.not_lt.mpr h)]

end Mpi
