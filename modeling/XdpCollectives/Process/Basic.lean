import XdpCollectives.Memory.Basic

-- Processes that exchange datagrams, and bytes over connections.
namespace Process

open Memory

abbrev Bytes := List Byte

-- A program that takes notes of type `E` and returns a value of type `α`. `recvfrom` repeats a
-- receive of at most `len` bytes, which may time out, as long as `next` says so.
inductive Prog (E α : Type) : Type 1
  | ret (a : α)
  | exit
  | fault
  | note (e : E) (k : Prog E α)
  | sendto (dest : Nat) (d : Bytes) (k : Prog E α)
  | recvfrom {L O : Type} (len : Nat) (next : L → Option Bytes → L ⊕ O) (l : L) (k : O → Prog E α)
  | send (dest : Nat) (m : Bytes) (k : Prog E α)
  | recv (src len : Nat) (k : Bytes → Prog E α)

namespace Prog

def bind : Prog E α → (α → Prog E β) → Prog E β
  | ret a,                  f => f a
  | exit,                   _ => exit
  | fault,                  _ => fault
  | note e k,               f => note e (k.bind f)
  | sendto dest d k,        f => sendto dest d (k.bind f)
  | recvfrom len next l k,  f => recvfrom len next l fun o => (k o).bind f
  | send dest m k,          f => send dest m (k.bind f)
  | recv src len k,         f => recv src len fun m => (k m).bind f

instance : Monad (Prog E) where
  pure := ret
  bind := bind

theorem pure_eq_ret (a : α) : (pure a : Prog E α) = ret a := rfl

theorem bind_eq (x : Prog E α) (f : α → Prog E β) : x >>= f = x.bind f := rfl

theorem bind_ret (x : Prog E α) : x.bind ret = x := by
  induction x <;> simp_all [bind]

theorem bind_assoc (x : Prog E α) (f : α → Prog E β) (g : β → Prog E γ) :
    (x.bind f).bind g = x.bind fun a => (f a).bind g := by
  induction x <;> simp_all [bind]

instance : LawfulMonad (Prog E) :=
  LawfulMonad.mk' _ bind_ret (fun _ _ => rfl) bind_assoc

-- The single effects as programs.
def takeNote (e : E) : Prog E Unit := note e (ret ())

def sendDatagram (dest : Nat) (d : Bytes) : Prog E Unit := sendto dest d (ret ())

def recvDatagram (len : Nat) : Prog E (Option Bytes) :=
  recvfrom len (fun (_ : Unit) r => .inr r) () ret

def sendBytes (dest : Nat) (m : Bytes) : Prog E Unit := send dest m (ret ())

def recvBytes (src len : Nat) : Prog E Bytes := recv src len ret

-- What is left to do after a receive. `recvfrom` cuts off what is longer than its buffer.
def received (len : Nat) (next : L → Option Bytes → L ⊕ O) (l : L) (k : O → Prog E α)
    (d : Option Bytes) : Prog E α :=
  match next l (d.map (·.take len)) with
  | .inl l => recvfrom len next l k
  | .inr o => k o

theorem received_bind (len : Nat) (next : L → Option Bytes → L ⊕ O) (l : L) (k : O → Prog E α)
    (d : Option Bytes) (f : α → Prog E β) :
    (received len next l k d).bind f = received len next l (fun o => (k o).bind f) d := by
  simp only [received]
  split <;> rfl

def Ended : Prog E α → Prop
  | ret _ | exit | fault => True
  | _                    => False

end Prog
end Process
