import XdpCollectives.Process.Erasure
import XdpCollectives.Process.Traces

-- Processes that keep to something as long as what they get from the others does.
namespace Process

-- The notes that a process takes, what it sends and to whom, and how many bytes it asks a peer for. In
-- return it relies on what it takes and gets.
structure Contract (E : Type) where
  note   : E → Prop
  sendto : (dest : Nat) → Bytes → Prop
  took   : Bytes → Prop
  send   : (dest : Nat) → Bytes → Prop
  recv   : (src len : Nat) → Prop
  got    : (src : Nat) → Bytes → Prop

-- The contract before the notes are filtered.
def Contract.comap (f : E → Option F) (C : Contract F) : Contract E :=
  { C with note := fun e => ∀ e', f e = some e' → C.note e' }

variable {E F : Type} {μ : Medium} {s s' : Net E} {p : Nat}

namespace Prog

-- The program keeps to the contract if nothing times out, and what it returns is `Q`. `J` is what holds
-- of the variables of a repeated receive.
def Obeys (C : Contract E) (Q : α → Prop) : Prog E α → Prop
  | ret a                           => Q a
  | exit                            => True
  | fault                           => True
  | note e k                        => C.note e ∧ k.Obeys C Q
  | sendto dest d k                 => C.sendto dest d ∧ k.Obeys C Q
  | @recvfrom _ _ L _ len next l k  => ∃ J : L → Prop, J l ∧ ∀ l d, J l → C.took d →
    (∀ l', next l (some (d.take len)) = .inl l' → J l') ∧
    ∀ o, next l (some (d.take len)) = .inr o → (k o).Obeys C Q
  | send dest m k                   => C.send dest m ∧ k.Obeys C Q
  | recv src len k                  => C.recv src len ∧ ∀ m, C.got src m → (k m).Obeys C Q

namespace Obeys

variable {C : Contract E} {Q R : α → Prop}

theorem recvfrom_imp {C' : Contract F} {S : β → Prop} {len : Nat} {next : L → Option Bytes → L ⊕ O} {k : O → Prog E α}
    {k' : O → Prog F β} (h : (recvfrom len next l k).Obeys C Q) (hk : ∀ o, (k o).Obeys C Q → (k' o).Obeys C' S)
    (ht : ∀ d, C'.took d → C.took d) : (recvfrom len next l k').Obeys C' S := by
  have ⟨J, hJ, hn⟩ := h
  refine ⟨J, hJ, fun l d hl hd => ?_⟩
  have ⟨hs, ho⟩ := hn l d hl (ht d hd)
  exact ⟨hs, fun o h => hk o (ho o h)⟩

theorem bind {x : Prog E α} {S : β → Prop} {f : α → Prog E β} (hx : x.Obeys C Q) (hf : ∀ a, Q a → (f a).Obeys C S) :
    (x >>= f).Obeys C S := by
  rw [bind_eq]
  induction x with
  | ret a            => exact hf a hx
  | exit             => trivial
  | fault            => trivial
  | note _ _ hi      => exact ⟨hx.left, hi hx.right⟩
  | sendto _ _ _ hi  => exact ⟨hx.left, hi hx.right⟩
  | send _ _ _ hi    => exact ⟨hx.left, hi hx.right⟩
  | recv _ _ _ hi    => exact ⟨hx.left, fun m hm => hi m (hx.right m hm)⟩
  | recvfrom _ _ _ _ hi => exact hx.recvfrom_imp hi (fun _ h => h)

theorem mono {x : Prog E α} (hx : x.Obeys C Q) (h : ∀ a, Q a → R a) : x.Obeys C R := by
  have hb := hx.bind (S := R) (f := .ret) h
  rwa [bind_eq, bind_ret] at hb

theorem ite {c : Prop} [Decidable c] {x y : Prog E α} (hx : c → x.Obeys C Q) (hy : ¬c → y.Obeys C Q) :
    (if c then x else y).Obeys C Q := by
  split
  case isTrue h  => exact hx h
  case isFalse h => exact hy h

theorem filterNotes {f : E → Option F} {C : Contract F} {x : Prog E α} (hx : x.Obeys (C.comap f) Q) :
    (x.filterNotes f).Obeys C Q := by
  induction x with
  | ret a            => exact hx
  | exit             => trivial
  | fault            => trivial
  | note e _ hi      =>
    rw [filterNotes_note]
    cases he : f e with
    | none    => exact hi hx.right
    | some e' => exact ⟨hx.left e' he, hi hx.right⟩
  | sendto _ _ _ hi  => exact ⟨hx.left, hi hx.right⟩
  | send _ _ _ hi    => exact ⟨hx.left, hi hx.right⟩
  | recv _ _ _ hi    => exact ⟨hx.left, fun m hm => hi m (hx.right m hm)⟩
  | recvfrom _ _ _ _ hi => exact hx.recvfrom_imp hi (fun _ h => h)

-- A program that gets no bytes keeps to a contract whatever it takes.
theorem of_keeps {φ : Event E → Prop} {x : Prog E α} (h : Keeps φ x Q) (hnote : ∀ e, φ (.note e) → C.note e)
    (hsendto : ∀ dest d, φ (.sendto dest d) → C.sendto dest d) (hsend : ∀ dest m, φ (.send dest m) → C.send dest m)
    (hrecv : ∀ src m, ¬φ (.recv src m)) : x.Obeys C Q := by
  have hk {e : Event E} {x y : Prog E α} (hg : Goes x e y) (h : Keeps φ x Q) : φ e ∧ Keeps φ y Q := by
    refine ⟨(h [e] y (.step hg .refl)).left e List.mem_cons_self, fun t z hz => ?_⟩
    have ⟨ht, hq⟩ := h (e :: t) z (.step hg hz)
    exact ⟨fun e' he => ht e' (List.mem_cons_of_mem e he), hq⟩
  induction x with
  | ret a            => exact (h [] _ .refl).right a rfl
  | exit             => trivial
  | fault            => trivial
  | note _ _ hi      => exact ⟨hnote _ (hk .note h).left, hi (hk .note h).right⟩
  | sendto _ _ _ hi  => exact ⟨hsendto _ _ (hk .sendto h).left, hi (hk .sendto h).right⟩
  | send _ _ _ hi    => exact ⟨hsend _ _ (hk .send h).left, hi (hk .send h).right⟩
  | recv _ _ _ _     => exact absurd (hk (.recv (m := [])) h).left (hrecv _ _)
  | recvfrom len next l k hi =>
    refine ⟨fun l => Keeps φ (.recvfrom len next l k) Q, h, fun l d hl _ => ?_⟩
    have hr := (hk (.took (d := d)) hl).right
    simp only [Prog.received, Option.map_some] at hr
    refine ⟨fun l' hn => ?_, fun o hn => hi o ?_⟩
    · simpa only [hn] using hr
    · simpa only [hn] using hr

-- A datagram that the contract allows has ended the receive, or left its variables good.
theorem received {len : Nat} {next : L → Option Bytes → L ⊕ O} {k : O → Prog E α}
    (h : (recvfrom len next l k).Obeys C Q) (hd : C.took d) : (Prog.received len next l k (some d)).Obeys C Q := by
  have ⟨J, hJ, hk⟩ := h
  have ⟨hs, ho⟩ := hk l d hJ hd
  simp only [Prog.received, Option.map_some]
  split
  case h_1 l' hn => exact ⟨J, hs l' hn, hk⟩
  case h_2 o hn  => exact ho o hn

end Obeys
end Prog

-- What a process may send is what the others rely on. `stream p q` are the bytes that may be on their way
-- from `p` to `q`.
structure Compatible (μ : Medium) (C : Nat → Contract E) (stream : (p q : Nat) → Bytes → Prop) : Prop where
  patient : ∀ p, μ.mayTimeout p = false
  took    : ∀ p q dest d, (C p).sendto dest d → q ∈ μ.reach p dest d → (C q).took (μ.copy q d)
  empty   : ∀ p q, stream p q []
  sent    : ∀ p q b m, stream p q b → (C p).send q m → stream p q (b ++ m)
  got     : ∀ p q b len, stream p q b → b ≠ [] → (C q).recv p len → (C q).got p (b.take len) ∧ stream p q (b.drop len)

-- Whatever is on its way is allowed, and so is what has been noted.
structure Kept (C : Nat → Contract E) (stream : (p q : Nat) → Bytes → Prop) (s : Net E) : Prop where
  prog  : ∀ p, (s.prog p).Obeys (C p) fun _ => True
  tcp   : ∀ p q, stream p q (s.tcp p q)
  udp   : ∀ p, ∀ d ∈ s.udp p, (C p).took d
  notes : ∀ p e, (p, .note e) ∈ s.trace → (C p).note e

namespace Kept

variable {C : Nat → Contract E} {stream : Nat → Nat → Bytes → Prop}

theorem start {prog : Nat → Prog E Unit} (hc : Compatible μ C stream)
    (h : ∀ p, (prog p).Obeys (C p) fun _ => True) : Kept C stream (.start prog) where
  prog        := h
  tcp         := hc.empty
  udp _ _ hd  := absurd hd List.not_mem_nil
  notes _ _ h := absurd h List.not_mem_nil

theorem advance (h : Kept C stream s) {k : Prog E Unit} (hk : k.Obeys (C p) fun _ => True)
    (he : ∀ e', e = .note e' → (C p).note e') {tcp : Nat → Nat → Bytes} (ht : ∀ q r, stream q r (tcp q r))
    {udp : Nat → List Bytes} (hu : ∀ q, ∀ d ∈ udp q, (C q).took d) :
    Kept C stream { s.advance p k e with tcp, udp } where
  prog  := by
    intro q
    by_cases hq : q = p
    case pos =>
      subst hq
      simpa only [Net.advance_prog, Function.update_self] using hk
    case neg => simpa only [Net.advance_prog, Function.update_of_ne hq] using h.prog q
  tcp   := ht
  udp   := hu
  notes := by
    intro q e' hm
    rcases List.mem_append.mp hm with hm | hm
    · exact h.notes q e' hm
    · cases List.mem_singleton.mp hm
      exact he e' rfl

theorem udp_removed (h : Kept C stream s) (p j q : Nat) :
    ∀ d ∈ Function.update s.udp p ((s.udp p).eraseIdx j) q, (C q).took d :=
  fun d hd => h.udp q d (Net.mem_of_mem_removed hd)

theorem tcp_updated (h : Kept C stream s) {a b : Nat} {m : Bytes} (hm : stream a b m) (q r : Nat) :
    stream q r (Function.update s.tcp a (Function.update (s.tcp a) b m) q r) := by
  by_cases hq : q = a
  case pos =>
    subst hq
    rw [Function.update_self]
    by_cases hr : r = b
    case pos =>
      subst hr
      rwa [Function.update_self]
    case neg =>
      rw [Function.update_of_ne hr]
      exact h.tcp q r
  case neg =>
    rw [Function.update_of_ne hq]
    exact h.tcp q r

theorem at_prog (h : Kept C stream s) (hp : s.prog p = x) : x.Obeys (C p) fun _ => True :=
  hp ▸ h.prog p

theorem step (hc : Compatible μ C stream) (h : Kept C stream s) (hs : s.step μ l = some s') : Kept C stream s' := by
  cases Net.moves_iff.mp hs with
  | note hp      =>
    have hk := h.at_prog hp
    exact h.advance hk.right (fun _ h => Event.note.inj h ▸ hk.left) h.tcp h.udp
  | sendto hp    =>
    have hk := h.at_prog hp
    refine h.advance hk.right (by simp) h.tcp fun q d' hd => ?_
    rcases List.mem_append.mp hd with hd | hd
    · exact h.udp q d' hd
    · obtain ⟨r, hf, he⟩ := List.mem_map.mp hd
      obtain ⟨hr, hq⟩ := List.mem_filter.mp hf
      obtain rfl : r = q := of_decide_eq_true hq
      exact he ▸ hc.took _ r _ _ hk.left hr
  | send hp      =>
    have hk := h.at_prog hp
    exact h.advance hk.right (by simp) (h.tcp_updated (hc.sent _ _ _ _ (h.tcp _ _) hk.left)) h.udp
  | recv hp hne  =>
    have hk := h.at_prog hp
    obtain ⟨hg, ht⟩ := hc.got _ _ _ _ (h.tcp _ _) hne hk.left
    exact h.advance (hk.right _ hg) (by simp) (h.tcp_updated ht) h.udp
  | take hp hj   =>
    have hk := (h.at_prog hp).received (h.udp _ _ (List.mem_of_getElem? hj))
    exact h.advance hk (by simp) h.tcp (h.udp_removed _ _)
  | timeout _ hm => simp [hc.patient] at hm
  | drop _ _     => exact ⟨h.prog, h.tcp, h.udp_removed _ _, h.notes⟩

-- In every run of processes that keep to compatible contracts.
theorem reaches (hc : Compatible μ C stream) (h : Kept C stream s) (hs : s.Reaches μ s') : Kept C stream s' := by
  induction hs
  case refl => exact h
  case tail hs hi =>
    have ⟨_, hs⟩ := hs
    exact hi.step hc hs

end Kept

-- Bytes that are messages of `len` bytes, one after the other.
inductive Packed (len : Nat) (φ : Bytes → Prop) : Bytes → Prop
  | nil  : Packed len φ []
  | cons {m b : Bytes} (hl : m.length = len) (hm : φ m) (hb : Packed len φ b) : Packed len φ (m ++ b)

namespace Packed

variable {φ : Bytes → Prop} {b m : Bytes} {len : Nat}

theorem append (hb : Packed len φ b) (hl : m.length = len) (hm : φ m) : Packed len φ (b ++ m) := by
  induction hb
  case nil => simpa using Packed.cons hl hm .nil
  case cons hl' hm' _ hi =>
    rw [List.append_assoc]
    exact .cons hl' hm' hi

theorem take (hb : Packed len φ b) (hne : b ≠ []) :
    (b.take len).length = len ∧ φ (b.take len) ∧ Packed len φ (b.drop len) := by
  cases hb
  case nil => contradiction
  case cons hl hm hb =>
    subst hl
    rw [List.take_left, List.drop_left]
    exact ⟨rfl, hm, hb⟩

end Packed
end Process
