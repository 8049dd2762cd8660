/-
# DoubleRatchet.Session — two parties and the network between them

A `World` holds the two ratchet states, the frames sealed so far in the order
they were sealed, what `decrypt` has returned, and the key pairs drawn.  The
network is the list of actions: it delivers any header, ciphertext and
associated data to either side, so it reorders, drops, repeats and forges.

`Ideal` and `FreshKeys` are the assumptions on the imported primitives: key
derivation does not collide, and drawn X25519 keys are distinct, accepted by
`x25519_dh` and agree with each other.
-/
import OneLink.DoubleRatchet.Ratchet
import OneLink.Library.Run

namespace OneLink.DoubleRatchet

open Library

set_option autoImplicit false

inductive Party where
  | alice
  | bob
  deriving DecidableEq, Repr

namespace Party

def peer : Party → Party
  | alice => bob
  | bob => alice

@[simp] theorem peer_peer (p : Party) : p.peer.peer = p := by cases p <;> rfl

@[simp] theorem peer_ne (p : Party) : p.peer ≠ p := by cases p <;> decide

theorem eq_or_eq_peer (p q : Party) : q = p ∨ q = p.peer := by
  cases p <;> cases q <;> simp [peer]

end Party

/-- A frame as `encrypt` produced it, with the caller's associated data. -/
structure Sent (Key : Type) where
  sender : Party
  header : Header
  ad : Bytes
  box : Box Key
  deriving DecidableEq

/-- The frame has this header (but for `v` and `flags`), data and plaintext. -/
def Sent.Carries {Key : Type} (frame : Sent Key) (header : Header) (ad plaintext : Bytes) :
    Prop :=
  (frame.header.dh = header.dh ∧ frame.header.pn = header.pn ∧ frame.header.n = header.n) ∧
    frame.ad = ad ∧ frame.box.plaintext = plaintext

structure Returned where
  receiver : Party
  header : Header
  ad : Bytes
  plaintext : Bytes
  deriving DecidableEq

structure World (Key Priv : Type) where
  state : Party → RatchetState Key Priv
  sent : List (Sent Key) := []
  returned : List Returned := []
  generated : List Priv

/-- A call of `encrypt`, or a frame that reaches `decrypt`; `fresh` is the key pair
a DH ratchet draws if it comes to one. -/
inductive Action (Priv : Type) where
  | encrypt (who : Party) (plaintext ad : Bytes)
  | deliver (who : Party) (header : Header) (ciphertext ad : Bytes) (fresh : Priv)

variable {Key Priv : Type}

namespace World

def boxes (w : World Key Priv) : List (Box Key) := w.sent.map Sent.box

def setState (w : World Key Priv) (who : Party) (s : RatchetState Key Priv) : World Key Priv :=
  { w with state := Function.update w.state who s }

/-- The messages one party has returned. -/
def returnedTo (w : World Key Priv) (who : Party) : List MessageId :=
  (w.returned.filter (·.receiver = who)).map (·.header.id)

/-- The receiver has returned this frame's message. -/
def hasReturned (w : World Key Priv) (frame : Sent Key) : Bool :=
  frame.header.id ∈ w.returnedTo frame.sender.peer

/-- Some later frame of the same sender was returned before this one. -/
def overtaken (w : World Key Priv) (frame : Sent Key) (later : List (Sent Key)) : Bool :=
  ((w.returnedTo frame.sender.peer).takeWhile (· ≠ frame.header.id)).any fun id =>
    later.any fun other => other.sender = frame.sender ∧ other.header.id = id

/-- How many frames of `sender` among these were overtaken. -/
def overtakenCount (w : World Key Priv) (sender : Party) : List (Sent Key) → Nat
  | [] => 0
  | frame :: later =>
    (if frame.sender = sender ∧ w.overtaken frame later then 1 else 0) +
      w.overtakenCount sender later

end World

variable (P : Primitives Key Priv)

/-- What a call of `encrypt` leaves: its new state, and the frame if it returned one. -/
def World.encrypts (w : World Key Priv) (who : Party) (plaintext ad : Bytes) : World Key Priv :=
  match encrypt P (w.state who) plaintext ad with
  | (.error _, s) => w.setState who s
  | (.ok (header, box), s) =>
    { w.setState who s with sent := w.sent ++ [{ sender := who, header, ad, box }] }

variable [DecidableEq Key]

def World.delivers (w : World Key Priv) (who : Party) (header : Header) (ciphertext ad : Bytes)
    (fresh : Priv) : World Key Priv :=
  let drawn := { w with generated := w.generated ++ [fresh] }
  match decrypt P w.boxes (w.state who) header ciphertext ad fresh with
  | .error _ => drawn
  | .ok (plaintext, s) =>
    { drawn.setState who s with
      returned := w.returned ++ [{ receiver := who, header, ad, plaintext }] }

def World.step (w : World Key Priv) : Action Priv → World Key Priv
  | .encrypt who plaintext ad => w.encrypts P who plaintext ad
  | .deliver who header ciphertext ad fresh => w.delivers P who header ciphertext ad fresh

/-- A matched pair before its first message. -/
def World.start (alice bob : RatchetState Key Priv) (bobKey aliceKey : Priv) :
    World Key Priv where
  state := fun
    | .alice => alice
    | .bob => bob
  generated := [bobKey, aliceKey]

/-! ## Assumptions -/

/-- Key derivation does not collide.  `secret_fresh` is the same across labels: the
handshake's secret is no output of the root step. -/
structure Ideal (secret : Key) : Prop where
  next_injective : Function.Injective (nextChain P)
  message_injective : Function.Injective (messageKey P)
  root_injective : ∀ root out root' out',
    (kdfRoot P root out).1 = (kdfRoot P root' out').1 → root = root'
  chain_injective : ∀ root out root' out',
    (kdfRoot P root out).2 = (kdfRoot P root' out').2 → root = root'
  secret_fresh : ∀ root out, (kdfRoot P root out).1 ≠ secret

/-- Drawn key pairs are distinct, pass the checks of `x25519_dh`, and commute. -/
structure FreshKeys (keys : List Priv) : Prop where
  distinct : (keys.map P.publicBytes).Nodup
  accepted : ∀ key ∈ keys, isSmallOrderX25519 (P.publicBytes key) = false
  commutes : ∀ a ∈ keys, ∀ b ∈ keys,
    P.exchange a (P.publicBytes b) = P.exchange b (P.publicBytes a)
  nonzero : ∀ a ∈ keys, ∀ b ∈ keys, P.exchange a (P.publicBytes b) ≠ P.zeroKey

variable {P}

omit [DecidableEq Key] in
theorem FreshKeys.of_append {keys more : List Priv} (fresh : FreshKeys P (keys ++ more)) :
    FreshKeys P keys where
  distinct := by
    have distinct := fresh.distinct
    rw [List.map_append, List.nodup_append] at distinct
    exact distinct.1
  accepted := fun key member => fresh.accepted key (List.mem_append_left _ member)
  commutes := fun a ha b hb =>
    fresh.commutes a (List.mem_append_left _ ha) b (List.mem_append_left _ hb)
  nonzero := fun a ha b hb =>
    fresh.nonzero a (List.mem_append_left _ ha) b (List.mem_append_left _ hb)

omit [DecidableEq Key] in
theorem FreshKeys.new_ne {keys : List Priv} {new key : Priv}
    (fresh : FreshKeys P (keys ++ [new])) (member : key ∈ keys) :
    P.publicBytes key ≠ P.publicBytes new := by
  intro same
  have distinct := fresh.distinct
  rw [List.map_append, List.nodup_append] at distinct
  exact distinct.2.2 _ (List.mem_map_of_mem member) _ (by simp) same

end OneLink.DoubleRatchet
