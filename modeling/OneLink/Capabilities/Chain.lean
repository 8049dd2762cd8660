/-
# Capabilities.Chain -- the signature chain of an attenuated capability

A capability's signature is the last value of a keyed chain over its identifier
and its caveats.  `attenuate` extends the chain by one caveat and `verify`
derives it again, so what `attenuate` builds is accepted exactly where each of
its caveats accepts (`verify_attenuated`).  Where the hash has no collision
among the inputs of two chains, equal signatures mean equal identifiers and
equal caveats in equal order (`chainValue_inj`).
-/
import OneLink.Capabilities.Caveat
import Mathlib.Data.List.Basic
import Mathlib.Data.List.Induction

namespace OneLink.Capabilities

open Library

set_option autoImplicit false

/-- `blake3::derive_key`, under a context and over the bytes hashed. -/
structure Primitives where
  deriveKey : String → Bytes → Bytes32

def rootHmacContext : String := "ol-capability-root-v1"

def stepHmacContext : String := "ol-capability-step-v1"

/-- `MAX_CAVEATS`. -/
def maxCaveats : Nat := 32

/-- `MAX_WIRE_BYTES`. -/
def maxWireBytes : Nat := 8 * 1024

/-- A capability.  Its caveats have passed the check that `attenuate` and `decode` make before they
take one. -/
structure Capability where
  id : Bytes32
  caveats : List Caveat
  signature : Bytes32
  valid : ∀ c ∈ caveats, c.validateForWire = .ok ()
deriving DecidableEq

variable (P : Primitives)

/-- `derive_root_signature`. -/
def deriveRootSignature (rootKey id : Bytes32) : Bytes32 :=
  P.deriveKey rootHmacContext (rootKey.val ++ id.val)

/-- `derive_step_signature`, over the caveat's bytes. -/
def deriveStepSignature (previous : Bytes32) (caveat : Caveat) : Bytes32 :=
  P.deriveKey stepHmacContext (previous.val ++ caveat.encode)

/-- The chain over a list of caveats, from its root: what `verify` derives. -/
def chainValue (rootKey id : Bytes32) (caveats : List Caveat) : Bytes32 :=
  caveats.foldl (deriveStepSignature P) (deriveRootSignature P rootKey id)

/-- The loop of `Capability::encoded_len`. -/
def caveatsLength : Nat → List Caveat → Except CapError Nat
  | len, [] => .ok len
  | len, c :: rest => do
    let caveatLen ← c.encodedLen
    let len ← checkedAdd len caveatLen "capability encoded length overflow"
    caveatsLength len rest

theorem validate_of_encodedLen {c : Caveat} {n : Nat} (counted : c.encodedLen = .ok n) :
    c.validateForWire = .ok () := by
  simp only [Caveat.encodedLen, bind_eq_ok] at counted
  obtain ⟨_, valid, _⟩ := counted
  exact valid

namespace Capability

/-- `Capability::root`. -/
def root (id rootKey : Bytes32) : Capability where
  id := id
  caveats := []
  signature := deriveRootSignature P rootKey id
  valid := fun _ isCaveat => absurd isCaveat List.not_mem_nil

def encodedLen (cap : Capability) : Except CapError Nat :=
  caveatsLength (32 + 4 + 32) cap.caveats

theorem valid_concat (cap : Capability) {c : Caveat} (checked : c.validateForWire = .ok ()) :
    ∀ d ∈ cap.caveats ++ [c], d.validateForWire = .ok () := by
  intro d isCaveat
  obtain old | new := List.mem_append.1 isCaveat
  · exact cap.valid d old
  · rwa [List.mem_singleton.1 new]

/-- `Capability::attenuate`. -/
def attenuate (cap : Capability) (caveat : Caveat) : Except CapError Capability := do
  require (¬ cap.caveats.length ≥ maxCaveats)
    (.resourceLimit "caveat count exceeds MAX_CAVEATS")
  let currentLen ← cap.encodedLen
  match counted : caveat.encodedLen with
  | .error err => .error err
  | .ok caveatLen =>
    let nextLen ← checkedAdd currentLen caveatLen "capability encoded length overflow"
    require (¬ nextLen > maxWireBytes) (.resourceLimit "wire bytes exceed MAX_WIRE_BYTES")
    .ok { id := cap.id
          caveats := cap.caveats ++ [caveat]
          signature := deriveStepSignature P cap.signature caveat
          valid := cap.valid_concat (validate_of_encodedLen counted) }

/-- Any number of attenuations, in order. -/
def attenuateAll (cap : Capability) : List Caveat → Except CapError Capability
  | [] => .ok cap
  | c :: rest => do
    let next ← attenuate P cap c
    attenuateAll next rest

/-- The loop of `verify` over the caveats, from the index of the first. -/
def checkCaveats (ctx : Context) : Nat → List Caveat → Except CapError Unit
  | _, [] => .ok ()
  | idx, c :: rest =>
    match c.check ctx with
    | .error reason => .error (.caveatRejected idx reason)
    | .ok () => checkCaveats ctx (idx + 1) rest

/-- `Capability::verify`. -/
def verify (cap : Capability) (rootKey : Bytes32) (ctx : Context) : Except CapError Unit := do
  require (chainValue P rootKey cap.id cap.caveats = cap.signature) .signatureMismatch
  checkCaveats ctx 0 cap.caveats

/-! ## What an attenuated capability accepts -/

theorem checkCaveats_eq_ok {ctx : Context} {idx : Nat} {caveats : List Caveat} :
    checkCaveats ctx idx caveats = .ok () ↔ ∀ c ∈ caveats, c.check ctx = .ok () := by
  induction caveats generalizing idx with
  | nil => simp [checkCaveats]
  | cons c rest ih =>
    rw [checkCaveats, List.forall_mem_cons, ← @ih (idx + 1)]
    cases c.check ctx with
    | error reason => exact ⟨nofun, fun both => nomatch both.1⟩
    | ok _ => exact ⟨fun checked => ⟨rfl, checked⟩, And.right⟩

variable {P} {cap cap' : Capability} {rootKey : Bytes32} {ctx : Context}

theorem verify_eq_ok :
    cap.verify P rootKey ctx = .ok () ↔
      cap.signature = chainValue P rootKey cap.id cap.caveats ∧
        ∀ c ∈ cap.caveats, c.check ctx = .ok () := by
  simp only [verify, bind_eq_ok, require_eq_ok, exists_const, checkCaveats_eq_ok]
  exact and_congr_left' eq_comm

theorem attenuate_eq_ok {caveat : Caveat} (ran : cap.attenuate P caveat = .ok cap') :
    cap'.id = cap.id ∧ cap'.caveats = cap.caveats ++ [caveat] ∧
      cap'.signature = deriveStepSignature P cap.signature caveat := by
  simp only [attenuate, bind_eq_ok] at ran
  obtain ⟨_, _, currentLen, _, ran⟩ := ran
  split at ran
  · cases ran
  · simp only [bind_eq_ok, Except.ok.injEq] at ran
    obtain ⟨_, _, _, _, rfl⟩ := ran
    exact ⟨rfl, rfl, rfl⟩

/-- A capability whose signature is its chain's value. -/
def Signed (P : Primitives) (rootKey : Bytes32) (cap : Capability) : Prop :=
  cap.signature = chainValue P rootKey cap.id cap.caveats

theorem signed_root (id : Bytes32) : Signed P rootKey (root P id rootKey) := rfl

/-- One attenuation keeps the signature the chain's value. -/
theorem Signed.attenuate {caveat : Caveat} (signed : Signed P rootKey cap)
    (ran : cap.attenuate P caveat = .ok cap') : Signed P rootKey cap' := by
  obtain ⟨ids, caveats, signature⟩ := attenuate_eq_ok ran
  rw [Signed, signature, ids, caveats, chainValue, List.foldl_append, signed, chainValue]
  rfl

theorem attenuateAll_eq_ok {caveats : List Caveat} (signed : Signed P rootKey cap)
    (ran : cap.attenuateAll P caveats = .ok cap') :
    Signed P rootKey cap' ∧ cap'.id = cap.id ∧ cap'.caveats = cap.caveats ++ caveats := by
  induction caveats generalizing cap with
  | nil =>
    obtain rfl : cap = cap' := Except.ok.inj ran
    exact ⟨signed, rfl, (List.append_nil _).symm⟩
  | cons c rest ih =>
    simp only [attenuateAll, bind_eq_ok] at ran
    obtain ⟨next, first, ran⟩ := ran
    obtain ⟨ids, caveats, _⟩ := attenuate_eq_ok first
    obtain ⟨signed', ids', caveats'⟩ := ih (signed.attenuate first) ran
    refine ⟨signed', ids'.trans ids, ?_⟩
    rw [caveats', caveats, List.append_assoc, List.singleton_append]

theorem verify_attenuated {id : Bytes32} {caveats : List Caveat}
    (ran : (root P id rootKey).attenuateAll P caveats = .ok cap) :
    cap.verify P rootKey ctx = .ok () ↔ ∀ c ∈ caveats, c.check ctx = .ok () := by
  obtain ⟨signed, _, shape⟩ := attenuateAll_eq_ok (signed_root id) ran
  refine (verify_eq_ok.trans (and_iff_right signed)).trans ?_
  rw [shape]
  rfl

/-- One more caveat accepts no more. -/
theorem attenuate_shrinks {caveat : Caveat} (signed : Signed P rootKey cap)
    (ran : cap.attenuate P caveat = .ok cap') (accepts : cap'.verify P rootKey ctx = .ok ()) :
    cap.verify P rootKey ctx = .ok () := by
  obtain ⟨_, caveats, _⟩ := attenuate_eq_ok ran
  have checked := (verify_eq_ok.1 accepts).2
  rw [caveats] at checked
  exact verify_eq_ok.2 ⟨signed, fun c isCaveat => checked c (List.mem_append_left _ isCaveat)⟩

end Capability

/-! ## The chain determines the caveats -/

/-- The inputs hashed on the way through the caveats, from a chain value on. -/
def stepInputs (previous : Bytes32) : List Caveat → List (String × Bytes)
  | [] => []
  | c :: rest =>
    (stepHmacContext, previous.val ++ c.encode) :: stepInputs (deriveStepSignature P previous c) rest

/-- Every input that `verify` hashes for this identifier and these caveats. -/
def chainInputs (rootKey id : Bytes32) (caveats : List Caveat) : List (String × Bytes) :=
  (rootHmacContext, rootKey.val ++ id.val) ::
    stepInputs P (deriveRootSignature P rootKey id) caveats

/-- No two different inputs of these have one hash. -/
def CollisionFree (inputs : List (String × Bytes)) : Prop :=
  ∀ x ∈ inputs, ∀ y ∈ inputs, P.deriveKey x.1 x.2 = P.deriveKey y.1 y.2 → x = y

instance (inputs : List (String × Bytes)) : Decidable (CollisionFree P inputs) := by
  unfold CollisionFree
  infer_instance

variable {P}

theorem CollisionFree.subset {inputs inputs' : List (String × Bytes)}
    (free : CollisionFree P inputs) (sub : inputs' ⊆ inputs) : CollisionFree P inputs' :=
  fun x isInput y isInput' same => free x (sub isInput) y (sub isInput') same

theorem stepInputs_concat (previous : Bytes32) (front : List Caveat) (c : Caveat) :
    stepInputs P previous (front ++ [c]) = stepInputs P previous front ++
      [(stepHmacContext, (front.foldl (deriveStepSignature P) previous).val ++ c.encode)] := by
  induction front generalizing previous with
  | nil => rfl
  | cons d front ih => simp only [List.cons_append, stepInputs, ih, List.foldl_cons]

theorem chainInputs_concat (rootKey id : Bytes32) (front : List Caveat) (c : Caveat) :
    chainInputs P rootKey id (front ++ [c]) = chainInputs P rootKey id front ++
      [(stepHmacContext, (chainValue P rootKey id front).val ++ c.encode)] := by
  rw [chainInputs, stepInputs_concat, chainInputs, List.cons_append, chainValue]

theorem chainValue_concat (rootKey id : Bytes32) (front : List Caveat) (c : Caveat) :
    chainValue P rootKey id (front ++ [c]) =
      P.deriveKey stepHmacContext ((chainValue P rootKey id front).val ++ c.encode) := by
  rw [chainValue, List.foldl_append]
  rfl

/-- The last input of a chain is hashed to its value. -/
theorem exists_last_input (rootKey id : Bytes32) (caveats : List Caveat) :
    ∃ x ∈ chainInputs P rootKey id caveats,
      chainValue P rootKey id caveats = P.deriveKey x.1 x.2 ∧
        (x.1 = rootHmacContext ↔ caveats = []) := by
  obtain rfl | ⟨front, c, rfl⟩ := List.eq_nil_or_concat caveats
  · exact ⟨_, List.mem_cons_self, rfl, by simp⟩
  · rw [List.concat_eq_append]
    refine ⟨(stepHmacContext, (chainValue P rootKey id front).val ++ c.encode), ?_,
      chainValue_concat rootKey id front c, ?_⟩
    · rw [chainInputs_concat]
      exact List.mem_append_right _ (List.mem_singleton_self _)
    · simp [rootHmacContext, stepHmacContext]

/-- Two chains of one value are of one length up to the root: the contexts differ. -/
theorem nil_iff_of_chainValue_eq {rootKey id id' : Bytes32} {caveats caveats' : List Caveat}
    (free : CollisionFree P
      (chainInputs P rootKey id caveats ++ chainInputs P rootKey id' caveats'))
    (same : chainValue P rootKey id caveats = chainValue P rootKey id' caveats') :
    caveats = [] ↔ caveats' = [] := by
  obtain ⟨x, isInput, value, atRoot⟩ := @exists_last_input P rootKey id caveats
  obtain ⟨y, isInput', value', atRoot'⟩ := @exists_last_input P rootKey id' caveats'
  rw [value, value'] at same
  have inputs := free x (List.mem_append_left _ isInput) y (List.mem_append_right _ isInput') same
  rw [← atRoot, ← atRoot', inputs]

/-- **A chain value determines the identifier and the caveats in their order.** -/
theorem chainValue_inj {rootKey id id' : Bytes32} {caveats caveats' : List Caveat}
    (valid : ∀ c ∈ caveats, c.validateForWire = .ok ())
    (valid' : ∀ c ∈ caveats', c.validateForWire = .ok ())
    (free : CollisionFree P
      (chainInputs P rootKey id caveats ++ chainInputs P rootKey id' caveats'))
    (same : chainValue P rootKey id caveats = chainValue P rootKey id' caveats') :
    id = id' ∧ caveats = caveats' := by
  have lengths := nil_iff_of_chainValue_eq free same
  induction caveats using List.reverseRecOn generalizing caveats' with
  | nil =>
    obtain rfl := lengths.1 rfl
    have inputs := free _ (List.mem_append_left _ List.mem_cons_self) _
      (List.mem_append_right _ List.mem_cons_self) same
    exact ⟨Subtype.ext (List.append_cancel_left (congrArg Prod.snd inputs)), rfl⟩
  | append_singleton front c ih =>
    obtain rfl | ⟨front', c', rfl⟩ := List.eq_nil_or_concat caveats'
    · exact absurd (lengths.2 rfl) (by simp)
    rw [List.concat_eq_append] at *
    rw [chainInputs_concat, chainInputs_concat] at free
    rw [chainValue_concat, chainValue_concat] at same
    have inputs := free (stepHmacContext, _) (by simp) (stepHmacContext, _) (by simp) same
    obtain ⟨values, bytes⟩ := List.append_inj (congrArg Prod.snd inputs)
      (((chainValue P rootKey id front).property).trans
        (chainValue P rootKey id' front').property.symm)
    obtain rfl := Caveat.encode_inj (valid c (by simp)) (valid' c' (by simp)) bytes
    have freeFront := free.subset (List.append_subset.2
      ⟨fun x isInput => List.mem_append_left _ (List.mem_append_left _ isInput),
        fun x isInput => List.mem_append_right _ (List.mem_append_left _ isInput)⟩)
    obtain ⟨ids, fronts⟩ := ih (fun d isCaveat => valid d (List.mem_append_left _ isCaveat))
      (fun d isCaveat => valid' d (List.mem_append_left _ isCaveat)) freeFront (Subtype.ext values)
      (nil_iff_of_chainValue_eq freeFront (Subtype.ext values))
    exact ⟨ids, by rw [fronts]⟩

theorem check_pathPrefix {p : String} {ctx : Context}
    (accepts : (Caveat.pathPrefix p).check ctx = .ok ()) :
    ∃ path, ctx.path = some path ∧ pathIsWithinPrefix path.toList p.toList = true := by
  rw [Caveat.check] at accepts
  cases given : ctx.path with
  | none => simp only [given, reduceCtorEq] at accepts
  | some path =>
    simp only [given, require_eq_ok] at accepts
    exact ⟨path, rfl, accepts⟩

/-- **Attenuation is sound.**  What `attenuate` builds accepts exactly where all its caveats do, and
no more than before; what `verify` accepts is signed by the chain of its own identifier and caveats,
which no other identifier or list of caveats shares; and a path prefix accepts by whole segments. -/
theorem attenuation_sound (P : Primitives) (rootKey : Bytes32) :
    (∀ (id : Bytes32) (caveats : List Caveat) (cap : Capability) (ctx : Context),
      (Capability.root P id rootKey).attenuateAll P caveats = .ok cap →
        (cap.verify P rootKey ctx = .ok () ↔ ∀ c ∈ caveats, c.check ctx = .ok ())) ∧
    (∀ (id : Bytes32) (caveats : List Caveat) (caveat : Caveat) (cap cap' : Capability)
        (ctx : Context),
      (Capability.root P id rootKey).attenuateAll P caveats = .ok cap →
        cap.attenuate P caveat = .ok cap' →
          cap'.verify P rootKey ctx = .ok () → cap.verify P rootKey ctx = .ok ()) ∧
    (∀ (cap : Capability) (ctx : Context), cap.verify P rootKey ctx = .ok () →
      cap.signature = chainValue P rootKey cap.id cap.caveats ∧
        ∀ (id : Bytes32) (caveats : List Caveat),
          (∀ c ∈ caveats, c.validateForWire = .ok ()) →
          CollisionFree P
            (chainInputs P rootKey cap.id cap.caveats ++ chainInputs P rootKey id caveats) →
          (cap.signature = chainValue P rootKey id caveats ↔
            cap.id = id ∧ cap.caveats = caveats)) ∧
    (∀ (p : String) (ctx : Context), (Caveat.pathPrefix p).check ctx = .ok () →
      ∃ path, ctx.path = some path ∧ wholeSegments p.toList <+: segments path.toList ∧
        hasDotSegment path.toList = false) := by
  refine ⟨?attenuated, ?shrinks, ?signed, ?paths⟩
  case attenuated =>
    intro id caveats cap ctx ran
    exact Capability.verify_attenuated ran
  case shrinks =>
    intro id caveats caveat cap cap' ctx ran more accepts
    have signed := (Capability.attenuateAll_eq_ok (Capability.signed_root id) ran).1
    exact Capability.attenuate_shrinks signed more accepts
  case signed =>
    intro cap ctx accepts
    have signed := (Capability.verify_eq_ok.1 accepts).1
    refine ⟨signed, fun id caveats valid free => ⟨fun same => ?_, ?_⟩⟩
    · exact chainValue_inj cap.valid valid free (signed.symm.trans same)
    · rintro ⟨rfl, rfl⟩
      exact signed
  case paths =>
    intro p ctx accepts
    obtain ⟨path, given, within⟩ := check_pathPrefix accepts
    obtain ⟨whole, plain, _⟩ := pathIsWithinPrefix_segments within
    exact ⟨path, given, whole, plain⟩

/-! A checksum in the place of the keyed hash, and a capability of two caveats. -/

def toyPrimitives : Primitives where
  deriveKey context bytes :=
    ⟨leBytes 32 (bytes.foldl (fun sum b => (sum * 257 + b.toNat + 1) % (2 ^ 255 - 19))
      (if context = rootHmacContext then 1 else 2)), length_leBytes 32 _⟩

def toyKey : Bytes32 := ⟨List.replicate 32 0, List.length_replicate⟩

def toyCapability : Capability where
  id := toyKey
  caveats := [.expiresAt 1000, .pathPrefix "/a"]
  signature := chainValue toyPrimitives toyKey toyKey [.expiresAt 1000, .pathPrefix "/a"]
  valid := by decide +kernel

theorem attenuation_sound_toy :
    toyCapability.verify toyPrimitives toyKey
        { nowUnixMs := some 999, path := some "/a/b" } = .ok () ∧
      (toyCapability.signature = chainValue toyPrimitives toyKey toyKey [.expiresAt 1000] ↔
        toyKey = toyKey ∧ [Caveat.expiresAt 1000, .pathPrefix "/a"] = [Caveat.expiresAt 1000]) := by
  obtain ⟨accepts, _, signed, _⟩ := attenuation_sound toyPrimitives toyKey
  have verified : toyCapability.verify toyPrimitives toyKey
      { nowUnixMs := some 999, path := some "/a/b" } = .ok () :=
    (accepts toyKey [.expiresAt 1000, .pathPrefix "/a"] toyCapability _ rfl).2 (by decide +kernel)
  exact ⟨verified, (signed toyCapability _ verified).2 toyKey [.expiresAt 1000]
    (by decide +kernel) (by decide +kernel)⟩

end OneLink.Capabilities
