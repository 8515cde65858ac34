import Pepper.Base.Fallible
import Pepper.Base.Wire

/-!
# Content Identifiers

Blocks are named by what they contain: an identifier is the codec of a block
with a digest of its bytes.

There is one identifier version and one hash algorithm, and every identifier
the program makes or parses has them, so neither is a field here. The digest is
computed elsewhere. `Hashing` takes it to be free of collisions, which a type
of digests of a fixed size could not be; the type is left open for that.

## Main definitions

* `Codec`, `Cid`: The two parts of an identifier.
* `Hashing`: The digest, with `Hashing.cid` and `Hashing.verify`.
* `MerkleStore`: A store of blocks.
* `MerkleStore.ContentAddressed`: The store gives back what was put, and keeps it.
-/

namespace Pepper

/-- The kind of a block. -/
structure Codec where
  code : Nat
deriving DecidableEq, Repr

def codecRaw : Codec := ⟨0x01⟩

def codecMerkleNode : Codec := ⟨0x07⟩

def codecNamespaceDescriptor : Codec := ⟨0x08⟩

def codecNamespaceCheckpoint : Codec := ⟨0x09⟩

def codecNamespaceCommit : Codec := ⟨0x0a⟩

/-- The identifier of a block: its codec and its digest. -/
structure Cid (Digest : Type) where
  codec : Codec
  digest : Digest
deriving DecidableEq, Repr

instance instLawfulBEqCid {Digest : Type} [DecidableEq Digest] : LawfulBEq (Cid Digest) :=
  inferInstance

/-- The digest of a block under a codec. -/
structure Hashing (Digest : Type) where
  computeDigest : Codec → Bytes → Digest
  collisionFree : ∀ codec, Function.Injective (computeDigest codec)

namespace Hashing

variable {Digest : Type} (hashing : Hashing Digest)

/-- `Cid::new` -/
def cid (codec : Codec) (payload : Bytes) : Cid Digest :=
  ⟨codec, hashing.computeDigest codec payload⟩

/-- The payload is the one that the identifier names. -/
def verify [DecidableEq Digest] (cid : Cid Digest) (payload : Bytes) : Bool :=
  hashing.computeDigest cid.codec payload = cid.digest

theorem cid_injective (codec : Codec) : Function.Injective (hashing.cid codec) := by
  intro p q h
  exact hashing.collisionFree codec (Cid.mk.inj h).2

theorem verify_cid [DecidableEq Digest] (codec : Codec) (payload : Bytes) :
    hashing.verify (hashing.cid codec payload) payload = true :=
  decide_eq_true rfl

end Hashing

/-- A store of blocks: what reading an identifier gives in a state, and what
    putting a block does. -/
structure MerkleStore (σ Digest : Type) where
  get : Cid Digest → σ → Except String Bytes
  put : Codec → Bytes → Fallible σ String (Cid Digest)

/-- A block that was put is read back under its identifier, and no later put
    takes a block away or changes it. -/
structure MerkleStore.ContentAddressed {σ Digest : Type} (store : MerkleStore σ Digest) : Prop where
  get_put : ∀ codec payload s cid s', store.put codec payload s = (.ok cid, s') →
    store.get cid s' = .ok payload
  get_keep : ∀ codec payload s cid bytes, store.get cid s = .ok bytes →
    store.get cid (store.put codec payload s).2 = .ok bytes

end Pepper
