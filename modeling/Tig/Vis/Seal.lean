import Tig.Core.Plain
import Tig.Lib.Framing
import Tig.Lib.Program
import Tig.Vis.Tokens

set_option relaxedAutoImplicit false
set_option autoImplicit false

/-!
# Sealing

A sealed payload is encrypted with a data key, and the data key is wrapped for every recipient: with
a key that sender and recipient agree on, and bound to the recipient and to the path. Key agreement,
key derivation and authenticated encryption come from elsewhere: they are parameters, as is the
randomness of a seal.

Keys and nonces have a fixed length. Where the source converts bytes of any length to them, the
conversion panics when the length is wrong; here that is an outcome of its own.

## Main definitions

* `Tig.SealLib`, `Tig.SealLib.Ideal` — the parts that come from elsewhere, and what they do.
* `Tig.doSeal`, `Tig.doUnseal` — the two operations, under the names that the commands import them
  by.

## Main results

* `Tig.doSeal_spec` — what is in a sealed payload.
* `Tig.doUnseal_ne_panic` — unsealing anything returns.
* `Tig.doUnseal_doSeal` — a listed recipient reads the plaintext.
-/

namespace Tig

open Program

/-! ## What comes from elsewhere -/

/-- Bytes of a fixed length. -/
abbrev Fixed (n : Nat) := {bytes : Bytes // bytes.length = n}

/-- An X25519 public key. -/
abbrev PublicKey := Fixed 32

/-- Key agreement (X25519), key derivation (HKDF-SHA256 with an empty salt, expanded to 32 bytes)
and authenticated encryption (XChaCha20-Poly1305), over an abstract type of secret keys. -/
structure SealLib (K : Type) where
  publicKey : K → PublicKey
  dh : K → PublicKey → Fixed 32
  hkdf : Fixed 32 → Bytes → Fixed 32
  encrypt : (key : Fixed 32) → (nonce : Fixed 24) → (msg aad : Bytes) → Option Bytes
  decrypt : (key : Fixed 32) → (nonce : Fixed 24) → (msg aad : Bytes) → Option Bytes
  /-- The longest message that is encrypted. -/
  limit : Nat

/-- Key agreement is commutative, and decryption succeeds exactly on what was encrypted under the
same key, nonce and associated data. Messages up to the limit are encrypted, keys among them. -/
structure SealLib.Ideal {K : Type} (lib : SealLib K) : Prop where
  dh_comm : ∀ a b, lib.dh a (lib.publicKey b) = lib.dh b (lib.publicKey a)
  decrypt_iff : ∀ key nonce c aad m,
    lib.decrypt key nonce c aad = some m ↔ lib.encrypt key nonce m aad = some c
  encrypts : ∀ key nonce m aad, m.length ≤ lib.limit → (lib.encrypt key nonce m aad).isSome
  key_le : 32 ≤ lib.limit

/-- The random choices of a seal: the ephemeral key, the data key, and the nonces. -/
structure SealRandom (K : Type) where
  ephemeral : K
  dataKey : Fixed 32
  wrapNonce : Nat → Fixed 24
  nonce : Fixed 24

/-- How an operation stops without a result: a conversion panics, or there is an error. -/
inductive SealHalt where
  | panic
  | error (e : VisError)
deriving DecidableEq, Repr

/-- Bytes as bytes of a fixed length. -/
def fromSlice (n : Nat) (bytes : Bytes) : Except SealHalt (Fixed n) :=
  if h : bytes.length = n then .ok ⟨bytes, h⟩ else .error .panic

theorem fromSlice_eq {n : Nat} (bytes : Fixed n) : fromSlice n bytes.1 = .ok bytes :=
  dif_pos bytes.2

/-! ## The two operations -/

/-- The context of the keys that wrap data keys: `tig-seal:wrap:v1`. -/
def HKDF_INFO : Bytes := Utf8.encode "tig-seal:wrap:v1"

variable {K : Type} (lib : SealLib K)

/-- The key that wraps a data key. -/
def deriveWrapKey (shared : Fixed 32) : Fixed 32 := lib.hkdf shared HKDF_INFO

/-- Wrap the data key for each recipient; `i` counts them. -/
def wrapKeys (rnd : SealRandom K) (aad : Bytes) :
    (i : Nat) → List PublicKey → Except SealHalt (List RecipientWrap)
  | _, [] => .ok []
  | i, rpk :: recipients =>
    let wrapKey := deriveWrapKey lib (lib.dh rnd.ephemeral rpk)
    match lib.encrypt wrapKey (rnd.wrapNonce i) rnd.dataKey.1 (aad ++ rpk.1) with
    | none => .error (.error (.crypto "wrap encryption: aead::Error"))
    | some wrapped => do
      let wraps ← wrapKeys rnd aad (i + 1) recipients
      .ok (⟨rpk.1, wrapped, (rnd.wrapNonce i).1⟩ :: wraps)

/-- Encrypt so that each recipient can decrypt. -/
def doSeal (rnd : SealRandom K) (plaintext : Bytes) (recipients : List PublicKey) (aad : Bytes) :
    Except SealHalt Sealed :=
  if recipients = [] then
    .error (.error (.crypto "at least one recipient is required to seal"))
  else do
    let wraps ← wrapKeys lib rnd aad 0 recipients
    match lib.encrypt rnd.dataKey rnd.nonce plaintext aad with
    | none => .error (.error (.crypto "payload encryption: aead::Error"))
    | some ciphertext =>
      .ok ⟨.X25519XChaCha20Poly1305, (lib.publicKey rnd.ephemeral).1, wraps, ciphertext, rnd.nonce.1,
        aad⟩

/-- The first wrap for a public key. -/
def Sealed.recipientFor (s : Sealed) (pk : Bytes) : Option RecipientWrap :=
  s.recipients.find? fun r => r.recipientPk = pk

/-- Decrypt as the holder of a secret key. -/
def doUnseal (s : Sealed) (mySecret : K) (aad : Bytes) : Except SealHalt Bytes :=
  if s.algo ≠ .X25519XChaCha20Poly1305 then .error (.error .unsupportedAlgo)
  else if s.ephemeralPk.length ≠ 32 then
    .error (.error (.malformedSealed ("ephemeral_pk must be 32 bytes, got " ++
      toString s.ephemeralPk.length)))
  else if s.nonce.length ≠ 24 then
    .error (.error (.malformedSealed ("payload nonce must be 24 bytes, got " ++
      toString s.nonce.length)))
  else if s.aad ≠ aad then .error (.error .authFailure)
  else
    let myPub := lib.publicKey mySecret
    match s.recipientFor myPub.1 with
    | none => .error (.error .notARecipient)
    | some wrap =>
      if wrap.wrapNonce.length ≠ 24 then
        .error (.error (.malformedSealed "wrap_nonce must be 24 bytes"))
      else do
        let ephPk ← fromSlice 32 s.ephemeralPk
        let wrapKey := deriveWrapKey lib (lib.dh mySecret ephPk)
        let wrapNonce ← fromSlice 24 wrap.wrapNonce
        match lib.decrypt wrapKey wrapNonce wrap.wrappedKey (aad ++ myPub.1) with
        | none => .error (.error .authFailure)
        | some dataKey =>
          if dataKey.length ≠ 32 then
            .error (.error (.malformedSealed ("unwrapped data key has wrong length: " ++
              toString dataKey.length)))
          else do
            let payloadKey ← fromSlice 32 dataKey
            let payloadNonce ← fromSlice 24 s.nonce
            match lib.decrypt payloadKey payloadNonce s.ciphertext aad with
            | none => .error (.error .authFailure)
            | some plaintext => .ok plaintext

/-! ## What the operations do -/

variable {lib}

/-- The wraps are one for each recipient, in order. -/
theorem wrapKeys_spec {rnd : SealRandom K} {aad : Bytes} {i : Nat} {recipients : List PublicKey}
    {wraps : List RecipientWrap} (h : wrapKeys lib rnd aad i recipients = .ok wraps) :
    List.Forall₂ (fun rpk wrap => wrap.recipientPk = rpk.1 ∧ ∃ nonce : Fixed 24,
      wrap.wrapNonce = nonce.1 ∧
      lib.encrypt (deriveWrapKey lib (lib.dh rnd.ephemeral rpk)) nonce rnd.dataKey.1 (aad ++ rpk.1) =
        some wrap.wrappedKey) recipients wraps := by
  induction recipients generalizing i wraps with
  | nil =>
    obtain rfl := Except.ok.inj h
    exact .nil
  | cons rpk recipients ih =>
    rw [wrapKeys] at h
    split at h
    · cases h
    · rename_i wrapped hwrapped
      obtain ⟨rest, hrest, hwraps⟩ := except_bind_eq_ok.mp h
      obtain rfl := Except.ok.inj hwraps
      exact .cons ⟨rfl, rnd.wrapNonce i, rfl, hwrapped⟩ (ih hrest)

/-- Wrapping does not fail where everything is encrypted. -/
theorem exists_wrapKeys (hideal : lib.Ideal) (rnd : SealRandom K) (aad : Bytes) (i : Nat)
    (recipients : List PublicKey) : ∃ wraps, wrapKeys lib rnd aad i recipients = .ok wraps := by
  induction recipients generalizing i with
  | nil => exact ⟨[], rfl⟩
  | cons rpk recipients ih =>
    obtain ⟨wraps, hwraps⟩ := ih (i + 1)
    have henc := hideal.encrypts (deriveWrapKey lib (lib.dh rnd.ephemeral rpk)) (rnd.wrapNonce i)
      rnd.dataKey.1 (aad ++ rpk.1) (by rw [rnd.dataKey.2]; exact hideal.key_le)
    obtain ⟨wrapped, hwrapped⟩ := Option.isSome_iff_exists.mp henc
    refine ⟨⟨rpk.1, wrapped, (rnd.wrapNonce i).1⟩ :: wraps, ?_⟩
    simp only [wrapKeys, hwrapped, hwraps]
    rfl

/-- **What is in a sealed payload.** -/
theorem doSeal_spec {rnd : SealRandom K} {plaintext aad : Bytes} {recipients : List PublicKey}
    {s : Sealed} (h : doSeal lib rnd plaintext recipients aad = .ok s) :
    s.ephemeralPk = (lib.publicKey rnd.ephemeral).1 ∧ s.nonce = rnd.nonce.1 ∧ s.aad = aad ∧
      lib.encrypt rnd.dataKey rnd.nonce plaintext aad = some s.ciphertext ∧
      wrapKeys lib rnd aad 0 recipients = .ok s.recipients := by
  unfold doSeal at h
  split_ifs at h with hnil
  obtain ⟨wraps, hwraps, h⟩ := except_bind_eq_ok.mp h
  split at h
  · cases h
  · rename_i ciphertext hciphertext
    obtain rfl := Except.ok.inj h
    exact ⟨rfl, rfl, rfl, hciphertext, hwraps⟩

/-- **Sealing returns** a sealed payload, if there is a recipient and the plaintext is not too
long. -/
theorem exists_doSeal (hideal : lib.Ideal) (rnd : SealRandom K) {plaintext : Bytes}
    (hlen : plaintext.length ≤ lib.limit) {recipients : List PublicKey} (hne : recipients ≠ [])
    (aad : Bytes) : ∃ s, doSeal lib rnd plaintext recipients aad = .ok s := by
  obtain ⟨wraps, hwraps⟩ := exists_wrapKeys hideal rnd aad 0 recipients
  obtain ⟨ciphertext, hciphertext⟩ := Option.isSome_iff_exists.mp
    (hideal.encrypts rnd.dataKey rnd.nonce plaintext aad hlen)
  refine ⟨⟨.X25519XChaCha20Poly1305, (lib.publicKey rnd.ephemeral).1, wraps, ciphertext, rnd.nonce.1,
    aad⟩, ?_⟩
  rw [doSeal, if_neg hne, hwraps]
  simp only [bind, Except.bind, hciphertext]

/-- Wrapping keys does not panic. -/
theorem wrapKeys_ne_panic (rnd : SealRandom K) (aad : Bytes) (i : Nat)
    (recipients : List PublicKey) : wrapKeys lib rnd aad i recipients ≠ .error .panic := by
  induction recipients generalizing i with
  | nil => exact nofun
  | cons rpk recipients ih =>
    intro h
    rw [wrapKeys] at h
    split at h
    · cases h
    · rcases except_bind_eq_error.mp h with h | ⟨wraps, -, h⟩
      · exact ih (i + 1) h
      · cases h

/-- Sealing does not panic. -/
theorem doSeal_ne_panic (rnd : SealRandom K) (plaintext : Bytes) (recipients : List PublicKey)
    (aad : Bytes) : doSeal lib rnd plaintext recipients aad ≠ .error .panic := by
  intro h
  unfold doSeal at h
  split_ifs at h
  · cases h
  · rcases except_bind_eq_error.mp h with h | ⟨wraps, -, h⟩
    · exact wrapKeys_ne_panic rnd aad 0 recipients h
    · split at h <;> cases h

/-- **Unsealing anything returns**: each conversion comes after a check of the length. -/
theorem doUnseal_ne_panic (s : Sealed) (mySecret : K) (aad : Bytes) :
    doUnseal lib s mySecret aad ≠ .error .panic := by
  intro h
  unfold doUnseal at h
  split_ifs at h with halgo heph hnonce haad
  · cases h
  · cases h
  · cases h
  · cases h
  push Not at heph hnonce
  dsimp only at h
  split at h
  · cases h
  rename_i wrap hwrap
  split_ifs at h with hwrapNonce
  · cases h
  push Not at hwrapNonce
  rw [fromSlice, dif_pos heph, fromSlice, dif_pos hwrapNonce] at h
  change (match lib.decrypt _ _ wrap.wrappedKey _ with
    | none => _
    | some dataKey => _) = _ at h
  split at h
  · cases h
  rename_i dataKey hkey
  split_ifs at h with hlen
  · cases h
  push Not at hlen
  rw [fromSlice, dif_pos hlen, fromSlice, dif_pos hnonce] at h
  change (match lib.decrypt _ _ s.ciphertext _ with
    | none => _
    | some plaintext => _) = _ at h
  split at h <;> cases h

/-! ## Unsealing what was sealed -/

section Unseal

variable {s : Sealed} {sk : K} {aad : Bytes} {eph : Fixed 32} {nonce : Fixed 24}

/-- Another path is refused before anything is decrypted. -/
theorem doUnseal_otherAad (heph : s.ephemeralPk = eph.1) (hnonce : s.nonce = nonce.1)
    (haad : s.aad ≠ aad) : doUnseal lib s sk aad = .error (.error .authFailure) := by
  obtain ⟨⟨⟩, ephemeralPk, recipients, ciphertext, payloadNonce, aad'⟩ := s
  obtain rfl : ephemeralPk = eph.1 := heph
  obtain rfl : payloadNonce = nonce.1 := hnonce
  have hne : aad' ≠ aad := haad
  simp [doUnseal, eph.2, nonce.2, hne]

/-- Without a wrap for the key there is nothing to open. -/
theorem doUnseal_notARecipient (heph : s.ephemeralPk = eph.1) (hnonce : s.nonce = nonce.1)
    (haad : s.aad = aad) (hfor : s.recipientFor (lib.publicKey sk).1 = none) :
    doUnseal lib s sk aad = .error (.error .notARecipient) := by
  have halgo : s.algo = .X25519XChaCha20Poly1305 := by
    cases s.algo
    rfl
  simp [doUnseal, halgo, heph, hnonce, haad, hfor, eph.2, nonce.2]

/-- **Unsealing opens what was wrapped**: with the wrap for the key, the data key, and with the data
key, the payload. -/
theorem doUnseal_wrapped (heph : s.ephemeralPk = eph.1) (hnonce : s.nonce = nonce.1)
    (haad : s.aad = aad) {wrap : RecipientWrap} {wrapNonce : Fixed 24} {dataKey : Fixed 32}
    {plaintext : Bytes} (hfor : s.recipientFor (lib.publicKey sk).1 = some wrap)
    (hwrapNonce : wrap.wrapNonce = wrapNonce.1)
    (hkey : lib.decrypt (deriveWrapKey lib (lib.dh sk eph)) wrapNonce wrap.wrappedKey
      (aad ++ (lib.publicKey sk).1) = some dataKey.1)
    (hpayload : lib.decrypt dataKey nonce s.ciphertext aad = some plaintext) :
    doUnseal lib s sk aad = .ok plaintext := by
  have halgo : s.algo = .X25519XChaCha20Poly1305 := by
    cases s.algo
    rfl
  simp [doUnseal, halgo, heph, hnonce, haad, hfor, hwrapNonce, eph.2, nonce.2, wrapNonce.2,
    fromSlice_eq, hkey, dataKey.2, hpayload, bind, Except.bind]

end Unseal

section Recipients

variable {recipients : List PublicKey} {wraps : List RecipientWrap} {pk : PublicKey}
  {R : PublicKey → RecipientWrap → Prop}

/-- The first wrap for a listed key was made for it. -/
theorem find?_wrap (hwraps : List.Forall₂ R recipients wraps)
    (hpk : ∀ rpk wrap, R rpk wrap → wrap.recipientPk = rpk.1) (hmem : pk ∈ recipients) :
    ∃ wrap, wraps.find? (fun r => r.recipientPk = pk.1) = some wrap ∧ R pk wrap := by
  induction hwraps with
  | nil => cases hmem
  | @cons rpk wrap recipients wraps hwrap hrest ih =>
    by_cases heq : rpk = pk
    · subst heq
      exact ⟨wrap, by simp [hpk _ _ hwrap], hwrap⟩
    · have hne : ¬ wrap.recipientPk = pk.1 := by
        rw [hpk _ _ hwrap]
        exact fun h => heq (Subtype.ext h)
      obtain ⟨found, hfound, hR⟩ := ih (List.mem_of_ne_of_mem (Ne.symm heq) hmem)
      exact ⟨found, by simpa [hne] using hfound, hR⟩

/-- There is no wrap for a key that is not listed. -/
theorem find?_wrap_eq_none (hwraps : List.Forall₂ R recipients wraps)
    (hpk : ∀ rpk wrap, R rpk wrap → wrap.recipientPk = rpk.1) (hmem : pk ∉ recipients) :
    wraps.find? (fun r => r.recipientPk = pk.1) = none := by
  induction hwraps with
  | nil => rfl
  | @cons rpk wrap recipients wraps hwrap hrest ih =>
    rw [List.mem_cons, not_or] at hmem
    have hne : ¬ wrap.recipientPk = pk.1 := by
      rw [hpk _ _ hwrap]
      exact fun h => hmem.1 (Subtype.ext h.symm)
    simpa [hne] using ih hmem.2

end Recipients

section RoundTrip

variable {rnd : SealRandom K} {plaintext aad : Bytes} {recipients : List PublicKey} {s : Sealed}
  {sk : K}

/-- **A listed recipient reads the plaintext.** Its key agrees with the ephemeral one on the key that
wrapped the data key. -/
theorem doUnseal_doSeal (hideal : lib.Ideal) (h : doSeal lib rnd plaintext recipients aad = .ok s)
    (hmem : lib.publicKey sk ∈ recipients) : doUnseal lib s sk aad = .ok plaintext := by
  obtain ⟨heph, hnonce, haad, hciphertext, hwraps⟩ := doSeal_spec h
  obtain ⟨wrap, hfor, -, wrapNonce, hwrapNonce, hwrapped⟩ :=
    find?_wrap (wrapKeys_spec hwraps) (fun _ _ hwrap => hwrap.1) hmem
  rw [hideal.dh_comm rnd.ephemeral sk] at hwrapped
  exact doUnseal_wrapped heph hnonce haad hfor hwrapNonce
    ((hideal.decrypt_iff _ _ _ _ _).mpr hwrapped) ((hideal.decrypt_iff _ _ _ _ _).mpr hciphertext)

/-- Any other key is told that it is not a recipient. -/
theorem doUnseal_doSeal_notARecipient (h : doSeal lib rnd plaintext recipients aad = .ok s)
    (hmem : lib.publicKey sk ∉ recipients) :
    doUnseal lib s sk aad = .error (.error .notARecipient) := by
  obtain ⟨heph, hnonce, haad, -, hwraps⟩ := doSeal_spec h
  exact doUnseal_notARecipient heph hnonce haad
    (find?_wrap_eq_none (wrapKeys_spec hwraps) (fun _ _ hwrap => hwrap.1) hmem)

/-- Any other associated data is refused, whoever asks. -/
theorem doUnseal_doSeal_otherAad (h : doSeal lib rnd plaintext recipients aad = .ok s)
    {aad' : Bytes} (haad' : aad' ≠ aad) : doUnseal lib s sk aad' = .error (.error .authFailure) := by
  obtain ⟨heph, hnonce, haad, -, -⟩ := doSeal_spec h
  exact doUnseal_otherAad heph hnonce fun heq => haad' (heq.symm.trans haad)

end RoundTrip

end Tig
