import Mathlib.Data.String.Basic
import Tig.Core.Change
import Tig.Lib.Utf8

set_option relaxedAutoImplicit false
set_option autoImplicit false

/-!
# Bearer tokens

A token is a payload and a signature over it, both in base64url and separated by a dot. The
payload names a principal and a time of expiry. The signature is checked against the key that the
registry holds for the principal, so the payload is looked at once before it is verified.

The signature scheme, base64, hexadecimal and JSON come from elsewhere: they are parameters.

## Main definitions

* `Tig.Claims`, `Tig.peekClaims`, `Tig.verifyToken` — tokens and how they are read.
* `Tig.Principal.signPubkey` — the signing key that a registry entry holds.

## Main results

* `Tig.verifyToken_eq_ok` — a token that is accepted is signed and has not expired.
-/

namespace Tig

/-! ## Errors -/

/-- The errors of the identity layer. -/
inductive VisError where
  | io (msg : String)
  | json (msg : String)
  | hex (msg : String)
  | crypto (msg : String)
  | identityNotFound (id : String)
  | secretMissing (id : String)
  | notARecipient
  | authFailure
  | unsupportedAlgo
  | malformedSealed (msg : String)
deriving DecidableEq, Repr

/-- The text of an error, as its `Display` prints it. -/
def VisError.toText : VisError → String
  | .io msg => "io: " ++ msg
  | .json msg => "json: " ++ msg
  | .hex msg => "hex: " ++ msg
  | .crypto msg => "crypto: " ++ msg
  | .identityNotFound id => "identity not found: " ++ id
  | .secretMissing id => "identity " ++ id ++ " has no secret key — cannot decrypt or sign as them"
  | .notARecipient => "not a recipient of this sealed value"
  | .authFailure =>
      "sealed payload integrity check failed (wrong key, wrong path, or tampered ciphertext)"
  | .unsupportedAlgo => "unsupported sealing algorithm"
  | .malformedSealed msg => "malformed sealed object: " ++ msg

/-! ## Keys and the registry -/

/-- What a token says: who, and until when (in seconds). -/
structure Claims where
  sub : String
  exp : Nat
deriving DecidableEq, Repr

/-- Has the token expired? -/
def Claims.isExpired (c : Claims) (nowUnixSeconds : Nat) : Bool := c.exp ≤ nowUnixSeconds

/-- A public signing key: 32 bytes. -/
structure SignPublicKey where
  bytes : Bytes
  length_eq : bytes.length = 32

/-- A signature: 64 bytes. -/
structure Signature where
  bytes : Bytes
  length_eq : bytes.length = 64

/-- The parts of the token format that come from elsewhere. -/
structure TokenLib where
  base64UrlDecode : String → Except String Bytes
  parseClaims : Bytes → Except String Claims
  hexDecode : String → Except String Bytes
  verify : SignPublicKey → Bytes → Signature → Bool

/-- A principal of the registry, with the hexadecimal form of its signing key if it has one. -/
structure Principal where
  id : String
  signPubkeyHex : Option String
deriving DecidableEq, Repr

/-- The registry: what reading the record of a name comes to. -/
abbrev PrincipalStore := String → Except VisError Principal

variable (lib : TokenLib)

/-- A signing key in hexadecimal. -/
def SignPublicKey.fromHex (s : String) : Except VisError SignPublicKey := do
  let bytes ← (lib.hexDecode s).mapError .hex
  if h : bytes.length = 32 then
    .ok ⟨bytes, h⟩
  else
    .error (.crypto ("expected 32-byte Ed25519 public key, got " ++ toString bytes.length ++
      " bytes"))

/-- The signing key of a principal. -/
def Principal.signPubkey (p : Principal) : Except VisError SignPublicKey :=
  match p.signPubkeyHex with
  | none => .error (.secretMissing (p.id ++ " (no sign pubkey)"))
  | some s => SignPublicKey.fromHex lib s

/-! ## Tokens -/

/-- The error of a token that has no two parts. -/
def malformed : VisError := .crypto "malformed token (expected payload.signature)"

/-- Split a token at its first dot; neither part may be empty. -/
def splitOnceDot (token : String) : Except VisError (String × String) :=
  let payload := token.toList.takeWhile (· ≠ '.')
  match token.toList.dropWhile (· ≠ '.') with
  | [] => .error malformed
  | _ :: sig =>
    if payload = [] ∨ sig = [] then .error malformed
    else .ok (String.ofList payload, String.ofList sig)

/-- Decode base64url. -/
def b64urlDecode (s : String) : Except VisError Bytes :=
  (lib.base64UrlDecode s).mapError fun e => .crypto ("base64url: " ++ e)

/-- Read the claims of a payload. -/
def claimsOf (payloadB64 : String) : Except VisError Claims := do
  let payloadBytes ← b64urlDecode lib payloadB64
  (lib.parseClaims payloadBytes).mapError .json

/-- Read the signature of a token. -/
def signatureOf (sigB64 : String) : Except VisError Signature := do
  let sigBytes ← b64urlDecode lib sigB64
  if h : sigBytes.length = 64 then
    .ok ⟨sigBytes, h⟩
  else
    .error (.crypto ("signature must be 64 bytes, got " ++ toString sigBytes.length))

/-- Read the claims of a token without looking at its signature. -/
def peekClaims (token : String) : Except VisError Claims := do
  let (payloadB64, _) ← splitOnceDot token
  claimsOf lib payloadB64

/-- Decode a token and check signature and expiry. The signature is over the encoded payload. -/
def verifyToken (token : String) (pubkey : SignPublicKey) (nowUnixSeconds : Nat) :
    Except VisError Claims := do
  let (payloadB64, sigB64) ← splitOnceDot token
  let sig ← signatureOf lib sigB64
  if lib.verify pubkey (Utf8.encode payloadB64) sig = false then
    .error .authFailure
  else
    let claims ← claimsOf lib payloadB64
    if claims.isExpired nowUnixSeconds then
      .error (.crypto ("token expired at " ++ toString claims.exp ++ " (now " ++
        toString nowUnixSeconds ++ ")"))
    else
      .ok claims

/-! ## What a token that is accepted says -/

/-- A token that carries the claims, signed with the key, and has not expired. -/
structure SignedToken (token : String) (pubkey : SignPublicKey) (nowUnixSeconds : Nat)
    (claims : Claims) : Prop where
  signed : ∃ payloadB64 sigB64 sig, splitOnceDot token = .ok (payloadB64, sigB64) ∧
    signatureOf lib sigB64 = .ok sig ∧ lib.verify pubkey (Utf8.encode payloadB64) sig = true ∧
    claimsOf lib payloadB64 = .ok claims
  notExpired : nowUnixSeconds < claims.exp

variable {lib}

/-- **A token is accepted** exactly when it is signed and has not expired. -/
theorem verifyToken_eq_ok {token : String} {pubkey : SignPublicKey} {nowUnixSeconds : Nat}
    {claims : Claims} : verifyToken lib token pubkey nowUnixSeconds = .ok claims ↔
      SignedToken lib token pubkey nowUnixSeconds claims := by
  constructor
  · intro h
    unfold verifyToken at h
    cases hsplit : splitOnceDot token with
    | error e => simp [hsplit, bind, Except.bind] at h
    | ok parts =>
      obtain ⟨payloadB64, sigB64⟩ := parts
      cases hsig : signatureOf lib sigB64 with
      | error e => simp [hsplit, hsig, bind, Except.bind] at h
      | ok sig =>
        simp only [hsplit, hsig, bind, Except.bind] at h
        split_ifs at h with hverify
        cases hclaims : claimsOf lib payloadB64 with
        | error e => simp [hclaims] at h
        | ok claims' =>
          simp only [hclaims] at h
          split_ifs at h with hexp
          obtain rfl := Except.ok.inj h
          refine ⟨⟨payloadB64, sigB64, sig, hsplit, hsig, by simpa using hverify, hclaims⟩, ?_⟩
          simpa [Claims.isExpired] using hexp
  · rintro ⟨⟨payloadB64, sigB64, sig, hsplit, hsig, hverify, hclaims⟩, hexp⟩
    have hnot : claims.isExpired nowUnixSeconds = false := by simpa [Claims.isExpired] using hexp
    simp [verifyToken, hsplit, hsig, hverify, hclaims, hnot, bind, Except.bind]

/-- Verifying a token reads the same claims as looking at them. -/
theorem SignedToken.peek {token : String} {pubkey : SignPublicKey} {nowUnixSeconds : Nat}
    {claims : Claims} (h : SignedToken lib token pubkey nowUnixSeconds claims) :
    peekClaims lib token = .ok claims := by
  obtain ⟨payloadB64, sigB64, sig, hsplit, -, -, hclaims⟩ := h.signed
  simp only [peekClaims, hsplit, bind, Except.bind]
  exact hclaims

end Tig
