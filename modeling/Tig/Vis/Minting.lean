import Tig.Vis.Tokens

set_option relaxedAutoImplicit false
set_option autoImplicit false

/-!
# Minting tokens

The holder of a signing key mints a token for its claims: it encodes them, signs what it has encoded
and puts a dot in between. The daemon reads the token back; on the way it copies the signature into
an array of 64 bytes, and a copy between arrays of different lengths panics.

## Main definitions

* `Tig.signToken` — mint a token.
* `Tig.verifyTokenSteps` — verify a token, step by step, with the copy that may panic.

## Main results

* `Tig.verifyTokenSteps_eq` — the copy does not panic: verification returns a result.
* `Tig.splitOnceDot_join` — a token is split where it was put together.
-/

namespace Tig

/-! ## Minting -/

/-- A secret signing key: the 32 bytes of its seed. -/
structure SignSecretKey where
  bytes : Bytes
  length_eq : bytes.length = 32

/-- The parts of minting that come from elsewhere. -/
structure MintLib where
  base64UrlEncode : Bytes → String
  claimsToVec : Claims → Except String Bytes
  publicKey : SignSecretKey → SignPublicKey
  sign : SignSecretKey → Bytes → Signature

/-- Mint a token for the claims. The signature is over the encoded payload. -/
def signToken (mint : MintLib) (claims : Claims) (secret : SignSecretKey) :
    Except VisError String := do
  let payloadJson ← (mint.claimsToVec claims).mapError .json
  let payloadB64 := mint.base64UrlEncode payloadJson
  let sig := mint.sign secret (Utf8.encode payloadB64)
  let sigB64 := mint.base64UrlEncode sig.bytes
  .ok (payloadB64 ++ "." ++ sigB64)

/-! ## Verification that may panic -/

/-- The panic of a copy between slices of different lengths. -/
structure Panic where
  source : Nat
  destination : Nat

/-- Copy a slice over an array of `n` bytes. -/
def copyFromSlice (n : Nat) (src : Bytes) : Except Panic { bytes : Bytes // bytes.length = n } :=
  if h : src.length = n then .ok ⟨src, h⟩ else .error ⟨src.length, n⟩

variable (lib : TokenLib)

/-- Verify a token. The outer result is that of the run, which may panic, the inner one what is
returned. -/
def verifyTokenSteps (token : String) (pubkey : SignPublicKey) (nowUnixSeconds : Nat) :
    Except Panic (Except VisError Claims) :=
  match splitOnceDot token with
  | .error e => .ok (.error e)
  | .ok (payloadB64, sigB64) =>
    match b64urlDecode lib sigB64 with
    | .error e => .ok (.error e)
    | .ok sigBytes =>
      if sigBytes.length ≠ 64 then
        .ok (.error (.crypto ("signature must be 64 bytes, got " ++ toString sigBytes.length)))
      else do
        let sigArr ← copyFromSlice 64 sigBytes
        let sig : Signature := ⟨sigArr.val, sigArr.property⟩
        if lib.verify pubkey (Utf8.encode payloadB64) sig = false then
          .ok (.error .authFailure)
        else
          match claimsOf lib payloadB64 with
          | .error e => .ok (.error e)
          | .ok claims =>
            if claims.isExpired nowUnixSeconds then
              .ok (.error (.crypto ("token expired at " ++ toString claims.exp ++ " (now " ++
                toString nowUnixSeconds ++ ")")))
            else .ok (.ok claims)

/-- **Verification returns a result** whatever the token: the guard before the copy makes the
lengths equal. -/
theorem verifyTokenSteps_eq (token : String) (pubkey : SignPublicKey) (nowUnixSeconds : Nat) :
    verifyTokenSteps lib token pubkey nowUnixSeconds =
      .ok (verifyToken lib token pubkey nowUnixSeconds) := by
  unfold verifyTokenSteps verifyToken
  cases splitOnceDot token with
  | error e => rfl
  | ok parts =>
    obtain ⟨payloadB64, sigB64⟩ := parts
    cases hsig : b64urlDecode lib sigB64 with
    | error e => simp [signatureOf, hsig, bind, Except.bind]
    | ok sigBytes =>
      by_cases hlen : sigBytes.length = 64
      · have hcopy : copyFromSlice 64 sigBytes = .ok ⟨sigBytes, hlen⟩ := dif_pos hlen
        have hsignature : signatureOf lib sigB64 = .ok ⟨sigBytes, hlen⟩ := by
          simp [signatureOf, hsig, hlen, bind, Except.bind]
        simp only [hsig, hlen, hcopy, hsignature, bind, Except.bind, ne_eq, not_true_eq_false, if_false]
        split_ifs with hverify
        · rfl
        · cases claimsOf lib payloadB64 with
          | error e => rfl
          | ok claims => by_cases hexp : claims.isExpired nowUnixSeconds <;> simp [hexp]
      · simp [signatureOf, hsig, hlen, bind, Except.bind]

/-! ## Splitting -/

/-- **A token is split where it was put together**, when there is no dot before. -/
theorem splitOnceDot_join {payload sig : String} (hdot : '.' ∉ payload.toList) (hp : payload ≠ "")
    (hs : sig ≠ "") : splitOnceDot (payload ++ "." ++ sig) = .ok (payload, sig) := by
  have hall : ∀ c ∈ payload.toList, (decide (c ≠ '.')) = true := by
    intro c hc
    refine decide_eq_true fun h => hdot (h ▸ hc)
  have hlist : (payload ++ "." ++ sig).toList = payload.toList ++ '.' :: sig.toList := by
    simp
  have htake : (payload.toList ++ '.' :: sig.toList).takeWhile (· ≠ '.') = payload.toList := by
    rw [List.takeWhile_append_of_pos hall]
    simp
  have hdrop : (payload.toList ++ '.' :: sig.toList).dropWhile (· ≠ '.') = '.' :: sig.toList := by
    rw [List.dropWhile_append_of_pos hall]
    simp
  have hempty : ¬ (payload.toList = [] ∨ sig.toList = []) := by
    simpa using And.intro hp hs
  unfold splitOnceDot
  rw [hlist, htake, hdrop]
  simp only [if_neg hempty, String.ofList_toList]

end Tig
