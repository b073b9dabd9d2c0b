import Tig.Vis.Minting

set_option relaxedAutoImplicit false
set_option autoImplicit false

/-!
# Tokens verify exactly when they were minted

With an ideal signature scheme and exact codecs, a token is accepted exactly when the holder of the
key has minted it for the claims that are read from it, and these have not expired.

## Main definitions

* `Tig.SignedIn` — the signatures that minting tokens for some claims makes.
* `Tig.IdealTokens` — what is assumed of the signature scheme and the codecs.

## Main results

* `Tig.verifyToken_signToken`, `Tig.minted_of_verifyToken` — the two directions.
* `Tig.verifyToken_exact` — **tokens verify exactly when minted and unexpired**.
-/

namespace Tig

/-- Minting tokens for the claims in `minted` signs the message with this signature. -/
def SignedIn (mint : MintLib) (secret : SignSecretKey) (minted : List Claims) (msg : Bytes)
    (sig : Signature) : Prop :=
  ∃ claims ∈ minted, ∃ json, mint.claimsToVec claims = .ok json ∧
    msg = Utf8.encode (mint.base64UrlEncode json) ∧ sig = mint.sign secret msg

/-- The codecs are exact, and exactly the signatures that minting has made with the secret key
verify with its public key. Expiry times are 64-bit words. -/
structure IdealTokens (lib : TokenLib) (mint : MintLib) (secret : SignSecretKey)
    (minted : List Claims) : Prop where
  json_total : ∀ claims : Claims, claims.exp < 2 ^ 64 → ∃ json, mint.claimsToVec claims = .ok json
  json_exact : ∀ claims json, mint.claimsToVec claims = .ok json →
    json ≠ [] ∧ lib.parseClaims json = .ok claims
  base64_exact : ∀ bytes, lib.base64UrlDecode (mint.base64UrlEncode bytes) = .ok bytes
  base64_alphabet : ∀ bytes, '.' ∉ (mint.base64UrlEncode bytes).toList
  base64_empty : ∀ bytes, mint.base64UrlEncode bytes = "" → bytes = []
  ed25519 : ∀ msg sig, lib.verify (mint.publicKey secret) msg sig = true ↔
    SignedIn mint secret minted msg sig

section Ideal

variable {lib : TokenLib} {mint : MintLib} {secret : SignSecretKey} {minted : List Claims}

/-- The claims of an encoded payload are those that it was made from. -/
theorem IdealTokens.claimsOf_encode (h : IdealTokens lib mint secret minted) {claims : Claims}
    {json : Bytes} (hjson : mint.claimsToVec claims = .ok json) :
    claimsOf lib (mint.base64UrlEncode json) = .ok claims := by
  simp [claimsOf, b64urlDecode, h.base64_exact, (h.json_exact claims json hjson).2, Except.mapError,
    bind, Except.bind]

/-- The signature of a token that was minted is read back. -/
theorem IdealTokens.signatureOf_encode (h : IdealTokens lib mint secret minted) (sig : Signature) :
    signatureOf lib (mint.base64UrlEncode sig.bytes) = .ok sig := by
  simp [signatureOf, b64urlDecode, h.base64_exact, Except.mapError, bind, Except.bind,
    sig.length_eq]

/-- **A token that was minted** is accepted until its claims expire. -/
theorem verifyToken_signToken (h : IdealTokens lib mint secret minted) {claims : Claims}
    (hmem : claims ∈ minted) (hexp : claims.exp < 2 ^ 64) (nowUnixSeconds : Nat) :
    ∃ token, signToken mint claims secret = .ok token ∧
      (verifyToken lib token (mint.publicKey secret) nowUnixSeconds = .ok claims ↔
        nowUnixSeconds < claims.exp) := by
  obtain ⟨json, hjson⟩ := h.json_total claims hexp
  refine ⟨mint.base64UrlEncode json ++ "." ++ mint.base64UrlEncode
    (mint.sign secret (Utf8.encode (mint.base64UrlEncode json))).bytes, ?_, ?_⟩
  · simp [signToken, hjson, Except.mapError, bind, Except.bind]
  · -- the token falls into the two parts that it was put together from
    have hsig : ∀ sig : Signature, mint.base64UrlEncode sig.bytes ≠ "" := by
      intro sig hempty
      have hnil := congrArg List.length (h.base64_empty _ hempty)
      rw [sig.length_eq] at hnil
      cases hnil
    have hsplit := splitOnceDot_join (h.base64_alphabet json)
      (fun hempty => (h.json_exact claims json hjson).1 (h.base64_empty json hempty))
      (hsig (mint.sign secret (Utf8.encode (mint.base64UrlEncode json))))
    rw [verifyToken_eq_ok]
    refine ⟨SignedToken.notExpired, fun hnow => ⟨⟨_, _, _, hsplit, h.signatureOf_encode _, ?_,
      h.claimsOf_encode hjson⟩, hnow⟩⟩
    exact (h.ed25519 _ _).mpr ⟨claims, hmem, json, hjson, rfl, rfl⟩

/-- **A token that is accepted** was minted for the claims that are read from it. -/
theorem minted_of_verifyToken (h : IdealTokens lib mint secret minted) {token : String}
    {nowUnixSeconds : Nat} {claims : Claims}
    (hok : verifyToken lib token (mint.publicKey secret) nowUnixSeconds = .ok claims) :
    claims ∈ minted ∧ nowUnixSeconds < claims.exp ∧ peekClaims lib token = .ok claims := by
  have hsigned := verifyToken_eq_ok.mp hok
  refine ⟨?_, hsigned.notExpired, hsigned.peek⟩
  obtain ⟨payloadB64, sigB64, sig, -, -, hverify, hclaims⟩ := hsigned.signed
  obtain ⟨claims', hmem, json, hjson, hmsg, -⟩ := (h.ed25519 _ _).mp hverify
  -- the payload is the one that was signed
  obtain rfl := Utf8.encode_injective hmsg
  obtain rfl := Except.ok.inj ((h.claimsOf_encode hjson).symm.trans hclaims)
  exact hmem

end Ideal

/-- **Tokens verify exactly when minted and unexpired.** A token minted for claims is accepted with
them until they expire. Verifying any text returns a result and does not panic; what it accepts was
minted for the claims that it returns, they have not expired, and looking at the text gives the
same claims, so that the key that is looked up is the one of their subject. -/
theorem verifyToken_exact {lib : TokenLib} {mint : MintLib} {secret : SignSecretKey}
    {minted : List Claims} (h : IdealTokens lib mint secret minted) (nowUnixSeconds : Nat) :
    (∀ claims ∈ minted, claims.exp < 2 ^ 64 → ∃ token, signToken mint claims secret = .ok token ∧
      (verifyToken lib token (mint.publicKey secret) nowUnixSeconds = .ok claims ↔
        nowUnixSeconds < claims.exp)) ∧
    ∀ token : String,
      verifyTokenSteps lib token (mint.publicKey secret) nowUnixSeconds =
        .ok (verifyToken lib token (mint.publicKey secret) nowUnixSeconds) ∧
      ∀ claims, verifyToken lib token (mint.publicKey secret) nowUnixSeconds = .ok claims →
        claims ∈ minted ∧ nowUnixSeconds < claims.exp ∧ peekClaims lib token = .ok claims ∧
        ∀ store : PrincipalStore,
          (peekClaims lib token).bind (fun peeked => store peeked.sub) = store claims.sub := by
  refine ⟨fun claims hmem hexp => verifyToken_signToken h hmem hexp nowUnixSeconds,
    fun token => ⟨verifyTokenSteps_eq lib token _ _, fun claims hok => ?_⟩⟩
  obtain ⟨hmem, hnow, hpeek⟩ := minted_of_verifyToken h hok
  refine ⟨hmem, hnow, hpeek, fun store => ?_⟩
  rw [hpeek]
  rfl

/-! ## The token of alice -/

namespace AliceToken

/-- A secret key, its public key, and its signature of `payload`. -/
def secret : SignSecretKey :=
  ⟨[157, 97, 177, 157, 239, 253, 90, 96, 186, 132, 74, 244, 146, 236, 44, 196, 68, 73, 197, 105,
    123, 50, 105, 25, 112, 59, 172, 3, 28, 174, 127, 96], rfl⟩

def pubkey : SignPublicKey :=
  ⟨[215, 90, 152, 1, 130, 177, 10, 183, 213, 75, 254, 211, 201, 100, 7, 58, 14, 225, 114, 243, 218,
    166, 35, 37, 175, 2, 26, 104, 247, 7, 81, 26], rfl⟩

def sig : Signature :=
  ⟨[5, 164, 129, 97, 172, 178, 47, 82, 47, 146, 23, 58, 194, 204, 156, 219, 47, 165, 181, 70, 100,
    189, 3, 230, 98, 4, 5, 254, 139, 62, 193, 194, 11, 72, 58, 137, 217, 209, 231, 189, 38, 254, 238,
    59, 204, 47, 53, 141, 27, 173, 111, 39, 69, 169, 77, 59, 226, 233, 85, 153, 180, 56, 237, 2], rfl⟩

def claims : Claims := ⟨"alice", 1700000000⟩

/-- `{"sub":"alice","exp":1700000000}`, and its base64 form. -/
def json : Bytes :=
  [123, 34, 115, 117, 98, 34, 58, 34, 97, 108, 105, 99, 101, 34, 44, 34, 101, 120, 112, 34, 58, 49,
    55, 48, 48, 48, 48, 48, 48, 48, 48, 125]

def payload : String := "eyJzdWIiOiJhbGljZSIsImV4cCI6MTcwMDAwMDAwMH0"

def sigText : String :=
  "BaSBYayyL1Ivkhc6wsyc2y-ltUZkvQPmYgQF_os-wcILSDqJ2dHnvSb-7jvMLzWNG61vJ0WpTTvi6VWZtDjtAg"

/-- Bytes other than those of the token are written with one character each. -/
def encode (bytes : Bytes) : String :=
  if bytes = json then payload
  else if bytes = sig.bytes then sigText
  else String.ofList (bytes.map fun b => Char.ofNat (b.toNat + 256))

def decode (text : String) : Except String Bytes :=
  if text = payload then .ok json
  else if text = sigText then .ok sig.bytes
  else if text.toList.all fun c => 256 ≤ c.toNat && c.toNat < 512 then
    .ok (text.toList.map fun c => UInt8.ofNat (c.toNat - 256))
  else .error "Invalid byte"

/-- Claims other than those of alice are written with the length of the subject before it and as
many bytes behind it as seconds. -/
def toVec (c : Claims) : Bytes :=
  if c = claims then json
  else 0 :: (List.replicate (Utf8.encode c.sub).length 1 ++ 0 :: (Utf8.encode c.sub ++
    List.replicate c.exp 1))

def parse (bytes : Bytes) : Except String Claims :=
  if bytes = json then .ok claims
  else
    let length := ((bytes.drop 1).takeWhile (· = 1)).length
    let rest := bytes.drop (length + 2)
    match Utf8.decode (rest.take length) with
    | some sub => .ok ⟨sub, (rest.drop length).length⟩
    | none => .error "expected value at line 1 column 1"

def lib : TokenLib where
  base64UrlDecode := decode
  parseClaims := parse
  hexDecode _ := .error "Odd number of digits"
  verify key msg s :=
    decide (key.bytes = pubkey.bytes ∧ msg = Utf8.encode payload ∧ s.bytes = sig.bytes)

def mint : MintLib where
  base64UrlEncode := encode
  claimsToVec c := .ok (toVec c)
  publicKey key := if key.bytes = secret.bytes then pubkey else ⟨List.replicate 32 0, rfl⟩
  sign key msg :=
    if key.bytes = secret.bytes ∧ msg = Utf8.encode payload then sig
    else ⟨List.replicate 64 0, rfl⟩

theorem char_toNat (b : UInt8) : (Char.ofNat (b.toNat + 256)).toNat = b.toNat + 256 := by
  have hb := b.toNat_lt
  have hvalid : (b.toNat + 256).isValidChar := Or.inl (by omega)
  rw [Char.ofNat, dif_pos hvalid]
  rfl

/-- What is written with one character for each byte is neither of the two texts of the token. -/
theorem ofList_ne {bytes : Bytes} {text : String} (c : Char) (rest : List Char)
    (htext : text.toList = c :: rest) (hc : c.toNat < 256) :
    String.ofList (bytes.map fun b => Char.ofNat (b.toNat + 256)) ≠ text := by
  intro heq
  have hlist := congrArg String.toList heq
  rw [String.toList_ofList, htext] at hlist
  cases bytes with
  | nil => cases hlist
  | cons b bytes =>
    have hhead : Char.ofNat (b.toNat + 256) = c := (List.cons.inj hlist).1
    have := char_toNat b
    rw [hhead] at this
    omega

theorem decode_encode (bytes : Bytes) : decode (encode bytes) = .ok bytes := by
  unfold encode
  split_ifs with hjson hsig
  · rw [hjson]
    rfl
  · rw [hsig]
    rfl
  · have hp : String.ofList (bytes.map fun b => Char.ofNat (b.toNat + 256)) ≠ payload :=
      ofList_ne 'e' _ rfl (by decide)
    have hs : String.ofList (bytes.map fun b => Char.ofNat (b.toNat + 256)) ≠ sigText :=
      ofList_ne 'B' _ rfl (by decide)
    rw [decode, if_neg hp, if_neg hs, if_pos, String.toList_ofList, List.map_map]
    · refine congrArg Except.ok ((List.map_congr_left fun b _ => ?_).trans (List.map_id bytes))
      simp [char_toNat]
    · rw [String.toList_ofList, List.all_map, List.all_eq_true]
      intro b _
      have hb := b.toNat_lt
      simp only [Function.comp_apply, char_toNat, Bool.and_eq_true, decide_eq_true_eq]
      omega

theorem dot_not_mem (bytes : Bytes) : '.' ∉ (encode bytes).toList := by
  unfold encode
  split_ifs
  · decide
  · decide
  · rw [String.toList_ofList, List.mem_map]
    rintro ⟨b, -, hb⟩
    have := char_toNat b
    rw [hb] at this
    simp at this

theorem parse_toVec (c : Claims) : parse (toVec c) = .ok c := by
  unfold toVec
  split_ifs with hc
  · rw [hc]
    rfl
  · have hne : (0 :: (List.replicate (Utf8.encode c.sub).length 1 ++ 0 :: (Utf8.encode c.sub ++
        List.replicate c.exp 1)) : Bytes) ≠ json := by
      intro h
      cases (List.cons.inj h).1
    have htake : (List.replicate (Utf8.encode c.sub).length 1 ++ 0 :: (Utf8.encode c.sub ++
        List.replicate c.exp 1) : Bytes).takeWhile (· = 1) =
        List.replicate (Utf8.encode c.sub).length 1 := by
      rw [List.takeWhile_append_of_pos (by simp)]
      simp
    have hlen : (List.replicate (Utf8.encode c.sub).length (1 : UInt8)).length =
        (Utf8.encode c.sub).length := List.length_replicate
    have hrest : (0 :: (List.replicate (Utf8.encode c.sub).length 1 ++ 0 :: (Utf8.encode c.sub ++
        List.replicate c.exp 1)) : Bytes).drop ((Utf8.encode c.sub).length + 2) =
        Utf8.encode c.sub ++ List.replicate c.exp 1 := by
      rw [List.drop_succ_cons, List.drop_append, hlen]
      simp
    rw [parse, if_neg hne]
    simp only [List.drop_one, List.tail_cons, htake, hlen, hrest, List.take_left', List.drop_left',
      Utf8.decode_encode, List.length_replicate]

theorem idealTokens : IdealTokens lib mint secret [claims] where
  json_total c _ := ⟨toVec c, rfl⟩
  json_exact c json hjson := by
    obtain rfl := Except.ok.inj hjson
    refine ⟨?_, parse_toVec c⟩
    unfold toVec
    split_ifs <;> simp [json]
  base64_exact := decode_encode
  base64_alphabet := dot_not_mem
  base64_empty bytes hempty := by
    have h := decode_encode bytes
    rw [show encode bytes = "" from hempty] at h
    exact (Except.ok.inj h).symm
  ed25519 msg s := by
    have hpayload : encode (toVec claims) = payload := by
      rw [toVec, if_pos rfl, encode, if_pos rfl]
    have hkey : mint.publicKey secret = pubkey := by simp [mint]
    have hsign : mint.sign secret (Utf8.encode payload) = sig := by simp [mint]
    have hbytes : s.bytes = sig.bytes ↔ s = sig := by
      obtain ⟨bytes, hlen⟩ := s
      simp [sig]
    simp only [SignedIn, List.mem_singleton, exists_eq_left, lib, hkey, decide_eq_true_eq, true_and,
      hbytes]
    constructor
    · rintro ⟨rfl, rfl⟩
      exact ⟨toVec claims, rfl, congrArg Utf8.encode hpayload.symm, hsign.symm⟩
    · rintro ⟨json, hjson, rfl, rfl⟩
      obtain rfl := Except.ok.inj hjson
      show Utf8.encode (encode (toVec claims)) = _ ∧ mint.sign secret (Utf8.encode
        (encode (toVec claims))) = _
      rw [hpayload]
      exact ⟨rfl, hsign⟩

end AliceToken

/-- The token of alice is accepted in the second before it expires, and not in the next. -/
theorem verifyToken_alice : ∃ token, signToken AliceToken.mint AliceToken.claims AliceToken.secret =
      .ok token ∧
    (verifyToken AliceToken.lib token (AliceToken.mint.publicKey AliceToken.secret) 1699999999 =
      .ok AliceToken.claims ↔ 1699999999 < 1700000000) :=
  (verifyToken_exact AliceToken.idealTokens 1699999999).1 AliceToken.claims
    (List.mem_singleton_self _) (by decide)

end Tig
