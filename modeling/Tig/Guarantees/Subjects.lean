import Tig.Guarantees.Callers
import Tig.Vis.PrincipalFiles

set_option relaxedAutoImplicit false
set_option autoImplicit false

/-!
# What the subject of a token is bound to

The subject of a token is text that its sender has chosen. It is joined to the path of the registry,
and the record that lies there verifies the token; the caller is then the text, not the id of the
record. No text is the only one for its record: a dot more in the path leads to the same file.

Among the ids that can be registered there is one for each record, and there the caller is the id of
the record whose key has verified the token.

## Main definitions

* `Tig.Signer` — the record whose key has verified a token.
* `Tig.SubjectBound` — the caller is the id of that record, and the only text for it.

## Main results

* `Tig.subject_not_bound` — no accepted token has a bound subject; one that can be registered is the
  id of the record that has verified the token.
* `Tig.subject_secondName` — alice's key signs for `./alice`.
-/

namespace Tig

open Program

variable {H R : Type}

/-- The daemon over a registry on disk. -/
def KeysDisk.server (disk : KeysDisk) (codec : PrincipalCodec R) (tokens : TokenLib) : Server where
  tokens := tokens
  principals := disk.store codec

/-- `record` is what the registry has for `p`, and its signing key verifies the token of the
`Authorization` header, which names `p` and has not expired. -/
def Signer (disk : KeysDisk) (codec : PrincipalCodec R) (tokens : TokenLib) (headers : HeaderMap)
    (nowUnixSeconds : Nat) (p : PrincipalId) (record : R) : Prop :=
  disk.get codec p = .ok record ∧ ∃ auth token pubkey claims,
    headers.getStr AUTH_HEADER = some auth ∧ bearerToken auth = some token ∧
      (codec.principal record).signPubkey tokens = .ok pubkey ∧
      SignedToken tokens token pubkey nowUnixSeconds claims ∧ claims.sub = p

/-- The caller can be registered, is the id of the record, and is the only text that leads to the
place of the record. -/
structure SubjectBound (disk : KeysDisk) (codec : PrincipalCodec R) (p : PrincipalId)
    (record : R) : Prop where
  valid : validateId p = .ok ()
  id_eq : (codec.principal record).id = p
  only : ∀ q, disk.place q = disk.place p → q = p

/-- The caller that a readable `Authorization` header gives has a signer. -/
theorem signer_of_callerFrom {disk : KeysDisk} {codec : PrincipalCodec R} {tokens : TokenLib}
    {headers : HeaderMap} {auth : String} (hauth : headers.getStr AUTH_HEADER = some auth)
    {w w' : World H} {p : PrincipalId}
    (hrun : callerFrom (disk.server codec tokens) headers w = .ok p w') :
    ∃ record, Signer disk codec tokens headers w.requestTime p record := by
  rw [callerFrom, hauth] at hrun
  obtain ⟨auth', token, principal, pubkey, claims, hauth', htoken, hget, hkey, hsigned, hsub⟩ :=
    ((bearerCaller_spec hauth).ok hrun).signed
  cases hrecord : disk.get codec p with
  | error e =>
    rw [show (disk.server codec tokens).principals p = (disk.get codec p).map codec.principal
      from rfl, hrecord] at hget
    cases hget
  | ok record =>
    rw [show (disk.server codec tokens).principals p = (disk.get codec p).map codec.principal
      from rfl, hrecord] at hget
    obtain rfl := Except.ok.inj hget
    exact ⟨record, hrecord, auth', token, pubkey, claims, hauth', htoken, hkey, hsigned, hsub⟩

/-- The caller of a token with a signer is accepted, if the registry can be read. -/
theorem callerFrom_of_signer {disk : KeysDisk} {codec : PrincipalCodec R} {tokens : TokenLib}
    {headers : HeaderMap} {w : World H} {p : PrincipalId} {record : R}
    (h : Signer disk codec tokens headers w.requestTime p record)
    (hread : w.env.failure .registryRead (w.ticks .registryRead) = none) :
    ∃ w', callerFrom (disk.server codec tokens) headers w = .ok p w' := by
  obtain ⟨hget, auth, token, pubkey, claims, hauth, htoken, hkey, hsigned, rfl⟩ := h
  have hstore : (disk.server codec tokens).principals claims.sub = .ok (codec.principal record) := by
    rw [show (disk.server codec tokens).principals claims.sub =
      (disk.get codec claims.sub).map codec.principal from rfl, hget]
    rfl
  have hpeek : peekClaims (disk.server codec tokens).tokens token = .ok claims := hsigned.peek
  have hpost : Post (callerFrom (disk.server codec tokens) headers) w
      (fun p _ => p = claims.sub) (fun _ _ => False) := by
    rw [callerFrom, hauth]
    dsimp only
    rw [bearerCaller, htoken]
    dsimp only
    rw [hpeek]
    rw [post_bind, post_fromExcept]
    refine ⟨fun peeked hpeeked => ?_, fun e he => by cases he⟩
    obtain rfl := Except.ok.inj hpeeked
    rw [post_bind, post_adaptExcept, post_step]
    refine ⟨fun _ => ?_, fun e he => by rw [hread] at he; cases he⟩
    rw [hstore, post_bind, post_fromExcept]
    refine ⟨fun principal hprincipal => ?_, fun e he => by cases he⟩
    obtain rfl := Except.ok.inj hprincipal
    rw [show (codec.principal record).signPubkey (disk.server codec tokens).tokens = .ok pubkey
      from hkey, post_bind, post_fromExcept]
    refine ⟨fun key hpubkey => ?_, fun e he => by cases he⟩
    obtain rfl := Except.ok.inj hpubkey
    rw [post_bind, nowUnixSeconds, post_bind, engine, post_adaptExcept, post_currentTimestampNs,
      post_pure, post_bind]
    have hverify : verifyToken (disk.server codec tokens).tokens token pubkey
        ((w.tick .registryRead).env.now (w.tick .registryRead).clock / 1000000000) = .ok claims :=
      verifyToken_eq_ok.mpr hsigned
    rw [hverify]
    rfl
  obtain ⟨p, w', hrun, rfl⟩ := hpost.exists_ok
  exact ⟨w', hrun⟩

/-- **No accepted token has a bound subject.** For a registry made by writing records, on any disk:
the caller that a token gives has a record whose key verifies it, but is never the only text for
that record. It can be registered exactly when it is the id of the record as well, and then it is
the only one of the ids that can be registered that leads there. -/
theorem subject_not_bound {disk : KeysDisk} {codec : PrincipalCodec R} (hexact : codec.Exact)
    {keysLoc : Location} {dir : WorkingCopy}
    (hwalk : walk disk.root disk.links [] disk.keys = .ok keysLoc)
    (hdir : dirOf disk.root keysLoc = some dir) (hkeys : KeysDir codec dir) (tokens : TokenLib)
    {headers : HeaderMap} {auth : String} (hauth : headers.getStr AUTH_HEADER = some auth)
    {w w' : World H} {p : PrincipalId}
    (hrun : callerFrom (disk.server codec tokens) headers w = .ok p w') :
    ∃ record, Signer disk codec tokens headers w.requestTime p record ∧
      ¬ SubjectBound disk codec p record ∧
      ((validateId p = .ok () ∧ (codec.principal record).id = p ∧
        ∀ q, validateId q = .ok () → disk.place q = disk.place p → q = p) ↔
          validateId p = .ok ()) := by
  obtain ⟨record, hsigner⟩ := signer_of_callerFrom hauth hrun
  refine ⟨record, hsigner, fun h => ?_, fun h => h.1, fun hvalid => ⟨hvalid, ?_, ?_⟩⟩
  · exact respelled_ne p (h.only _ (disk.place_respelled p))
  · exact KeysDisk.get_valid hwalk hdir hkeys hvalid hexact hsigner.1
  · intro q hq hplace
    obtain ⟨bytes, hread, -⟩ := KeysDisk.get_eq_ok.mp hsigner.1
    have hnul := KeysDisk.checkNul_of_readRecord hread
    rw [KeysDisk.place_valid hwalk hdir hkeys hvalid hnul] at hplace
    obtain ⟨_, hnul', -⟩ := except_bind_eq_ok.mp hplace
    rw [KeysDisk.place_valid hwalk hdir hkeys hq hnul'] at hplace
    have hname := (Spot.entry.inj (Prod.mk.inj (Except.ok.inj hplace)).1).2
    exact recordName_injective (Utf8.encode_injective hname)

/-! ## A second name for alice -/

namespace DottedAlice

def pubkeyBytes : Bytes :=
  [215, 90, 152, 1, 130, 177, 10, 183, 213, 75, 254, 211, 201, 100, 7, 58, 14, 225, 114, 243, 218,
    166, 35, 37, 175, 2, 26, 104, 247, 7, 81, 26]

def pubkey : SignPublicKey := ⟨pubkeyBytes, rfl⟩

def pubkeyHex : String := "d75a980182b10ab7d54bfed3c964073a0ee172f3daa62325af021a68f707511a"

/-- The record of alice. -/
def alice : Principal := ⟨"alice", some pubkeyHex⟩

/-- The record of alice as it is written. -/
def record : Bytes := 123 :: Utf8.encode
  ("\n  \"id\": \"alice\",\n  \"kind\": \"User\",\n  \"pubkey\": " ++
    "\"8520f0098930a754748b7ddcb43ef75a0dbf3a0d26381af4eba4a98eaa9b4e6a\",\n" ++
    "  \"sign_pubkey_hex\": \"" ++ pubkeyHex ++ "\"\n\x7d")

/-- Other records are written with a zero before them. -/
def wire : Wire Principal :=
  (Wire.string.pair (Wire.option Wire.string)).map (fun p => (p.id, p.signPubkeyHex))
    (fun t => ⟨t.1, t.2⟩) fun _ => rfl

def toVecPretty (p : Principal) : Bytes := if p = alice then record else 0 :: wire.encodeBytes p

def fromSlice (bytes : Bytes) : Except String Principal :=
  if bytes = record then .ok alice
  else
    match bytes with
    | 0 :: rest =>
      match wire.decodeBytes rest with
      | some p => .ok p
      | none => .error "expected value at line 1 column 1"
    | _ => .error "expected value at line 1 column 1"

def codec : PrincipalCodec Principal where
  principal p := p
  toVecPretty := toVecPretty
  fromSlice := fromSlice

theorem codec_exact : codec.Exact := by
  intro p
  change fromSlice (toVecPretty p) = .ok p
  by_cases hp : p = alice
  · have hread : fromSlice record = .ok alice := by
      unfold fromSlice
      exact if_pos rfl
    rw [hp, toVecPretty, if_pos rfl, hread]
  · have hne : 0 :: wire.encodeBytes p ≠ record := by
      intro h
      exact absurd (List.cons.inj h).1 (by decide)
    rw [toVecPretty, if_neg hp, fromSlice, if_neg hne]
    simp

def sig : Signature :=
  ⟨[23, 61, 28, 188, 2, 191, 39, 161, 56, 56, 10, 242, 41, 2, 154, 81, 206, 109, 157, 151, 58, 10,
    228, 114, 13, 219, 18, 205, 194, 54, 204, 209, 207, 192, 245, 27, 95, 194, 229, 210, 11, 112,
    102, 14, 168, 14, 123, 2, 8, 120, 81, 87, 37, 218, 21, 144, 113, 26, 64, 47, 167, 253, 125, 13],
    rfl⟩

/-- `{"sub":"./alice","exp":1700000000}`, and its base64 form. -/
def json : Bytes :=
  [123, 34, 115, 117, 98, 34, 58, 34, 46, 47, 97, 108, 105, 99, 101, 34, 44, 34, 101, 120, 112, 34,
    58, 49, 55, 48, 48, 48, 48, 48, 48, 48, 48, 125]

def payload : String := "eyJzdWIiOiIuL2FsaWNlIiwiZXhwIjoxNzAwMDAwMDAwfQ"

def sigText : String :=
  "Fz0cvAK_J6E4OAryKQKaUc5tnZc6CuRyDdsSzcI2zNHPwPUbX8Ll0gtwZg6oDnsCCHhRVyXaFZBxGkAvp_19DQ"

def tokens : TokenLib where
  base64UrlDecode text :=
    if text = payload then .ok json else if text = sigText then .ok sig.bytes
    else .error "Invalid byte"
  parseClaims bytes :=
    if bytes = json then .ok ⟨"./alice", 1700000000⟩
    else .error "expected value at line 1 column 1"
  hexDecode s := if s = pubkeyHex then .ok pubkey.bytes else .error "Odd number of digits"
  verify key msg s :=
    decide (key.bytes = pubkey.bytes ∧ msg = Utf8.encode payload ∧ s.bytes = sig.bytes)

/-- The directory of a registry that alice was put into. -/
def dir : WorkingCopy := putRecord codec alice []

theorem put_alice : putPrincipal codec alice [] = .ok dir := rfl

theorem keysDir : KeysDir codec dir := .put .empty put_alice

/-- A disk with the registry at `/repo/vis/keys`. -/
def disk : KeysDisk where
  root := [(Utf8.encode "repo", .dir [(Utf8.encode "vis", .dir [(Utf8.encode "keys", .dir dir)])])]
  links := 40
  keys := [Utf8.encode "repo", Utf8.encode "vis", Utf8.encode "keys"]
  special _ := .error (.io "Invalid argument (os error 22)")

/-- The value of the header. -/
def value : String := "Bearer " ++ payload ++ "." ++ sigText

/-- A request with the token. -/
def headers : HeaderMap :=
  [(AUTH_HEADER, ⟨Utf8.encode value, by decide +kernel⟩)]

theorem getStr_headers : headers.getStr AUTH_HEADER = some value := by
  decide +kernel

theorem place_alice : disk.place "./alice" =
    .ok (.entry [Utf8.encode "repo", Utf8.encode "vis", Utf8.encode "keys"]
      (Utf8.encode "alice.json"), false) := by
  decide +kernel

theorem get_alice : disk.get codec "./alice" = .ok alice := by
  refine KeysDisk.get_eq_ok.mpr ⟨codec.toVecPretty alice, ?_, codec_exact alice⟩
  rw [KeysDisk.readRecord, place_alice]
  rfl

theorem signPubkey_alice : alice.signPubkey tokens = .ok pubkey := by
  have hhex : tokens.hexDecode pubkeyHex = .ok pubkey.bytes := by decide +kernel
  change SignPublicKey.fromHex tokens pubkeyHex = .ok pubkey
  rw [SignPublicKey.fromHex, hhex]
  rfl

theorem signatureOf_sigText : signatureOf tokens sigText = .ok sig := by
  have hdecode : tokens.base64UrlDecode sigText = .ok sig.bytes := by decide +kernel
  rw [signatureOf, b64urlDecode, hdecode]
  rfl

theorem bearerToken_value : bearerToken value = some (payload ++ "." ++ sigText) := by
  decide +kernel

theorem signed_alice : SignedToken tokens (payload ++ "." ++ sigText) pubkey
    (World.fresh .calm : World PlainHash).requestTime ⟨"./alice", 1700000000⟩ where
  signed := ⟨payload, sigText, sig, by decide +kernel, signatureOf_sigText, by decide +kernel,
    by decide +kernel⟩
  notExpired := by decide

theorem signer : Signer disk codec tokens headers
    (World.fresh .calm : World PlainHash).requestTime "./alice" alice :=
  ⟨get_alice, value, payload ++ "." ++ sigText, pubkey, ⟨"./alice", 1700000000⟩, getStr_headers,
    bearerToken_value, signPubkey_alice, signed_alice, rfl⟩

/-- Where the registry lies on the disk. -/
theorem walk_keys : walk disk.root disk.links [] disk.keys = .ok disk.keys := by
  decide +kernel

theorem dirOf_keys : dirOf disk.root disk.keys = some dir := rfl

end DottedAlice

/-- Alice's token is accepted for her second name. -/
theorem subject_not_bound_alice : ∃ w', callerFrom
      (DottedAlice.disk.server DottedAlice.codec DottedAlice.tokens) DottedAlice.headers
        (World.fresh .calm : World PlainHash) = .ok "./alice" w' ∧
    ∃ record, Signer DottedAlice.disk DottedAlice.codec DottedAlice.tokens DottedAlice.headers
        (World.fresh .calm : World PlainHash).requestTime "./alice" record ∧
      ¬ SubjectBound DottedAlice.disk DottedAlice.codec "./alice" record ∧
      ((validateId "./alice" = .ok () ∧ (DottedAlice.codec.principal record).id = "./alice" ∧
        ∀ q, validateId q = .ok () →
          DottedAlice.disk.place q = DottedAlice.disk.place "./alice" → q = "./alice") ↔
        validateId "./alice" = .ok ()) := by
  obtain ⟨w', hrun⟩ := callerFrom_of_signer DottedAlice.signer rfl
  exact ⟨w', hrun, subject_not_bound DottedAlice.codec_exact DottedAlice.walk_keys
    DottedAlice.dirOf_keys DottedAlice.keysDir DottedAlice.tokens DottedAlice.getStr_headers hrun⟩

/-- **Alice's key signs for a second name.** The registry has one record, of alice. A token for
`./alice` that her key has signed is accepted: the caller cannot be registered, is not the id of the
record, and leads to the same file as `alice`. -/
theorem subject_secondName : ∃ w', callerFrom
      (DottedAlice.disk.server DottedAlice.codec DottedAlice.tokens) DottedAlice.headers
        (World.fresh .calm : World PlainHash) = .ok "./alice" w' ∧
    Signer DottedAlice.disk DottedAlice.codec DottedAlice.tokens DottedAlice.headers
      (World.fresh .calm : World PlainHash).requestTime "./alice" DottedAlice.alice ∧
    validateId "./alice" ≠ .ok () ∧ DottedAlice.alice.id ≠ "./alice" ∧
    DottedAlice.disk.place "alice" = DottedAlice.disk.place "./alice" := by
  obtain ⟨w', hrun⟩ := callerFrom_of_signer DottedAlice.signer rfl
  refine ⟨w', hrun, DottedAlice.signer, ?_, by decide, ?_⟩
  · rw [validateId, if_pos (by decide)]
    nofun
  · decide +kernel

end Tig
