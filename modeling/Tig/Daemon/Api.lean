import Tig.Store.World
import Tig.Vis.Tokens

set_option relaxedAutoImplicit false
set_option autoImplicit false

/-!
# Requests to the daemon

A handler is a program over the repository that fails with an HTTP error. The caller of a request
is resolved from its headers: a bearer token names a principal whose signing key must verify it;
without one a name is taken on trust.

## Main definitions

* `Tig.ApiError`, `Tig.ApiM` — what handlers fail with, and handlers.
* `Tig.HeaderMap` — the headers of a request, whose values are the bytes that HTTP admits.
* `Tig.Server` — what the daemon knows besides the repository.
* `Tig.callerFrom` — the principal that a request is made by.
-/

namespace Tig

open Program

/-! ## Errors -/

/-- The error of a request, by status. -/
inductive ApiError where
  | notFound (msg : String)
  | badRequest (msg : String)
  | conflict (msg : String)
  | unauthorized (msg : String)
  | internal (msg : String)
deriving DecidableEq, Repr

/-- The text of an error of the store, as its `Display` prints it. -/
def Error.toText : Error → String
  | .io msg => "io: " ++ msg
  | .notFound what => "not found: " ++ what
  | .alreadyExists what => "already exists: " ++ what
  | .core e => "core: " ++ e.toText
  | .json msg => "json: " ++ msg
  | .corrupt msg => "corrupt object: " ++ msg
  | .unsupportedFileKind path kind => "unsupported file kind at " ++ path ++ ": " ++ kind
  | .escapesWorkdir path => "path is not in workdir: " ++ path
  | .cli msg => msg

namespace ApiError

/-- An error of the object layer is the fault of the request. -/
def ofCore (e : CoreError) : ApiError := .badRequest e.toText

/-- What an error of the engine is to the client. -/
def ofError : Error → ApiError
  | .notFound what => .notFound what
  | .alreadyExists what => .conflict what
  | .core e => ofCore e
  | .json msg => .internal msg
  | .io msg => .internal msg
  | .corrupt msg => .internal ("corrupt: " ++ msg)
  | .unsupportedFileKind path kind =>
      .badRequest ("unsupported file kind " ++ kind ++ " at " ++ path)
  | .escapesWorkdir path => .badRequest path
  | .cli msg => .internal msg

end ApiError

/-- Programs of request handlers. -/
abbrev ApiM (H : Type) := EStateM ApiError (World H)

variable {H : Type}

/-- A program of the engine, run by a handler. -/
def engine {α : Type} (x : RepoM H α) : ApiM H α := EStateM.adaptExcept ApiError.ofError x

/-! ## Headers -/

/-- A header value: any bytes but the control characters other than tab. -/
structure HeaderValue where
  bytes : Bytes
  admitted : ∀ b ∈ bytes, 32 ≤ b ∧ b ≠ 127 ∨ b = 9

/-- The headers of a request, with their names in lower case. -/
abbrev HeaderMap := List (String × HeaderValue)

/-- Is this a byte that a header value can have as a character? -/
def isVisibleAscii (b : UInt8) : Bool := 32 ≤ b && b < 127 || b = 9

/-- A header value as a string, if all of it is visible ASCII. -/
def HeaderValue.toStr (v : HeaderValue) : Option String :=
  if v.bytes.all isVisibleAscii then
    some (String.ofList (v.bytes.map fun b => Char.ofNat b.toNat))
  else
    none

/-- The first value of a header. -/
def HeaderMap.get (headers : HeaderMap) (name : String) : Option HeaderValue :=
  (headers.find? fun h => h.1 = name).map (·.2)

/-- The value of a header as a string; a value that is no string counts as absent. -/
def HeaderMap.getStr (headers : HeaderMap) (name : String) : Option String :=
  (headers.get name).bind HeaderValue.toStr

/-- The header with a name that is taken on trust. -/
def PRINCIPAL_HEADER : String := "x-tig-principal"

/-- The header with a bearer token. -/
def AUTH_HEADER : String := "authorization"

/-! ## The caller -/

/-- What the daemon knows besides the repository: how tokens are read, and the registry. -/
structure Server where
  tokens : TokenLib
  principals : PrincipalStore

/-- The principal of a request that names none. -/
def defaultActor : PrincipalId := PrincipalId.local "tigd"

/-- The time in seconds. -/
def nowUnixSeconds : ApiM H Nat := do
  let ns ← engine currentTimestampNs
  return ns / 1000000000

/-- What follows a prefix of a string. -/
def stripPrefix (pre s : String) : Option String :=
  if pre.toList <+: s.toList then some (String.ofList (s.toList.drop pre.length)) else none

/-- The token of an `Authorization` header. -/
def bearerToken (auth : String) : Option String :=
  (stripPrefix "Bearer " auth).or (stripPrefix "bearer " auth)

/-- The principal that a bearer token verifiably names. -/
def bearerCaller (srv : Server) (auth : String) : ApiM H PrincipalId :=
  match bearerToken auth with
  | none => throw (.badRequest (AUTH_HEADER ++ " header must be `Bearer <token>`"))
  | some token => do
    -- the claims say whose key to verify with
    let peeked ← fromExcept ((peekClaims srv.tokens token).mapError fun e =>
      .badRequest ("malformed bearer token: " ++ e.toText))
    EStateM.adaptExcept (fun e => .internal ("principal store: " ++ e.toText)) (step .registryRead)
    let principal ← fromExcept ((srv.principals peeked.sub).mapError fun _ =>
      .unauthorized ("unknown principal: " ++ peeked.sub))
    let pubkey ← fromExcept ((principal.signPubkey srv.tokens).mapError fun _ =>
      .unauthorized ("principal " ++ debugStr peeked.sub ++ " has no signing pubkey on file"))
    let now ← nowUnixSeconds
    let claims ← fromExcept ((verifyToken srv.tokens token pubkey now).mapError fun e =>
      .unauthorized ("token rejected: " ++ e.toText))
    return claims.sub

/-- The principal that a request without a token is taken to be made by. -/
def namedCaller (headers : HeaderMap) : PrincipalId :=
  ((headers.getStr PRINCIPAL_HEADER).filter (· ≠ "")).getD defaultActor

/-- The principal that a request is made by. -/
def callerFrom (srv : Server) (headers : HeaderMap) : ApiM H PrincipalId :=
  match headers.getStr AUTH_HEADER with
  | some auth => bearerCaller srv auth
  | none => return namedCaller headers

/-- The caller that requests with these headers are made by, when they are accepted. -/
def CallerIs (H : Type) (srv : Server) (headers : HeaderMap) (caller : PrincipalId) : Prop :=
  ∃ v v' : World H, callerFrom srv headers v = .ok caller v'

end Tig
