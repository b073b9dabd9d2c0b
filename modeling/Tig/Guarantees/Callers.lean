import Tig.Core.Plain
import Tig.Daemon.Handlers

set_option relaxedAutoImplicit false
set_option autoImplicit false

/-!
# Who a request is made by

A request with a token in its `Authorization` header is made by the principal that the token
verifiably names, or it is refused. The exception is a header value that is not visible ASCII: it
is taken for an absent one, and the request is made by whoever it names.

## Main definitions

* `Tig.Verified` — the request has a token that names a principal and is signed with its key.
* `Tig.NeverDowngraded` — a request with an `Authorization` header is made by a verified caller.

## Main results

* `Tig.neverDowngraded_iff` — this is so exactly when the value of the header is visible ASCII.
* `Tig.callerFrom_downgrades` — a value that is not is ignored.
-/

namespace Tig

open Program

variable {H : Type}

/-- The `Authorization` header holds a token that names `p`, is signed with the key registered for
`p`, and has not expired. -/
structure Verified (srv : Server) (headers : HeaderMap) (nowUnixSeconds : Nat)
    (p : PrincipalId) : Prop where
  signed : ∃ auth token principal pubkey claims, headers.getStr AUTH_HEADER = some auth ∧
    bearerToken auth = some token ∧ srv.principals p = .ok principal ∧
    principal.signPubkey srv.tokens = .ok pubkey ∧
    SignedToken srv.tokens token pubkey nowUnixSeconds claims ∧ claims.sub = p

/-- The time that a request made in `w` is checked against. -/
def World.requestTime (w : World H) : Nat := w.env.now w.clock / 1000000000

/-- A request with an `Authorization` header that gets a caller has a verified one, and only a
verified caller passes the gate of the collection of garbage, or gets garbage collected. -/
structure NeverDowngraded [LinearOrder H] [Format H] (srv : Server) (headers : HeaderMap)
    (w : World H) : Prop where
  caller : (headers.get AUTH_HEADER).isSome = true → ∀ p w',
    callerFrom srv headers w = .ok p w' → Verified srv headers w.requestTime p
  gcCaller : ∀ p w', Handlers.gcCaller srv headers w = .ok p w' →
    Verified srv headers w.requestTime p
  gc : ∀ body view w', Handlers.gc srv headers body w = .ok view w' →
    ∃ p, Verified srv headers w.requestTime p

/-- The caller that a bearer token gives is verified. -/
theorem bearerCaller_spec {srv : Server} {headers : HeaderMap} {auth : String} {w : World H}
    (hauth : headers.getStr AUTH_HEADER = some auth) :
    Post (bearerCaller srv auth) w (fun p _ => Verified srv headers w.requestTime p)
      (fun _ _ => True) := by
  rw [bearerCaller]
  cases htoken : bearerToken auth with
  | none => trivial
  | some token =>
    dsimp only
    rw [post_bind, post_fromExcept]
    refine ⟨fun peeked hpeeked => ?_, fun _ _ => trivial⟩
    rw [post_bind, post_adaptExcept, post_step]
    refine ⟨fun _ => ?_, fun _ _ => trivial⟩
    rw [post_bind, post_fromExcept]
    refine ⟨fun principal hprincipal => ?_, fun _ _ => trivial⟩
    rw [post_bind, post_fromExcept]
    refine ⟨fun pubkey hpubkey => ?_, fun _ _ => trivial⟩
    rw [post_bind, nowUnixSeconds, post_bind, engine, post_adaptExcept, post_currentTimestampNs,
      post_pure, post_bind, post_fromExcept]
    refine ⟨fun claims hclaims => ?_, fun _ _ => trivial⟩
    have hsigned := verifyToken_eq_ok.mp (eq_ok_of_mapError hclaims)
    -- the claims that were verified are those that the key was looked up for
    obtain rfl := Except.ok.inj (hsigned.peek.symm.trans (eq_ok_of_mapError hpeeked))
    exact ⟨auth, token, principal, pubkey, claims, hauth, htoken, eq_ok_of_mapError hprincipal,
      eq_ok_of_mapError hpubkey, hsigned, rfl⟩

/-- **A present `Authorization` header is never downgraded exactly when it can be read**: its value
consists of visible ASCII characters and tabs. -/
theorem neverDowngraded_iff [LinearOrder H] [Format H] (srv : Server) (headers : HeaderMap)
    (w : World H) :
    NeverDowngraded srv headers w ↔
      ∀ v, headers.get AUTH_HEADER = some v → ∀ b ∈ v.bytes, 32 ≤ b ∧ b < 127 ∨ b = 9 := by
  have hstr : ∀ v : HeaderValue, v.toStr.isSome = true ↔
      ∀ b ∈ v.bytes, 32 ≤ b ∧ b < 127 ∨ b = 9 := by
    intro v
    unfold HeaderValue.toStr
    split <;> simp_all [isVisibleAscii]
  constructor
  · intro h v hv
    refine (hstr v).mp ?_
    cases hs : v.toStr with
    | some auth => rfl
    | none =>
      -- a value that cannot be read is taken for an absent one
      have hgetStr : headers.getStr AUTH_HEADER = none := by simp [HeaderMap.getStr, hv, hs]
      have hcaller : callerFrom srv headers w = .ok (namedCaller headers) w := by
        rw [callerFrom, hgetStr]
        rfl
      obtain ⟨auth, -, -, -, -, hauth, -⟩ := (h.caller (by rw [hv]; rfl) _ _ hcaller).signed
      rw [hgetStr] at hauth
      cases hauth
  · intro h
    have hcaller : (headers.get AUTH_HEADER).isSome = true → ∀ p w',
        callerFrom srv headers w = .ok p w' → Verified srv headers w.requestTime p := by
      intro hsome p w' hrun
      obtain ⟨v, hv⟩ := Option.isSome_iff_exists.mp hsome
      obtain ⟨auth, hauth⟩ := Option.isSome_iff_exists.mp ((hstr v).mpr (h v hv))
      have hgetStr : headers.getStr AUTH_HEADER = some auth := by
        simp [HeaderMap.getStr, hv, hauth]
      rw [callerFrom, hgetStr] at hrun
      exact (bearerCaller_spec hgetStr).ok hrun
    have hgate : ∀ p w', Handlers.gcCaller srv headers w = .ok p w' →
        Verified srv headers w.requestTime p := by
      intro p w' hrun
      rw [Handlers.gcCaller] at hrun
      cases hget : headers.get AUTH_HEADER with
      | none =>
        rw [hget] at hrun
        cases hrun
      | some v =>
        rw [hget] at hrun
        exact hcaller (by rw [hget]; rfl) p w' hrun
    refine ⟨hcaller, hgate, fun body view w' hrun => ?_⟩
    have hpost : Post (Handlers.gc srv headers body) w
        (fun _ _ => ∃ p, Verified srv headers w.requestTime p) (fun _ _ => True) := by
      rw [Handlers.gc, post_bind]
      refine .of_cases (fun p w₁ hp => ?_) (fun _ _ _ => trivial)
      exact .of_cases (fun _ _ _ => ⟨p, hgate p w₁ hp⟩) (fun _ _ _ => trivial)
    exact hpost.ok hrun

/-! ## A header that cannot be read -/

namespace UnreadableToken

/-- A daemon without any principals. -/
def server : Server where
  tokens := ⟨fun _ => .error "bad", fun _ => .error "bad", fun _ => .error "bad", fun _ _ _ => false⟩
  principals := fun id => .error (.identityNotFound id)

/-- `Bearer é`, in Latin-1. -/
def token : HeaderValue := ⟨[66, 101, 97, 114, 101, 114, 32, 233], by decide +kernel⟩

/-- `alice`. -/
def name : HeaderValue := ⟨[97, 108, 105, 99, 101], by decide +kernel⟩

/-- A request with that token, in the name of `alice`. -/
def headers : HeaderMap := [(AUTH_HEADER, token), (PRINCIPAL_HEADER, name)]

end UnreadableToken

/-- A request with a token that is not ASCII is made by whoever it names, and may collect
garbage. -/
theorem callerFrom_downgrades :
    callerFrom UnreadableToken.server UnreadableToken.headers
        (World.fresh .calm : World PlainHash) = .ok "alice" (World.fresh .calm) ∧
      Handlers.gcCaller UnreadableToken.server UnreadableToken.headers
        (World.fresh .calm : World PlainHash) = .ok "alice" (World.fresh .calm) ∧
      ¬ NeverDowngraded UnreadableToken.server UnreadableToken.headers
        (World.fresh .calm : World PlainHash) := by
  have hnone : UnreadableToken.headers.getStr AUTH_HEADER = none := by decide
  refine ⟨rfl, rfl, fun h => ?_⟩
  obtain ⟨auth, -, -, -, -, hauth, -⟩ := (h.caller rfl "alice" _ rfl).signed
  rw [hnone] at hauth
  cases hauth

end Tig
