import Tig.Core.Plain
import Tig.Daemon.Protocol
import Tig.Vis.Seal

set_option relaxedAutoImplicit false
set_option autoImplicit false

/-!
# Sealing, storing, sending, unsealing

A sealed payload is stored as an object and sent as a view. Both encoders give back what they were
given, so that a payload can be unsealed wherever it has been.

## Main definitions

* `Tig.Carrier`, `Tig.carryAll` — the ways a sealed payload travels, and a journey along them.

## Main results

* `Tig.carryAll_eq` — a journey leaves a sealed payload as it is.
* `Tig.seal_unseal` — what each key makes of a sealed payload, and that unsealing anything returns.
-/

namespace Tig

/-! ## Journeys -/

theorem RecipientView.intoCore_fromCore (r : RecipientWrap) :
    (RecipientView.fromCore r).intoCore = .ok r := by
  simp [RecipientView.intoCore, RecipientView.fromCore, hexDecode_hexEncode, bind, Except.bind]

/-- **A sealed payload comes back from its view.** -/
theorem SealedView.intoCore_fromCore (s : Sealed) : (SealedView.fromCore s).intoCore = .ok s := by
  have hrecipients : ∀ rs : List RecipientWrap,
      (rs.map RecipientView.fromCore).mapM RecipientView.intoCore = Except.ok rs := by
    intro rs
    induction rs with
    | nil => rfl
    | cons r rs ih =>
      rw [List.map_cons, List.mapM_cons, RecipientView.intoCore_fromCore, ih]
      rfl
  obtain ⟨⟨⟩, ephemeralPk, recipients, ciphertext, nonce, aad⟩ := s
  refine (if_neg (by simp [SealedView.fromCore])).trans ?_
  simp only [SealedView.fromCore, hexDecode_hexEncode, hrecipients, bind, Except.bind]

/-- The ways a sealed payload travels: it is stored as an object, or sent as a view. -/
inductive Carrier where
  | object
  | view
deriving DecidableEq, Repr

/-- Encode a sealed payload, and decode it where it arrives. -/
def Carrier.carry (H : Type) [Format H] : Carrier → Sealed → Except String Sealed
  | .object, s => (decode H (encode H s)).mapError CoreError.toText
  | .view, s => (SealedView.fromCore s).intoCore

/-- A journey along several carriers. -/
def carryAll (H : Type) [Format H] (carriers : List Carrier) (s : Sealed) : Except String Sealed :=
  carriers.foldlM (fun s carrier => carrier.carry H s) s

/-- **A journey leaves a sealed payload as it is.** -/
theorem carryAll_eq (H : Type) [Format H] [LawfulFormat H] (carriers : List Carrier) (s : Sealed) :
    carryAll H carriers s = .ok s := by
  have hstep : ∀ carrier : Carrier, carrier.carry H s = .ok s := by
    intro carrier
    cases carrier with
    | object => simp [Carrier.carry, Except.mapError]
    | view => exact SealedView.intoCore_fromCore s
  induction carriers with
  | nil => rfl
  | cons carrier carriers ih =>
    rw [carryAll, List.foldlM_cons, hstep]
    exact ih

/-! ## Sealing and unsealing -/

/-- **What was sealed unseals.** Sealing for some recipients returns a sealed payload; however it
travels, each listed key reads the plaintext, every other key and every other path gets its error.
Neither operation panics, whatever it is given. -/
theorem seal_unseal (H : Type) [Format H] [LawfulFormat H] {K : Type} (lib : SealLib K)
    (hideal : lib.Ideal) (rnd : SealRandom K) (plaintext aad : Bytes) (recipients : List PublicKey) :
    (recipients ≠ [] → plaintext.length ≤ lib.limit →
      ∃ s, doSeal lib rnd plaintext recipients aad = .ok s) ∧
    (∀ s, doSeal lib rnd plaintext recipients aad = .ok s → ∀ carriers : List Carrier,
      carryAll H carriers s = .ok s ∧
      (∀ sk, lib.publicKey sk ∈ recipients → doUnseal lib s sk aad = .ok plaintext) ∧
      (∀ sk, lib.publicKey sk ∉ recipients →
        doUnseal lib s sk aad = .error (.error .notARecipient)) ∧
      ∀ sk aad', aad' ≠ aad → doUnseal lib s sk aad' = .error (.error .authFailure)) ∧
    doSeal lib rnd plaintext recipients aad ≠ .error .panic ∧
    ∀ (s : Sealed) (sk : K) (aad' : Bytes), doUnseal lib s sk aad' ≠ .error .panic := by
  refine ⟨fun hne hlen => exists_doSeal hideal rnd hlen hne aad, fun s hs carriers => ?_,
    doSeal_ne_panic rnd plaintext recipients aad, doUnseal_ne_panic⟩
  refine ⟨carryAll_eq H carriers s, ?_, ?_, ?_⟩
  · intro sk hmem
    exact doUnseal_doSeal hideal hs hmem
  · intro sk hmem
    exact doUnseal_doSeal_notARecipient hs hmem
  · intro sk aad' haad'
    exact doUnseal_doSeal_otherAad hs haad'

/-- Sealing without secrecy: keys agree on the sum of their bytes, and a ciphertext is the plaintext
after the key, the nonce and the associated data it was made with. -/
def plainSealLib : SealLib (Fixed 32) where
  publicKey k := k
  dh a b := ⟨List.zipWith (· + ·) a.1 b.1, by rw [List.length_zipWith, a.2, b.2, min_self]⟩
  hkdf shared _ := shared
  encrypt key nonce msg aad := some (key.1 ++ nonce.1 ++ Framing.frame 8 aad ++ msg)
  decrypt key nonce msg aad :=
    (key.1 ++ nonce.1 ++ Framing.frame 8 aad).isPrefixOf? msg
  limit := 2 ^ 38 - 64

theorem plainSealLib_ideal : plainSealLib.Ideal where
  dh_comm a b := Subtype.ext (List.zipWith_comm_of_comm fun x y => UInt8.add_comm x y)
  decrypt_iff key nonce c aad m := by
    change List.isPrefixOf? _ c = some m ↔ some (_ ++ m) = some c
    rw [List.isPrefixOf?_eq_some_iff_append_eq, Option.some.injEq]
  encrypts _ _ _ _ _ := rfl
  key_le := by decide

namespace SealedOnce

/-- The key whose bytes are all the same. -/
def key (b : UInt8) : Fixed 32 := ⟨List.replicate 32 b, List.length_replicate⟩

def random : SealRandom (Fixed 32) where
  ephemeral := key 7
  dataKey := key 8
  wrapNonce i := ⟨List.replicate 24 (UInt8.ofNat i), List.length_replicate⟩
  nonce := ⟨List.replicate 24 9, List.length_replicate⟩

end SealedOnce

open SealedOnce in
/-- A payload for two keys, one of them listed twice, is read by each of them and by no third. -/
theorem seal_unseal_once : ∃ s,
    doSeal plainSealLib random [1, 2, 3] [key 1, key 2, key 1] [97] = .ok s ∧
    doUnseal plainSealLib s (key 1) [97] = .ok [1, 2, 3] ∧
    doUnseal plainSealLib s (key 2) [97] = .ok [1, 2, 3] ∧
    doUnseal plainSealLib s (key 3) [97] = .error (.error .notARecipient) ∧
    doUnseal plainSealLib s (key 1) [98] = .error (.error .authFailure) := by
  have hall := seal_unseal PlainHash plainSealLib plainSealLib_ideal random [1, 2, 3] [97]
    [key 1, key 2, key 1]
  obtain ⟨s, hs⟩ := hall.1 (by simp) (by decide)
  obtain ⟨-, hlisted, hother, haad⟩ := hall.2.1 s hs [.object, .view]
  refine ⟨s, hs, hlisted (key 1) (by decide), hlisted (key 2) (by decide), ?_, ?_⟩
  · exact hother (key 3) (by decide)
  · exact haad (key 1) [98] (by decide)

end Tig
