import Synsema.Btc.Tx

/-!
# Addresses

Bitcoin addresses and public keys (`synsema-stdlib/src/blockchain_btc.rs`): the strict decoder, the
check of the network, the scripts of the standard kinds, and the tweak of a taproot key.

The hashes, the two text codecs and the arithmetic of the curve are not part of the repository: they
are a parameter (`Crypto`), and so is what a secret holds.
-/

namespace Synsema.Btc

open Text Bytesutil

/-- The functions of `sha2`, `ripemd`, `bech32`, `bs58` and `k256` that are used; `{:?}` of a text;
and `key_material` of a secret (`σ`). -/
structure Crypto (σ : Type) where
  debug : Text → Text
  sha256 : Bytes → Hash
  ripemd160 : Bytes → { b : Bytes // b.length = 20 }
  /-- `segwit::decode`: the prefix, the version, the program. -/
  segwitDecode : Text → Except Text (Text × UInt8 × Bytes)
  /-- `base58_decode`. -/
  base58Decode : Text → Option Bytes
  keyMaterial : σ → Text → Except Text Bytes
  /-- `VerifyingKey::from_sec1_bytes` accepts it. -/
  validPoint : Bytes → Bool
  /-- The compressed public key of a scalar. -/
  publicKey : Bytes → Option Bytes
  /-- The 32 bytes of its `schnorr` key. -/
  schnorrKey : Bytes → Option Hash
  Point : Type
  Scalar : Type
  /-- `schnorr::VerifyingKey::from_slice`. -/
  liftX : Bytes → Option Point
  /-- `Scalar::from_repr`. -/
  scalar : Bytes → Option Scalar
  /-- A point with a multiple of the generator, compressed. -/
  tweak : Point → Scalar → Bytes

/-! ## Networks and kinds -/

inductive Network where
  | mainnet
  | testnet
  | signet
  | regtest
  deriving DecidableEq

def Network.asStr : Network → Text
  | mainnet => "mainnet"
  | testnet => "testnet"
  | signet => "signet"
  | regtest => "regtest"

inductive AddrKind where
  | p2pkh
  | p2sh
  | p2wpkh
  | p2wsh
  | p2tr
  deriving DecidableEq

namespace AddrKind

/-- `AddrKind::as_str`. -/
def asStr : AddrKind → Text
  | p2pkh => "p2pkh"
  | p2sh => "p2sh"
  | p2wpkh => "p2wpkh"
  | p2wsh => "p2wsh"
  | p2tr => "p2tr"

/-- `AddrKind::dust_limit`. -/
def dustLimit : AddrKind → UInt64
  | p2pkh => 546
  | p2sh => 540
  | p2wpkh => 294
  | p2wsh | p2tr => 330

end AddrKind

/-! ## Decoding -/

structure DecodedAddr where
  kind : AddrKind
  program : Bytes
  netLabel : Text
  base58 : Bool

section Decode

variable {σ : Type} (c : Crypto σ)

def hash160 (data : Bytes) : Bytes := (c.ripemd160 (c.sha256 data).1).1

def dsha256 (data : Bytes) : Hash := c.sha256 (c.sha256 data).1

def base58checkDecode (s : Text) : Except Text Bytes :=
  match c.base58Decode s with
  | none => .error "not valid base58"
  | some full =>
    if full.length < 5 then
      .error "too short for base58check (needs payload + 4 checksum bytes)"
    else
      let payload := full.take (full.length - 4)
      if (dsha256 c payload).1.take 4 ≠ full.drop (full.length - 4) then
        .error "the checksum does not verify (a mistyped character?)"
      else .ok payload

/-- The kind of a witness program. -/
def witnessKind (fname : Text) (v : UInt8) (n : Nat) : Except Text AddrKind :=
  if v = 0 then
    if n = 20 then .ok .p2wpkh
    else if n = 32 then .ok .p2wsh
    else .error (fname ++ ": a witness v0 program must be 20 or 32 bytes (BIP-141), got " ++
      digits n)
  else if v = 1 then
    if n = 32 then .ok .p2tr
    else .error (fname ++ ": a witness v1 (taproot) program must be 32 bytes, got " ++
      digits n)
  else .error (fname ++ ": witness version " ++ digits v.toNat ++
    (" is not a standard address type yet — refusing to build an output no wallet can " ++
      "spend").toList)

/-- `decode_address`.  No character outside ASCII has a letter of the prefixes in its lowercase. -/
def decodeAddress (s fname : Text) : Except Text DecodedAddr :=
  let lower := toAsciiLowercase s
  if ["bc1", "tb1", "bcrt1"].any fun p => startsWith p.toList lower then
    match c.segwitDecode s with
    | .error e => .error (fname ++ ": invalid segwit address: " ++ e ++
        (" (BIP-350: witness v0 uses bech32, v1+ uses bech32m — the wrong checksum variant is " ++
          "rejected). The address was not accepted.").toList)
    | .ok (hrp, v, program) => do
      let hrp := toAsciiLowercase hrp
      let netLabel ←
        if hrp = "bc" then .ok "mainnet".toList
        else if hrp = "tb" then .ok "testnet".toList
        else if hrp = "bcrt" then .ok "regtest".toList
        else .error (fname ++ ": unknown address prefix " ++ c.debug hrp ++
          " (expected bc, tb or bcrt)")
      let kind ← witnessKind fname v program.length
      .ok { kind, program, netLabel, base58 := false }
  else
    match base58checkDecode c s with
    | .error e => .error (fname ++ ": invalid base58 address: " ++ e)
    | .ok payload =>
      if payload.length ≠ 21 then
        .error (fname ++ (": a base58 address payload must be 21 bytes (version + hash160), " ++
          "got ").toList ++ digits payload.length)
      else
        let address kind netLabel : Except Text DecodedAddr :=
          .ok { kind, program := payload.drop 1, netLabel, base58 := true }
        match payload.headD 0 with
        | 0x00 => address .p2pkh "mainnet"
        | 0x05 => address .p2sh "mainnet"
        | 0x6f => address .p2pkh "testnet"
        | 0xc4 => address .p2sh "testnet"
        | v => .error (fname ++ ": unknown base58 address version 0x" ++
            Abi.hexEncode [v] ++ " (not a standard Bitcoin address)")

def checkNetwork (dec : DecodedAddr) (txNet : Network) (what fname : Text) : Except Text Unit :=
  let ok : Bool := match txNet with
    | .mainnet => dec.netLabel == "mainnet"
    | .testnet | .signet => dec.netLabel == "testnet"
    | .regtest => dec.netLabel == "regtest" ||
        (dec.base58 && dec.netLabel == "testnet")
  if ok then .ok ()
  else .error (fname ++ ": " ++ what ++ " is a " ++ dec.netLabel ++
    " address but the transaction is for " ++ txNet.asStr ++
    " — a cross-network send burns funds; nothing was built")

def scriptPubkeyOf (kind : AddrKind) (program : Bytes) : Bytes :=
  match kind with
  | .p2pkh => [0x76, 0xa9, 0x14] ++ program ++ [0x88, 0xac]
  | .p2sh => [0xa9, 0x14] ++ program ++ [0x87]
  | .p2wpkh | .p2wsh => [0x00, UInt8.ofNat program.length] ++ program
  | .p2tr => [0x51, 0x20] ++ program

/-! ## Taproot -/

/-- `tagged_hasher`, of the tag `TapTweak`, and `tap_tweak_scalar` without a tree. -/
def tapTweakScalar (xonly : Bytes) (fname : Text) : Except Text c.Scalar :=
  let tag := (c.sha256 ("TapTweak".toList.map fun ch => UInt8.ofNat ch.toNat)).1
  match c.scalar (c.sha256 (tag ++ tag ++ xonly)).1 with
  | some t => .ok t
  | none => .error (fname ++ (": the taproot tweak for this key is invalid (an astronomically " ++
      "unlikely key); use a different key").toList)

/-- `tap_output_key` without a tree: the 32 bytes of the key. -/
def tapOutputKey (xonly : Bytes) (fname : Text) : Except Text Bytes :=
  match c.liftX xonly with
  | none => .error (fname ++
      ": the 32-byte x-only public key is not a valid secp256k1 x coordinate")
  | some p => do
    let t ← tapTweakScalar c xonly fname
    let bytes := c.tweak p t
    if bytes.length ≠ 33 then
      .error (fname ++ ": the tweaked taproot key is the point at infinity (invalid key)")
    else .ok (bytes.drop 1)

end Decode

end Synsema.Btc
