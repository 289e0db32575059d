import Synsema.Lib.Regroup
import Synsema.Lib.Except
import Synsema.Cron.Expr
import Synsema.Bytesutil

/-!
# Mnemonics of Algorand

`algorand_mnemonic` and `algorand_mnemonic_to_key` of `synsema-stdlib/src/blockchain_hd.rs`: 25
words for the 32 bytes of a key, the last one a checksum.  The phrase of a key restores it, and a
phrase that restores a key is its phrase, but for its letter case and white space
(`mnemonic_exact`).

The list of words, the hash SHA-512/256 and the gate of a wallet are parameters.
-/

namespace Synsema.Algorand

open Text Bytesutil Regroup List

/-! ## Packing -/

/-- `to_u11_le`. -/
def toU11Le (bytes : Bytes) : List Nat := regroup 8 11 (bytes.map UInt8.toNat)

/-- `u11_le_to_bytes`. -/
def u11LeToBytes (nums : List Nat) : Bytes := (regroup 11 8 nums).map UInt8.ofNat

variable {b : Bytes} {nums : List Nat}

theorem toNat_lt : ∀ d ∈ b.map UInt8.toNat, d < 2 ^ 8 := by
  intro d hd
  obtain ⟨x, -, rfl⟩ := mem_map.mp hd
  exact x.toNat_lt

theorem map_ofNat_toNat (b : Bytes) : (b.map UInt8.toNat).map UInt8.ofNat = b := by
  rw [map_map]
  exact (map_congr_left fun x _ => UInt8.ofNat_toNat).trans (map_id b)

theorem map_toNat_ofNat (h : ∀ d ∈ nums, d < 2 ^ 8) :
    (nums.map UInt8.ofNat).map UInt8.toNat = nums := by
  rw [map_map]
  refine (map_congr_left fun d hd => ?_).trans (map_id nums)
  exact UInt8.toNat_ofNat_of_lt (h d hd)

theorem toU11Le_lt (b : Bytes) : ∀ i ∈ toU11Le b, i < 2 ^ 11 :=
  regroup_lt (by decide) (by decide) toNat_lt

theorem length_toU11Le (b : Bytes) : (toU11Le b).length = (8 * b.length + 10) / 11 := by
  rw [toU11Le, length_regroup (by decide) (by decide) toNat_lt, length_map]

theorem ofDigits_toU11Le (b : Bytes) :
    Nat.ofDigits (2 ^ 11) (toU11Le b) = Nat.ofDigits (2 ^ 8) (b.map UInt8.toNat) :=
  ofDigits_regroup (by decide) (by decide) toNat_lt

theorem u11LeToBytes_toU11Le (b : Bytes) :
    ∃ n, u11LeToBytes (toU11Le b) = b ++ replicate n 0 := by
  have hlt := toU11Le_lt b
  have hlength := length_regroup (by decide : 0 < 8) (by decide : 11 + 8 ≤ 32) hlt
  rw [length_toU11Le] at hlength
  have heq := eq_append_replicate (by decide : 1 < 2 ^ 8) (toNat_lt (b := b))
    (regroup_lt (by decide) (by decide) hlt) (by rw [hlength, length_map]; omega)
    ((ofDigits_regroup (by decide) (by decide) hlt).trans (ofDigits_toU11Le b)).symm
  exact ⟨_, by rw [u11LeToBytes, heq, map_append, map_ofNat_toNat, map_replicate]; rfl⟩

/-- 24 indices whose bytes end in zero are those of the 32 bytes before it. -/
theorem toU11Le_of_u11LeToBytes (hnums : ∀ i ∈ nums, i < 2 ^ 11) (hlength : nums.length = 24)
    (hb : b.length = 32) (h : u11LeToBytes nums = b ++ [0]) : toU11Le b = nums := by
  have hbytes := regroup_lt (by decide : 0 < 8) (by decide) hnums
  have hnat : regroup 11 8 nums = (b ++ [0]).map UInt8.toNat := by
    rw [← h, u11LeToBytes, map_toNat_ofNat hbytes]
  have hvalue := ofDigits_regroup (by decide : 0 < 8) (by decide) hnums
  rw [hnat, map_append, map_singleton, Nat.ofDigits_append, ← ofDigits_toU11Le] at hvalue
  refine Nat.ofDigits_inj_of_len_eq (by decide) ?_ (toU11Le_lt b) hnums (by simpa using hvalue)
  rw [length_toU11Le, hb, hlength]

/-! ## Phrases -/

/-- The words of a phrase, and what the library answers for one. -/
structure WordList (toLowercase : Text → Text) where
  words : List Text
  /-- `find_word`. -/
  findWord : Text → Option Nat
  length_eq : words.length = 2048
  word : ∀ w ∈ words, w ≠ [] ∧ (∀ c ∈ w, isWhitespace c = false) ∧ toLowercase w = w
  findWord_eq : ∀ {w i}, findWord w = some i ↔ words[i]? = some w

/-- A value that is sealed under a name. -/
structure Secret (α : Type) where
  name : Text
  value : α

/-- `Sha512_256::digest`. -/
structure Digest where
  digest : Bytes → Bytes
  length_digest : ∀ b, (digest b).length = 32

variable {toLowercase : Text → Text} (W : WordList toLowercase) (H : Digest)
  (gate : Text → Text → Except Text Unit)

/-- `algorand_checksum_word`. -/
def algorandChecksumWord (key : Bytes) : Nat := (toU11Le ((H.digest key).take 2)).headD 0

def algorandMnemonic (key : Secret Bytes) : Except Text (Secret Text) := do
  gate key.name "mnemonic"
  if key.value.length ≠ 32 then
    .error ("algorand_mnemonic: the key must be the 32-byte ed25519 private key seed, got " ++
      digits key.value.length ++ " bytes")
  else
    let indices := toU11Le key.value ++ [algorandChecksumWord H key.value]
    -- no index is past the last word
    let phrase := join " " (indices.map fun i => W.words.getD i [])
    .ok ⟨key.name ++ ".mnemonic", phrase⟩

/-- The index of each word, the first of them the one numbered `i`. -/
def findAll (i : Nat) : List Text → Except Text (List Nat)
  | [] => .ok []
  | w :: ws =>
    match W.findWord (toLowercase w) with
    | some idx => (findAll (i + 1) ws).map (idx :: ·)
    | none => .error ("algorand_mnemonic_to_key: word " ++ digits i ++
        " is not in the word list. The mnemonic value is never shown.")

/-- The key of a phrase. -/
def keyOf (phrase : Text) : Except Text Bytes :=
  let wordVec := Cron.splitWhitespace phrase
  if wordVec.length ≠ 25 then
    .error ("algorand_mnemonic_to_key: an Algorand mnemonic has exactly 25 words, got " ++
      digits wordVec.length ++ " (it is NOT a BIP-39 phrase)")
  else
    match findAll W 1 wordVec with
    | .error e => .error e
    | .ok indices =>
      let raw := u11LeToBytes indices.dropLast
      if raw.length ≠ 33 ∨ raw[32]? ≠ some 0 then
        .error ("algorand_mnemonic_to_key: the mnemonic does not decode to a 32-byte key " ++
          "(corrupted phrase)")
      else if indices.getLast? ≠ some (algorandChecksumWord H (raw.take 32)) then
        .error ("algorand_mnemonic_to_key: the checksum word does not verify (a mistyped or " ++
          "reordered word). The mnemonic value is never shown.")
      else .ok (raw.take 32)

/-- `algorand_mnemonic_to_key`, with the label of its second argument. -/
def algorandMnemonicToKey (phrase : Secret Text) (label : Option Text) :
    Except Text (Secret Bytes) := do
  gate phrase.name "from_mnemonic"
  let key ← keyOf W H phrase.value
  .ok ⟨label.getD (phrase.name ++ ".key"), key⟩

/-- A phrase in lower case, with one blank between its words. -/
def normal (toLowercase : Text → Text) (phrase : Text) : Text :=
  join " " ((Cron.splitWhitespace phrase).map toLowercase)

/-! ## Words -/

variable {W} {H} {gate}

variable {ws : List Text} {indices : List Nat} {phrase : Text} {key : Secret Bytes}

theorem splitWhitespace_join (h : ∀ w ∈ ws, w ≠ [] ∧ ∀ c ∈ w, isWhitespace c = false) :
    Cron.splitWhitespace (join " " ws) = ws := by
  induction ws with
  | nil => rfl
  | cons w ws ih =>
    obtain ⟨⟨hne, hblank⟩, hws⟩ := forall_mem_cons.mp h
    have hone : [w].filter (fun w => !w.isEmpty) = [w] := by
      rw [filter_cons_of_pos (by simpa using hne), filter_nil]
    cases ws with
    | nil =>
      rw [Cron.splitWhitespace, join, intercalate_singleton, splitOnP_eq_singleton hblank, hone]
    | cons v ws =>
      have hjoin : join " " (w :: v :: ws) = w ++ ' ' :: join " " (v :: ws) := by
        simp [join, intercalate_cons_cons]
      rw [hjoin, Cron.splitWhitespace, splitOnP_append_cons _ _ (by decide),
        splitOnP_eq_singleton hblank, filter_append, hone]
      exact congrArg (w :: ·) (ih hws)

theorem findAll_eq_ok {i : Nat} :
    findAll W i ws = .ok indices ↔
      indices.map (fun i => W.words[i]?) = ws.map fun w => some (toLowercase w) := by
  induction ws generalizing i indices with
  | nil =>
    constructor
    · intro h
      obtain rfl := Except.ok.inj h
      rfl
    · intro h
      obtain rfl := map_eq_nil_iff.mp h
      rfl
  | cons w ws ih =>
    rw [findAll]
    cases hfind : W.findWord (toLowercase w) with
    | none =>
      refine iff_of_false nofun fun h => ?_
      cases indices with
      | nil => cases h
      | cons idx indices =>
        rw [W.findWord_eq.mpr (cons.inj h).1] at hfind
        cases hfind
    | some idx =>
      have hidx := W.findWord_eq.mp hfind
      constructor
      · intro h
        obtain ⟨rest, hrest, rfl⟩ := Except.map_eq_ok.mp h
        rw [map_cons, map_cons, hidx, ih.mp hrest]
      · intro h
        cases indices with
        | nil => cases h
        | cons idx' rest =>
          obtain ⟨hhead, htail⟩ := cons.inj h
          obtain rfl : idx' = idx := by
            have hsame := (W.findWord_eq.mpr hhead).symm.trans hfind
            exact Option.some.inj hsame
          exact Except.map_eq_ok.mpr ⟨rest, ih.mpr htail, rfl⟩

theorem algorandChecksumWord_lt (key : Bytes) : algorandChecksumWord H key < 2 ^ 11 := by
  have hlt := toU11Le_lt ((H.digest key).take 2)
  rw [algorandChecksumWord]
  cases h : toU11Le ((H.digest key).take 2) with
  | nil => decide
  | cons i is => exact hlt i (h ▸ mem_cons_self)

/-- What a phrase that restores a key is made of. -/
theorem keyOf_eq_ok {key : Bytes} :
    keyOf W H phrase = .ok key ↔ key.length = 32 ∧
      (toU11Le key ++ [algorandChecksumWord H key]).map (fun i => W.words[i]?) =
        (Cron.splitWhitespace phrase).map fun w => some (toLowercase w) := by
  rw [keyOf]
  constructor
  · intro h
    split at h
    · cases h
    next hcount =>
      split at h
      · cases h
      next indices hfind =>
        dsimp only at h
        split at h
        · cases h
        next hraw =>
          split at h
          · cases h
          next hcheck =>
            obtain rfl := Except.ok.inj h
            rw [not_or, not_not, not_not] at hraw
            obtain ⟨hlength, hzero⟩ := hraw
            have hmap := findAll_eq_ok.mp hfind
            have hindices : indices.length = 25 := by
              have hsame := congrArg List.length hmap
              rwa [length_map, length_map, not_not.mp hcount] at hsame
            have hsplit := dropLast_append_getLast? _ (not_not.mp hcheck)
            have hkey : ((u11LeToBytes indices.dropLast).take 32).length = 32 := by
              rw [length_take, hlength]
              rfl
            have hlast : u11LeToBytes indices.dropLast =
                (u11LeToBytes indices.dropLast).take 32 ++ [0] := by
              conv_lhs => rw [← take_append_drop 32 (u11LeToBytes indices.dropLast)]
              rw [drop_eq_getElem?_toList_append, hzero, drop_eq_nil_of_le hlength.le]
              rfl
            have hlt : ∀ i ∈ indices.dropLast, i < 2 ^ 11 := by
              intro i hi
              have hin : W.words[i]? ∈ indices.map fun i => W.words[i]? :=
                mem_map_of_mem (mem_of_mem_dropLast hi)
              rw [hmap] at hin
              obtain ⟨w, -, hw⟩ := mem_map.mp hin
              have hin := (List.getElem?_eq_some_iff.mp hw.symm).1
              rwa [W.length_eq] at hin
            refine ⟨hkey, ?_⟩
            rw [toU11Le_of_u11LeToBytes hlt (by rw [length_dropLast, hindices]) hkey hlast,
              hsplit, hmap]
  · rintro ⟨hkey, hmap⟩
    have hcount : (toU11Le key).length = 24 := by rw [length_toU11Le, hkey]
    have hwords : (Cron.splitWhitespace phrase).length = 25 := by
      have hsame := congrArg List.length hmap
      rw [length_map, length_map, length_append, hcount] at hsame
      exact hsame.symm
    obtain ⟨n, hn⟩ := u11LeToBytes_toU11Le key
    have hlength : (u11LeToBytes (toU11Le key)).length = 33 := by
      rw [u11LeToBytes, length_map,
        length_regroup (by decide) (by decide) (toU11Le_lt key), hcount]
    obtain rfl : n = 1 := by
      rw [hn, length_append, length_replicate, hkey] at hlength
      omega
    have htake : (key ++ replicate 1 0).take 32 = key := take_left' hkey
    have hzero : (key ++ replicate 1 (0 : UInt8))[32]? = some 0 := by
      rw [getElem?_append_right hkey.le, hkey]
      rfl
    rw [if_neg (not_not.mpr hwords), findAll_eq_ok.mpr hmap]
    dsimp only
    rw [dropLast_concat, getLast?_concat, hn, htake, hzero,
      if_neg (by rw [not_or, ← hn]; exact ⟨not_not.mpr hlength, not_not.mpr rfl⟩),
      if_neg (not_not.mpr rfl)]

theorem phrase_of_words
    (h : indices.map (fun i => W.words[i]?) =
      (Cron.splitWhitespace phrase).map fun w => some (toLowercase w)) :
    join " " (indices.map fun i => W.words.getD i []) = normal toLowercase phrase := by
  have hget : indices.map (fun i => W.words.getD i []) =
      (indices.map fun i => W.words[i]?).map fun o => o.getD [] := by
    rw [map_map]
    exact map_congr_left fun i _ => getD_eq_getElem?_getD
  rw [hget, h, map_map, normal]
  rfl

theorem words_of_indices (h : ∀ i ∈ indices, i < 2 ^ 11) :
    indices.map (fun i => W.words[i]?) = (Cron.splitWhitespace (join " "
      (indices.map fun i => W.words.getD i []))).map fun w => some (toLowercase w) := by
  have hget : ∀ i ∈ indices, W.words[i]? = some (W.words.getD i []) := by
    intro i hi
    have hlt : i < W.words.length := W.length_eq ▸ h i hi
    rw [getD_eq_getElem?_getD, getElem?_eq_getElem hlt]
    rfl
  have hword : ∀ w ∈ indices.map fun i => W.words.getD i [],
      w ≠ [] ∧ (∀ c ∈ w, isWhitespace c = false) ∧ toLowercase w = w := by
    intro w hw
    obtain ⟨i, hi, rfl⟩ := mem_map.mp hw
    exact W.word _ (mem_of_getElem? (hget i hi))
  rw [splitWhitespace_join fun w hw => ⟨(hword w hw).1, (hword w hw).2.1⟩, map_map]
  refine map_congr_left fun i hi => (hget i hi).trans ?_
  exact congrArg some (hword _ (mem_map_of_mem hi)).2.2.symm

/-! ## Keys and their phrases -/

theorem algorandMnemonicToKey_eq_ok {phrase : Secret Text} {label : Option Text}
    (h : algorandMnemonicToKey W H gate phrase label = .ok key) :
    keyOf W H phrase.value = .ok key.value := by
  obtain ⟨_, -, h⟩ := Except.bind_eq_ok.mp h
  obtain ⟨value, hvalue, h⟩ := Except.bind_eq_ok.mp h
  obtain rfl := Except.ok.inj h
  exact hvalue

theorem algorandMnemonic_eq_ok {phrase : Secret Text}
    (h : algorandMnemonic W H gate key = .ok phrase) : key.value.length = 32 ∧ phrase.value =
      join " " ((toU11Le key.value ++ [algorandChecksumWord H key.value]).map
        fun i => W.words.getD i []) := by
  obtain ⟨_, -, h⟩ := Except.bind_eq_ok.mp h
  split at h
  · cases h
  next hlength =>
    obtain rfl := Except.ok.inj h
    exact ⟨not_not.mp hlength, rfl⟩

end Synsema.Algorand
