import Synsema.Bytesutil
import Mathlib.Data.List.Sort
import Mathlib.Tactic.Ring

/-!
# Msgpack

The part of msgpack that tokens are written in: the writer of the canonical form
(`mp_write` of `synsema-stdlib/src/blockchain_algorand.rs`, `mp_map` of `captoken.rs`) and
the cursor that reads it (`Cur` of `captoken.rs`).

A tree is kept as what `mp_write` writes of it.  What the writer writes the cursor reads
back, whatever follows, as long as the lengths fit in 16 bits.
-/

namespace Synsema.Captoken

open Text Bytesutil List

/-! ## Writing -/

/-- A msgpack tree, as written. -/
abbrev Mp := Bytes

/-- The `n` low bytes of a number, the highest first. -/
def beBytes : Nat → Nat → Bytes
  | 0, _ => []
  | n + 1, v => UInt8.ofNat (v / 256 ^ n) :: beBytes n v

namespace Mp

/-- `Mp::Uint`. -/
def uint (n : Nat) : Mp :=
  if n ≤ 0x7f then [UInt8.ofNat n]
  else if n ≤ 0xff then 0xcc :: beBytes 1 n
  else if n ≤ 0xffff then 0xcd :: beBytes 2 n
  else if n ≤ 0xffffffff then 0xce :: beBytes 4 n
  else 0xcf :: beBytes 8 n

/-- `Mp::Bytes`. -/
def bytes (b : Bytes) : Mp :=
  (if b.length ≤ 0xff then 0xc4 :: beBytes 1 b.length
  else if b.length ≤ 0xffff then 0xc5 :: beBytes 2 b.length
  else 0xc6 :: beBytes 4 b.length) ++ b

/-- `Mp::Str`. -/
def str (t : Text) : Mp :=
  let b := utf8 t
  (if b.length ≤ 31 then [0xa0 ||| UInt8.ofNat b.length]
  else if b.length ≤ 0xff then 0xd9 :: beBytes 1 b.length
  else if b.length ≤ 0xffff then 0xda :: beBytes 2 b.length
  else 0xdb :: beBytes 4 b.length) ++ b

/-- The head of a map. -/
def mapHead (n : Nat) : Bytes :=
  if n ≤ 15 then [0x80 ||| UInt8.ofNat n]
  else if n ≤ 0xffff then 0xde :: beBytes 2 n
  else 0xdf :: beBytes 4 n

/-- The head of a list. -/
def listHead (n : Nat) : Bytes :=
  if n ≤ 15 then [0x90 ||| UInt8.ofNat n]
  else if n ≤ 0xffff then 0xdc :: beBytes 2 n
  else 0xdd :: beBytes 4 n

/-- `Mp::List`. -/
def list (items : List Mp) : Mp := listHead items.length ++ items.flatten

/-- `Mp::Map`, of entries in their order. -/
def entries (es : List (Text × Mp)) : Mp :=
  mapHead es.length ++ es.flatMap fun (k, v) => str k ++ v

/-- `mp_map`: the entries in the order of their keys. -/
def map (es : List (Text × Mp)) : Mp := entries (es.insertionSort fun a b => a.1 ≤ b.1)

end Mp

/-! ## Reading -/

/-- A reader at a cursor: what is left, or the end of the reading. -/
abbrev Cur := StateT Bytes Option

namespace Cur

/-- `Cur::byte`. -/
def byte : Cur UInt8 := fun
  | [] => none
  | v :: rest => some (v, rest)

/-- `Cur::take`. -/
def take (n : Nat) : Cur Bytes := fun s =>
  if n ≤ s.length then some (s.take n, s.drop n) else none

/-- The number of some bytes, the highest first. -/
def beNat (b : Bytes) : Nat := b.foldl (fun acc c => acc * 256 + c.toNat) 0

/-- `Cur::be`. -/
def be (n : Nat) : Cur Nat := do return beNat (← take n)

/-- `Cur::uint`. -/
def uint : Cur Nat := do
  let v ← byte
  if v ≤ 0x7f then return v.toNat
  else if v = 0xcc then be 1
  else if v = 0xcd then be 2
  else if v = 0xce then be 4
  else if v = 0xcf then be 8
  else failure

/-- The length of a text. -/
def strLen : Cur Nat := do
  let v ← byte
  if 0xa0 ≤ v ∧ v ≤ 0xbf then return (v &&& 0x1f).toNat
  else if v = 0xd9 then be 1
  else if v = 0xda then be 2
  else failure

/-- `Cur::str_`. -/
def str : Cur Text := do
  let b ← take (← strLen)
  StateT.lift (fromUtf8 b)

/-- `Cur::bytes_`. -/
def bytes : Cur Bytes := do
  let v ← byte
  let n ← if v = 0xc4 then be 1 else if v = 0xc5 then be 2 else failure
  take n

/-- `Cur::map_len`. -/
def mapLen : Cur Nat := do
  let v ← byte
  if 0x80 ≤ v ∧ v ≤ 0x8f then return (v &&& 0x0f).toNat
  else if v = 0xde then be 2
  else failure

/-- `Cur::list_len`. -/
def listLen : Cur Nat := do
  let v ← byte
  if 0x90 ≤ v ∧ v ≤ 0x9f then return (v &&& 0x0f).toNat
  else if v = 0xdc then be 2
  else failure

/-- A reader run `n` times. -/
def repeat_ {α : Type} (p : Cur α) : Nat → Cur (List α)
  | 0 => return []
  | n + 1 => do
    let a ← p
    let as ← repeat_ p n
    return a :: as

/-- A reader run `n` times over what it has read so far. -/
def iterate {α : Type} (p : α → Cur α) : Nat → α → Cur α
  | 0, a => return a
  | n + 1, a => do iterate p n (← p a)

/-! ## What is written is read back -/

variable {n v : Nat}

theorem run_take {b : Bytes} (h : b.length = n) (rest : Bytes) :
    (take n).run (b ++ rest) = some (b, rest) := by
  subst h
  simp [take, StateT.run]

theorem length_beBytes (n v : Nat) : (beBytes n v).length = n := by
  induction n with
  | zero => rfl
  | succ n ih => simp [beBytes, ih]

theorem foldl_beBytes (acc : Nat) :
    (beBytes n v).foldl (fun acc c => acc * 256 + c.toNat) acc =
      acc * 256 ^ n + v % 256 ^ n := by
  induction n generalizing acc with
  | zero => simp [beBytes, Nat.mod_one]
  | succ n ih =>
    have hdigit : v % 256 ^ (n + 1) = v / 256 ^ n % 256 * 256 ^ n + v % 256 ^ n := by
      rw [pow_succ, Nat.mod_mul, Nat.add_comm, Nat.mul_comm]
    have hbyte : (UInt8.ofNat (v / 256 ^ n)).toNat = v / 256 ^ n % 256 := UInt8.toNat_ofNat'
    rw [beBytes, foldl_cons, ih, hbyte, hdigit, pow_succ]
    ring

theorem beNat_beBytes (h : v < 256 ^ n) : beNat (beBytes n v) = v := by
  rw [beNat, foldl_beBytes, Nat.mod_eq_of_lt h]
  simp

theorem foldl_lt (b : Bytes) (acc : Nat) :
    b.foldl (fun acc c => acc * 256 + c.toNat) acc < (acc + 1) * 256 ^ b.length := by
  induction b generalizing acc with
  | nil => simp
  | cons c b ih =>
    have hc := c.toNat_lt
    calc (c :: b).foldl (fun acc c => acc * 256 + c.toNat) acc
      _ < (acc * 256 + c.toNat + 1) * 256 ^ b.length := ih _
      _ ≤ (acc + 1) * 256 * 256 ^ b.length := Nat.mul_le_mul_right _ (by omega)
      _ = (acc + 1) * 256 ^ (c :: b).length := by rw [length_cons, pow_succ']; ring

theorem beNat_lt (b : Bytes) : beNat b < 256 ^ b.length := by
  have := foldl_lt b 0
  rwa [Nat.zero_add, Nat.one_mul] at this

theorem run_be (h : v < 256 ^ n) (rest : Bytes) :
    (be n).run (beBytes n v ++ rest) = some (v, rest) := by
  simp [be, run_take (length_beBytes n v), beNat_beBytes h]

theorem run_byte (v : UInt8) (rest : Bytes) : byte.run (v :: rest) = some (v, rest) := rfl

theorem run_uint (h : n < 2 ^ 64) (rest : Bytes) :
    uint.run (Mp.uint n ++ rest) = some (n, rest) := by
  unfold Mp.uint uint
  split
  next h₁ =>
    have hle : UInt8.ofNat n ≤ 0x7f ∧ (UInt8.ofNat n).toNat = n := by
      rw [UInt8.le_iff_toNat_le, UInt8.toNat_ofNat', Nat.mod_eq_of_lt (by omega)]
      exact ⟨h₁, rfl⟩
    simp [run_byte, hle]
  next =>
    split
    next => simp [run_byte, run_be (n := 1) (v := n) (by omega)]
    next =>
      split
      next => simp [run_byte, run_be (n := 2) (v := n) (by omega)]
      next =>
        split
        next => simp [run_byte, run_be (n := 4) (v := n) (by omega)]
        next => simp [run_byte, run_be (n := 8) (v := n) (by omega)]

theorem head_spec : (∀ n < 32, 0xa0 ≤ 0xa0 ||| UInt8.ofNat n ∧ 0xa0 ||| UInt8.ofNat n ≤ 0xbf ∧
      ((0xa0 ||| UInt8.ofNat n) &&& 0x1f).toNat = n) ∧
    (∀ n < 16, 0x80 ≤ 0x80 ||| UInt8.ofNat n ∧ 0x80 ||| UInt8.ofNat n ≤ 0x8f ∧
      ((0x80 ||| UInt8.ofNat n) &&& 0x0f).toNat = n) ∧
    ∀ n < 16, 0x90 ≤ 0x90 ||| UInt8.ofNat n ∧ 0x90 ||| UInt8.ofNat n ≤ 0x9f ∧
      ((0x90 ||| UInt8.ofNat n) &&& 0x0f).toNat = n := by
  decide

theorem run_str {t : Text} (h : (utf8 t).length < 2 ^ 16) (rest : Bytes) :
    str.run (Mp.str t ++ rest) = some (t, rest) := by
  unfold Mp.str str strLen
  simp only [append_assoc]
  split
  next h₁ =>
    obtain ⟨ha, hb, hn⟩ := head_spec.1 (utf8 t).length (by omega)
    generalize 0xa0 ||| UInt8.ofNat (utf8 t).length = c at ha hb hn
    simp [-UInt8.toNat_and, run_byte, ha, hb, hn, run_take rfl, fromUtf8_utf8]
  next =>
    split
    next => simp [run_byte, run_be (n := 1) (v := (utf8 t).length) (by omega), run_take rfl, fromUtf8_utf8]
    next =>
      split
      next => simp [run_byte, run_be (n := 2) (v := (utf8 t).length) (by omega), run_take rfl, fromUtf8_utf8]
      next => omega

theorem run_bytes {b : Bytes} (h : b.length < 2 ^ 16) (rest : Bytes) :
    bytes.run (Mp.bytes b ++ rest) = some (b, rest) := by
  unfold Mp.bytes bytes
  simp only [append_assoc]
  split
  next => simp [run_byte, run_be (n := 1) (v := b.length) (by omega), run_take rfl]
  next =>
    split
    next => simp [run_byte, run_be (n := 2) (v := b.length) (by omega), run_take rfl]
    next => omega

theorem run_mapLen (h : n < 2 ^ 16) (rest : Bytes) :
    mapLen.run (Mp.mapHead n ++ rest) = some (n, rest) := by
  unfold Mp.mapHead mapLen
  split
  next h₁ =>
    obtain ⟨ha, hb, hn⟩ := head_spec.2.1 n (by omega)
    generalize 0x80 ||| UInt8.ofNat n = c at ha hb hn
    simp [-UInt8.toNat_and, run_byte, ha, hb, hn]
  next =>
    split
    next => simp [run_byte, run_be (n := 2) (v := n) (by omega)]
    next => omega

theorem run_listLen (h : n < 2 ^ 16) (rest : Bytes) :
    listLen.run (Mp.listHead n ++ rest) = some (n, rest) := by
  unfold Mp.listHead listLen
  split
  next h₁ =>
    obtain ⟨ha, hb, hn⟩ := head_spec.2.2 n (by omega)
    generalize 0x90 ||| UInt8.ofNat n = c at ha hb hn
    simp [-UInt8.toNat_and, run_byte, ha, hb, hn]
  next =>
    split
    next => simp [run_byte, run_be (n := 2) (v := n) (by omega)]
    next => omega

theorem run_repeat_ {α : Type} {p : Cur α} {write : α → Bytes} {as : List α}
    (h : ∀ a ∈ as, ∀ rest, p.run (write a ++ rest) = some (a, rest)) (rest : Bytes) :
    (repeat_ p as.length).run ((as.map write).flatten ++ rest) = some (as, rest) := by
  induction as with
  | nil => rfl
  | cons a as ih =>
    have ha := h a mem_cons_self
    have has := ih fun b hb => h b (mem_cons_of_mem a hb)
    simp [repeat_, ha, has]

end Cur

end Synsema.Captoken
