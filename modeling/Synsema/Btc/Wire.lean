import Synsema.Bytesutil
import Synsema.Lib.Reader
import Mathlib.Tactic.Ring
import Mathlib.Data.UInt

/-!
# Numbers on the wire

The numbers of a Bitcoin transaction (`synsema-stdlib/src/blockchain_btc.rs`): integers with their
low bytes first, and CompactSize, whose long forms are refused for a number that fits a shorter one
(`write_varint`, `read_varint`).  Each reader is exact for its writer.
-/

namespace Synsema.Btc

open Text Bytesutil Reader List

/-! ## Low bytes first -/

/-- The `k` low bytes of a number, the lowest first: `to_le_bytes`. -/
def leBytes : Nat → Nat → Bytes
  | 0, _ => []
  | k + 1, n => UInt8.ofNat n :: leBytes k (n / 256)

/-- The number of some bytes, the lowest first: `from_le_bytes`. -/
def leNat : Bytes → Nat
  | [] => 0
  | b :: bs => b.toNat + 256 * leNat bs

@[simp]
theorem length_leBytes (k n : Nat) : (leBytes k n).length = k := by
  induction k generalizing n with
  | zero => rfl
  | succ k ih => rw [leBytes, length_cons, ih]

theorem leNat_leBytes {k n : Nat} (h : n < 256 ^ k) : leNat (leBytes k n) = n := by
  induction k generalizing n with
  | zero =>
    rw [pow_zero] at h
    exact (Nat.lt_one_iff.mp h).symm
  | succ k ih =>
    have hdiv : n / 256 < 256 ^ k := by
      rw [pow_succ] at h
      exact Nat.div_lt_of_lt_mul (by rwa [Nat.mul_comm])
    rw [leBytes, leNat, ih hdiv, UInt8.toNat_ofNat']
    omega

theorem leBytes_leNat {k : Nat} {b : Bytes} (h : b.length = k) : leBytes k (leNat b) = b := by
  induction k generalizing b with
  | zero =>
    obtain rfl := length_eq_zero_iff.mp h
    rfl
  | succ k ih =>
    obtain ⟨c, b, rfl⟩ := exists_cons_of_length_eq_add_one h
    have hdiv : (c.toNat + 256 * leNat b) / 256 = leNat b := by
      have := c.toNat_lt
      omega
    have hlow : UInt8.ofNat (c.toNat + 256 * leNat b) = c := by
      apply UInt8.toNat_inj.mp
      rw [UInt8.toNat_ofNat']
      have := c.toNat_lt
      omega
    rw [leNat, leBytes, hdiv, hlow, ih (Nat.succ.inj h)]

theorem leNat_lt (b : Bytes) : leNat b < 256 ^ b.length := by
  induction b with
  | nil => exact Nat.one_pos
  | cons c b ih =>
    rw [leNat, length_cons, pow_succ]
    have := c.toNat_lt
    omega

/-! ## Reading numbers -/

/-- The error of every reader that runs out of bytes. -/
def truncated (fname : Text) : Text :=
  fname ++ ": truncated transaction (unexpected end of input)"

def readBytes (n : Nat) (fname : Text) : Reader UInt8 Text Bytes := Reader.take n (truncated fname)

def readU32le (fname : Text) : Reader UInt8 Text UInt32 := do
  let b ← readBytes 4 fname
  pure (.ofNat (leNat b))

def readU64le (fname : Text) : Reader UInt8 Text UInt64 := do
  let b ← readBytes 8 fname
  pure (.ofNat (leNat b))

section Exact

variable {data : Bytes} (fname : Text)

theorem exact_readU32le :
    Exact data (readU32le fname) (fun v => leBytes 4 v.toNat) fun _ => True := by
  have h := (Exact.take 4 (truncated fname) : Exact data _ _ _).map
    (f := fun b => UInt32.ofNat (leNat b)) (g := fun v => leBytes 4 v.toNat) (Q := fun _ => True)
    (fun b hb => ?_) fun v _ _ => ?_
  · exact h.congr (fun v => by simp) fun v _ => rfl
  · have hlt : leNat b < 2 ^ 32 := lt_of_lt_of_eq (hb ▸ leNat_lt b) (by norm_num)
    rw [UInt32.toNat_ofNat', Nat.mod_eq_of_lt hlt]
    exact ⟨leBytes_leNat hb, trivial⟩
  · have hlt : v.toNat < 256 ^ 4 := v.toNat_lt
    rw [leNat_leBytes hlt, UInt32.ofNat_toNat]

theorem exact_readU64le :
    Exact data (readU64le fname) (fun v => leBytes 8 v.toNat) fun _ => True := by
  have h := (Exact.take 8 (truncated fname) : Exact data _ _ _).map
    (f := fun b => UInt64.ofNat (leNat b)) (g := fun v => leBytes 8 v.toNat) (Q := fun _ => True)
    (fun b hb => ?_) fun v _ _ => ?_
  · exact h.congr (fun v => by simp) fun v _ => rfl
  · have hlt : leNat b < 2 ^ 64 := lt_of_lt_of_eq (hb ▸ leNat_lt b) (by norm_num)
    rw [UInt64.toNat_ofNat', Nat.mod_eq_of_lt hlt]
    exact ⟨leBytes_leNat hb, trivial⟩
  · have hlt : v.toNat < 256 ^ 8 := v.toNat_lt
    rw [leNat_leBytes hlt, UInt64.ofNat_toNat]

end Exact

/-! ## CompactSize -/

/-- The first byte of a number. -/
def varintHead (n : UInt64) : UInt8 :=
  if n ≤ 0xfc then n.toUInt8
  else if n ≤ 0xffff then 0xfd
  else if n ≤ 0xffffffff then 0xfe
  else 0xff

/-- The bytes behind it. -/
def varintTail (n : UInt64) : Bytes :=
  if n ≤ 0xfc then []
  else if n ≤ 0xffff then leBytes 2 n.toNat
  else if n ≤ 0xffffffff then leBytes 4 n.toNat
  else leBytes 8 n.toNat

def writeVarint (n : UInt64) : Bytes := varintHead n :: varintTail n

/-- A long form, of `width` bytes, for numbers from `min` on. -/
def longForm (fname : Text) (width min : Nat) : Reader UInt8 Text UInt64 := do
  let raw ← readBytes width fname
  if leNat raw < min then
    fail (fname ++
      ": non-canonical CompactSize encoding (a longer form than the value needs)")
  else pure (.ofNat (leNat raw))

def readVarint (fname : Text) : Reader UInt8 Text UInt64 := do
  let b ← Reader.next (truncated fname)
  if b ≤ 0xfc then pure b.toUInt64
  else if b = 0xfd then longForm fname 2 0xfd
  else if b = 0xfe then longForm fname 4 0x10000
  else longForm fname 8 0x100000000

variable {data : Bytes} (fname : Text)

theorem exact_longForm {width min : Nat} (hwidth : 256 ^ width ≤ 2 ^ 64) :
    Exact data (longForm fname width min) (fun n => leBytes width n.toNat)
      fun n => min ≤ n.toNat ∧ n.toNat < 256 ^ width := by
  have h := (Exact.take width (truncated fname) : Exact data _ _ _).bind
    (f := fun raw => if leNat raw < min then fail (fname ++
      ": non-canonical CompactSize encoding (a longer form than the value needs)")
      else pure (UInt64.ofNat (leNat raw)))
    (g := fun n => leBytes width n.toNat) (w := fun _ => [])
    (Q := fun n => min ≤ n.toNat ∧ n.toNat < 256 ^ width) fun raw hraw => ?_
  · exact h.congr (fun n => by simp) fun n _ => append_nil _
  · have hlt := leNat_lt raw
    rw [hraw] at hlt
    have hnat : (UInt64.ofNat (leNat raw)).toNat = leNat raw := by
      rw [UInt64.toNat_ofNat', Nat.mod_eq_of_lt (lt_of_lt_of_le hlt hwidth)]
    refine Exact.guard (fun hmin => ?_) fun hmin n hn _ _ hpre => ?_
    · refine (Exact.pure _).congr (fun n => ?_) fun _ _ => rfl
      constructor
      · rintro rfl
        rw [hnat]
        exact ⟨leBytes_leNat hraw, not_lt.mp hmin, hlt⟩
      · rintro ⟨rfl, -, hn⟩
        rw [leNat_leBytes hn, UInt64.ofNat_toNat]
    · obtain ⟨rfl, hmin', hn⟩ := hn
      rw [leNat_leBytes hn] at hmin
      exact absurd hmin' (not_le.mpr hmin)

theorem varint_cases (n : UInt64) :
    (n.toNat ≤ 0xfc ∧ varintHead n = n.toUInt8 ∧ varintTail n = []) ∨
      ((0xfd ≤ n.toNat ∧ n.toNat < 256 ^ 2) ∧ varintHead n = 0xfd ∧
        varintTail n = leBytes 2 n.toNat) ∨
      ((0x10000 ≤ n.toNat ∧ n.toNat < 256 ^ 4) ∧ varintHead n = 0xfe ∧
        varintTail n = leBytes 4 n.toNat) ∨
      ((0x100000000 ≤ n.toNat ∧ n.toNat < 256 ^ 8) ∧ varintHead n = 0xff ∧
        varintTail n = leBytes 8 n.toNat) := by
  have hlt := n.toNat_lt
  simp only [varintHead, varintTail, UInt64.le_iff_toNat_le, UInt64.reduceToNat]
  by_cases h₁ : n.toNat ≤ 252
  · exact .inl ⟨h₁, if_pos h₁, if_pos h₁⟩
  · simp only [if_neg h₁]
    by_cases h₂ : n.toNat ≤ 65535
    · exact .inr (.inl ⟨by omega, if_pos h₂, if_pos h₂⟩)
    · simp only [if_neg h₂]
      by_cases h₃ : n.toNat ≤ 4294967295
      · exact .inr (.inr (.inl ⟨by omega, if_pos h₃, if_pos h₃⟩))
      · exact .inr (.inr (.inr ⟨by omega, if_neg h₃, if_neg h₃⟩))

theorem varintHead_eq_iff {b : UInt8} (hb : b ≤ 0xfc) (n : UInt64) :
    varintHead n = b ↔ n = b.toUInt64 := by
  have hb : b.toNat ≤ 252 := UInt8.le_iff_toNat_le.mp hb
  have hlarge : 252 < n.toNat → n ≠ b.toUInt64 := by
    rintro h rfl
    rw [UInt8.toNat_toUInt64] at h
    omega
  rcases varint_cases n with ⟨hn, hhead, -⟩ | ⟨hn, hhead, -⟩ | ⟨hn, hhead, -⟩ | ⟨hn, hhead, -⟩
  · rw [hhead, ← UInt8.toNat_inj, ← UInt64.toNat_inj, UInt64.toNat_toUInt8,
      UInt8.toNat_toUInt64, Nat.mod_eq_of_lt (by omega)]
  · rw [hhead]
    refine iff_of_false ?_ (hlarge (by omega))
    rintro rfl
    exact absurd hb (by decide)
  · rw [hhead]
    refine iff_of_false ?_ (hlarge (by omega))
    rintro rfl
    exact absurd hb (by decide)
  · rw [hhead]
    refine iff_of_false ?_ (hlarge (by omega))
    rintro rfl
    exact absurd hb (by decide)

theorem varintTail_of_le {n : UInt64} (h : n.toNat ≤ 0xfc) : varintTail n = [] :=
  if_pos (UInt64.le_iff_toNat_le.mpr h)

theorem varintHead_long (n : UInt64) :
    (varintHead n = 0xfd ↔ 0xfd ≤ n.toNat ∧ n.toNat < 256 ^ 2) ∧
      (varintHead n = 0xfe ↔ 0x10000 ≤ n.toNat ∧ n.toNat < 256 ^ 4) ∧
      (varintHead n = 0xff ↔ 0x100000000 ≤ n.toNat ∧ n.toNat < 256 ^ 8) := by
  have hshort : n.toNat ≤ 0xfc → ∀ b : UInt8, 0xfc < b.toNat → varintHead n ≠ b := by
    rintro hn b hb rfl
    rcases varint_cases n with ⟨-, hhead, -⟩ | ⟨h, -⟩ | ⟨h, -⟩ | ⟨h, -⟩
    · rw [hhead, UInt64.toNat_toUInt8] at hb
      omega
    all_goals omega
  rcases varint_cases n with ⟨hn, -, -⟩ | ⟨hn, hhead, -⟩ | ⟨hn, hhead, -⟩ | ⟨hn, hhead, -⟩
  · have h := hshort hn
    exact ⟨iff_of_false (h _ (by decide)) (by omega), iff_of_false (h _ (by decide)) (by omega),
      iff_of_false (h _ (by decide)) (by omega)⟩
  · rw [hhead]
    exact ⟨iff_of_true rfl hn, iff_of_false (by decide) (by omega),
      iff_of_false (by decide) (by omega)⟩
  · rw [hhead]
    exact ⟨iff_of_false (by decide) (by omega), iff_of_true rfl hn,
      iff_of_false (by decide) (by omega)⟩
  · rw [hhead]
    exact ⟨iff_of_false (by decide) (by omega), iff_of_false (by decide) (by omega),
      iff_of_true rfl hn⟩

theorem exact_readVarint : Exact data (readVarint fname) writeVarint fun _ => True := by
  have h := (Exact.next (truncated fname) : Exact data _ _ _).bind
    (f := fun b => if b ≤ 0xfc then pure b.toUInt64 else if b = 0xfd then longForm fname 2 0xfd
      else if b = 0xfe then longForm fname 4 0x10000 else longForm fname 8 0x100000000)
    (g := varintHead) (w := varintTail) (Q := fun _ => True) fun b _ => ?_
  · exact h.congr (fun n => by simp) fun n _ => rfl
  · simp only [and_true]
    by_cases h₁ : b ≤ 0xfc
    · rw [if_pos h₁]
      refine (Exact.pure _).congr (fun n => (varintHead_eq_iff h₁ n).symm) fun n hn => ?_
      subst hn
      exact (varintTail_of_le (by
        rw [UInt8.toNat_toUInt64]
        exact UInt8.le_iff_toNat_le.mp h₁)).symm
    · rw [if_neg h₁]
      by_cases h₂ : b = 0xfd
      · rw [if_pos h₂, h₂]
        refine (exact_longForm fname (by decide)).congr (fun n => (varintHead_long n).1.symm) ?_
        intro n hn
        rcases varint_cases n with ⟨h, -⟩ | ⟨-, -, htail⟩ | ⟨h, -⟩ | ⟨h, -⟩
        · omega
        · exact htail.symm
        · omega
        · omega
      · rw [if_neg h₂]
        by_cases h₃ : b = 0xfe
        · rw [if_pos h₃, h₃]
          refine (exact_longForm fname (by decide)).congr
            (fun n => (varintHead_long n).2.1.symm) ?_
          intro n hn
          rcases varint_cases n with ⟨h, -⟩ | ⟨h, -⟩ | ⟨-, -, htail⟩ | ⟨h, -⟩
          · omega
          · omega
          · exact htail.symm
          · omega
        · have h₄ : b = 0xff := by
            rw [UInt8.le_iff_toNat_le] at h₁
            rw [← UInt8.toNat_inj] at h₂ h₃ ⊢
            have := b.toNat_lt
            simp only [UInt8.reduceToNat] at h₁ h₂ h₃ ⊢
            omega
          rw [if_neg h₃, h₄]
          refine (exact_longForm fname (by decide)).congr
            (fun n => (varintHead_long n).2.2.symm) ?_
          intro n hn
          rcases varint_cases n with ⟨h, -⟩ | ⟨h, -⟩ | ⟨h, -⟩ | ⟨-, -, htail⟩
          · omega
          · omega
          · omega
          · exact htail.symm

/-! ## What is touched -/

section Tame

variable {bound : Nat}

theorem tame_readU32le : Tame data bound (readU32le fname) :=
  (Tame.take 4 _).bind fun _ => .pure _

theorem tame_readU64le : Tame data bound (readU64le fname) :=
  (Tame.take 8 _).bind fun _ => .pure _

theorem tame_readVarint : Tame data bound (readVarint fname) := by
  have hlong : ∀ width min, Tame data bound (longForm fname width min) := fun width min =>
    (Tame.take width _).bind fun raw => .ite (fun _ => .fail _) fun _ => .pure _
  exact (Tame.next _).bind fun b ↦ .ite (fun _ ↦ .pure _) fun _ ↦ .ite (fun _ ↦ hlong _ _) fun _ ↦
    .ite (fun _ => hlong _ _) fun _ => hlong _ _

end Tame

end Synsema.Btc
