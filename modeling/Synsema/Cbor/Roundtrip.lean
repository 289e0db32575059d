import Synsema.Cbor.Item

/-!
# What is encoded is decoded

A reader `Reads` some bytes when it answers on them, whatever follows, and stops right
behind them.  Readers compose as the bytes they read do, so the round trip of an item is
one rule for each reader of the decoder.
-/

namespace Synsema.Cbor

open Bytesutil Captoken List

namespace Dec

variable {α β : Type}

/-! ## Readers, step by step -/

variable {d d' : Decoder} {b : Bytes} {n : Nat} {ai : UInt8}

variable {f : α → Dec β} {p : Dec α} {a : α} {message : Text} {c : β}

theorem bind_ok {b : β} :
    (p >>= f) d = .ok (b, d') ↔ ∃ a d₁, p d = .ok (a, d₁) ∧ f a d₁ = .ok (b, d') := by
  show Except.bind (p d) (fun r => f r.1 r.2) = _ ↔ _
  cases p d with
  | error e => simp [Except.bind]
  | ok r =>
    constructor
    · intro h
      exact ⟨r.1, r.2, rfl, h⟩
    · rintro ⟨a, d₁, hr, h⟩
      cases hr
      exact h

theorem pure_ok {b : α} : (pure a : Dec α) d = .ok (b, d') ↔ b = a ∧ d' = d := by
  show Except.ok (a, d) = .ok (b, d') ↔ _
  simp [eq_comm]

theorem err_ok :
    (err message : Dec α) d = .ok (a, d') ↔ False := by
  simp [err]

/-- The reader answers `a` on `b`, whatever follows, and stops behind it. -/
def Reads (p : Dec α) (b : Bytes) (a : α) : Prop :=
  ∀ rest pos saw, p ⟨b ++ rest, pos, saw⟩ = .ok (a, ⟨rest, pos + b.length, saw⟩)

theorem Reads.pure (a : α) : Reads (pure a) [] a := fun _ _ _ => rfl

theorem Reads.bind {b' : Bytes} (hp : Reads p b a) (hf : Reads (f a) b' c) :
    Reads (p >>= f) (b ++ b') c := by
  intro rest pos saw
  rw [bind_ok]
  refine ⟨a, _, by rw [append_assoc]; exact hp _ _ _, ?_⟩
  rw [hf, length_append, Nat.add_assoc]

theorem Reads.map (hp : Reads p b a) (f : α → β) : Reads (do return f (← p)) b (f a) := by
  have := hp.bind (f := fun a => Pure.pure (f a)) (Reads.pure (f a))
  rwa [append_nil] at this

theorem reads_byte (b : UInt8) : Reads byte [b] b := fun _ _ _ => rfl

theorem reads_take (b : Bytes) : Reads (take b.length) b b := by
  intro rest pos saw
  have : ¬ (b ++ rest).length < b.length := by simp
  simp [take]

theorem reads_be {v : Nat} (h : v < 256 ^ n) : Reads (be n) (beBytes n v) v := by
  have := (reads_take (beBytes n v)).map Cur.beNat
  rw [Cur.length_beBytes, Cur.beNat_beBytes h] at this
  exact this

/-! ## Heads -/

theorem firstByte_spec : ∀ m < 8, ∀ a < 32,
    (UInt8.ofNat m <<< 5 ||| UInt8.ofNat a) >>> 5 = UInt8.ofNat m ∧
      (UInt8.ofNat m <<< 5 ||| UInt8.ofNat a) &&& 0x1f = UInt8.ofNat a := by
  decide

theorem major_ai {major : UInt8} (hm : major < 8) (ha : ai < 32) :
    (major <<< 5 ||| ai) >>> 5 = major ∧ (major <<< 5 ||| ai) &&& 0x1f = ai := by
  have := firstByte_spec major.toNat (UInt8.lt_iff_toNat_lt.mp hm) ai.toNat
    (UInt8.lt_iff_toNat_lt.mp ha)
  rwa [UInt8.ofNat_toNat, UInt8.ofNat_toNat] at this

theorem reads_arg_lt (h : ai ≤ 23) : Reads (arg ai) [] (some ai.toNat) := by
  unfold arg
  rw [if_pos h]
  exact Reads.pure _

theorem head_spec (major : UInt8) (v : UInt64) : ∃ ai tail,
    head major v = (major <<< 5 ||| ai) :: tail ∧ ai < 28 ∧ Reads (arg ai) tail (some v.toNat) := by
  have hlt := v.toNat_lt
  unfold head
  split_ifs with h₁ h₂ h₃ h₄
  · have hv₁ : v.toNat < 24 := UInt64.lt_iff_toNat_lt.mp h₁
    have hv : v.toUInt8.toNat = v.toNat := by
      rw [UInt64.toNat_toUInt8]
      exact Nat.mod_eq_of_lt (by omega)
    refine ⟨_, [], rfl, ?_, ?_⟩
    · rw [UInt8.lt_iff_toNat_lt, hv]
      exact hv₁.trans (by decide)
    · rw [← hv]
      refine reads_arg_lt ?_
      rw [UInt8.le_iff_toNat_le, hv]
      exact Nat.le_of_lt_succ hv₁
  · have hv₂ : v.toNat ≤ 0xff := UInt64.le_iff_toNat_le.mp h₂
    refine ⟨24, _, rfl, by decide, ?_⟩
    have hb : beBytes 1 v.toNat = [UInt8.ofNat v.toNat] := by simp [beBytes]
    have := (reads_byte (UInt8.ofNat v.toNat)).map fun b => some b.toNat
    rw [UInt8.toNat_ofNat', Nat.mod_eq_of_lt (by omega)] at this
    rw [hb]
    exact this
  · have hv₃ : v.toNat ≤ 0xffff := UInt64.le_iff_toNat_le.mp h₃
    exact ⟨25, _, rfl, by decide, (reads_be (by omega)).map some⟩
  · have hv₄ : v.toNat ≤ 0xffffffff := UInt64.le_iff_toNat_le.mp h₄
    exact ⟨26, _, rfl, by decide, (reads_be (by omega)).map some⟩
  · exact ⟨27, _, rfl, by decide, (reads_be (by omega)).map some⟩

theorem Reads.len {what : Text} {payload : Bytes} {f : Nat → Dec β}
    (harg : Reads (arg ai) b (some n)) (hn : n ≤ payload.length) (hf : Reads (f n) payload c) :
    Reads (len ai what >>= f) (b ++ payload) c := by
  intro rest pos saw
  rw [bind_ok]
  refine ⟨n, ⟨payload ++ rest, pos + b.length, saw⟩, ?_, ?_⟩
  · unfold Dec.len
    rw [bind_ok]
    refine ⟨some n, _, by rw [append_assoc]; exact harg _ _ _, ?_⟩
    have hle : ¬ (payload ++ rest).length < n := by
      rw [length_append]
      omega
    show (if (payload ++ rest).length < n then _ else _ : Dec Nat) _ = _
    rw [if_neg hle]
    rfl
  · rw [hf, length_append, Nat.add_assoc]

theorem Reads.definiteArg (harg : Reads (arg ai) b (some n)) :
    Reads (definiteArg ai message) b n := by
  rw [← append_nil b]
  exact harg.bind (Reads.pure n)

theorem Reads.times {write : α → Bytes} {as : List α} (h : ∀ a ∈ as, Reads p (write a) a) :
    Reads (times p as.length) (as.flatMap write) as := by
  induction as with
  | nil => exact Reads.pure []
  | cons a as ih =>
    have has := ih fun b hb => h b (mem_cons_of_mem a hb)
    exact (h a mem_cons_self).bind (has.map (a :: ·))

theorem Reads.item {allow : Bool} {room : Nat} (major ai : UInt8) {x : Cbor} (hm : major < 8)
    (ha : ai < 28) (h : Reads (closedItem (item allow room) major ai) b x) :
    Reads (item allow (room + 1)) ((major <<< 5 ||| ai) :: b) x := by
  have hai : ai ≠ 31 := by
    rintro rfl
    exact absurd ha (by decide)
  obtain ⟨h₁, h₂⟩ := major_ai hm (UInt8.lt_trans ha (show (28 : UInt8) < 32 by decide))
  refine (reads_byte _).bind ?_
  rw [h₁, h₂]
  simpa [hai] using h

end Dec

/-! ## Items -/

/-- An item that the format has room for, with nothing in it nested deeper than so many
levels: its integers lie in the two integer types, and every length is that of something in
memory. -/
inductive Fits : Nat → Cbor → Prop
  | int {n : Nat} {i : Int} : -2 ^ 64 ≤ i → i < 2 ^ 64 → Fits n (.int i)
  | bytes {n : Nat} {b : Bytes} : b.length < 2 ^ 64 → Fits n (.bytes b)
  | text {n : Nat} {t : Text} : (utf8 t).length < 2 ^ 64 → Fits n (.text t)
  | array {n : Nat} {items : List Cbor} : items.length < 2 ^ 64 → (items ≠ [] → 0 < n) →
      (∀ x ∈ items, Fits (n - 1) x) → Fits n (.array items)
  | map {n : Nat} {pairs : List (Cbor × Cbor)} : pairs.length < 2 ^ 64 →
      (pairs ≠ [] → 0 < n) → (∀ p ∈ pairs, Fits (n - 1) p.1) →
      (∀ p ∈ pairs, Fits (n - 1) p.2) → Fits n (.map pairs)
  | tag {n : Nat} {t : UInt64} {x : Cbor} : 0 < n → Fits (n - 1) x → Fits n (.tag t x)
  | bool {n : Nat} {b : Bool} : Fits n (.bool b)
  | null {n : Nat} : Fits n .null
  | undefined {n : Nat} : Fits n .undefined
  | float {n : Nat} {bits : UInt64} : Fits n (.float bits)

theorem encodeAll_eq (xs : List Cbor) : encodeAll xs = xs.flatMap encode := by
  induction xs with
  | nil => rw [encodeAll, flatMap_nil]
  | cons x xs ih => rw [encodeAll, flatMap_cons, ih]

theorem encodePairs_eq (ps : List (Cbor × Cbor)) :
    encodePairs ps = ps.flatMap fun p => encode p.1 ++ encode p.2 := by
  induction ps with
  | nil => rw [encodePairs, flatMap_nil]
  | cons p ps ih => rw [encodePairs, flatMap_cons, ih]

theorem head_ne_nil (major : UInt8) (v : UInt64) : head major v ≠ [] := by
  obtain ⟨ai, tail, h, -⟩ := Dec.head_spec major v
  rw [h]
  exact cons_ne_nil _ _

theorem length_encode_pos (x : Cbor) : 0 < (encode x).length := by
  rw [length_pos_iff]
  cases x with
  | int i =>
    rw [encode]
    split_ifs <;> exact head_ne_nil _ _
  | bool b => cases b <;> simp [encode]
  | _ => simp [encode, head_ne_nil]

theorem length_le_length_flatMap {α : Type} {write : α → Bytes} {as : List α}
    (h : ∀ a ∈ as, 0 < (write a).length) : as.length ≤ (as.flatMap write).length := by
  induction as with
  | nil => exact Nat.zero_le _
  | cons a as ih =>
    have ha := h a mem_cons_self
    have has := ih fun b hb => h b (mem_cons_of_mem a hb)
    rw [flatMap_cons, length_append, length_cons]
    omega

namespace Dec

variable {allow : Bool} {room : Nat}

variable {major : UInt8} {x : Cbor} {n : Nat}

theorem Reads.head {v : UInt64} {b : Bytes} (hm : major < 8)
    (h : ∀ ai tail, Reads (arg ai) tail (some v.toNat) →
      Reads (closedItem (Dec.item allow room) major ai) (tail ++ b) x) :
    Reads (Dec.item allow (room + 1)) (Cbor.head major v ++ b) x := by
  obtain ⟨ai, tail, hhead, hai, harg⟩ := head_spec major v
  rw [hhead]
  exact Reads.item major ai hm hai (h ai tail harg)

variable {what : Text}

theorem reads_string {b : Bytes} {f : Bytes → Dec Cbor}
    (hm : major < 8) (hb : b.length < 2 ^ 64)
    (hclosed : ∀ ai, closedItem (Dec.item allow room) major ai =
      Dec.len ai what >>= fun n => take n >>= f)
    (hf : Reads (f b) [] x) :
    Reads (Dec.item allow (room + 1)) (Cbor.head major (UInt64.ofNat b.length) ++ b) x := by
  refine Reads.head hm fun ai tail harg => ?_
  rw [UInt64.toNat_ofNat_of_lt' hb] at harg
  rw [hclosed]
  refine Reads.len harg le_rfl ?_
  have := (reads_take b).bind hf
  rwa [append_nil] at this

theorem reads_number (allow : Bool) (room : Nat) {message : Text} (f : Nat → Cbor) (hm : major < 8)
    (hn : n < 2 ^ 64)
    (hclosed : ∀ ai, closedItem (Dec.item allow room) major ai =
      do return f (← definiteArg ai message)) :
    Reads (Dec.item allow (room + 1)) (Cbor.head major (UInt64.ofNat n)) (f n) := by
  rw [← append_nil (Cbor.head major _)]
  refine Reads.head hm fun ai tail harg => ?_
  rw [UInt64.toNat_ofNat_of_lt' hn] at harg
  rw [hclosed, append_nil]
  exact (Reads.definiteArg harg).map f

theorem reads_times {α : Type} {p : Dec α} {write : α → Bytes}
    {as : List α} (f : List α → Cbor) (hm : major < 8) (hlen : as.length < 2 ^ 64)
    (hclosed : ∀ ai, closedItem (Dec.item allow room) major ai =
      Dec.len ai what >>= fun n => do return f (← times p n))
    (hpos : ∀ a ∈ as, 0 < (write a).length) (hp : ∀ a ∈ as, Reads p (write a) a) :
    Reads (Dec.item allow (room + 1))
      (Cbor.head major (UInt64.ofNat as.length) ++ as.flatMap write) (f as) := by
  refine Reads.head hm fun ai tail harg => ?_
  rw [UInt64.toNat_ofNat_of_lt' hlen] at harg
  rw [hclosed]
  exact Reads.len harg (length_le_length_flatMap hpos) ((Reads.times hp).map f)

theorem reads_encode (h : Fits n x) (hroom : n ≤ room) :
    Reads (item allow (room + 1)) (encode x) x := by
  induction h generalizing room with
  | @int n i hlo hhi =>
    rw [encode]
    split_ifs with hi
    · have hread := reads_number allow room (n := i.toNat)
        (fun n => .int n) (show (0 : UInt8) < 8 by decide) (by omega) (fun _ => rfl)
      rwa [Int.toNat_of_nonneg hi] at hread
    · have hread := reads_number allow room (n := (-1 - i).toNat)
        (fun n => .int (-1 - n)) (show (1 : UInt8) < 8 by decide) (by omega) (fun _ => rfl)
      rwa [Int.toNat_of_nonneg (by omega), Int.sub_sub_self] at hread
  | @bytes n b hb =>
    rw [encode]
    exact reads_string (by decide) hb (fun _ => rfl) (Reads.pure _)
  | @text n t ht =>
    rw [encode]
    refine reads_string (by decide) ht (fun _ => rfl) ?_
    rw [utf8Text, fromUtf8_utf8]
    exact Reads.pure _
  | @array n items hlen hn hfits ih =>
    rw [encode, encodeAll_eq]
    refine reads_times .array (by decide) hlen (fun _ => rfl) (fun x _ => length_encode_pos x)
      (fun x hx => ?_)
    obtain ⟨r, rfl⟩ := Nat.exists_eq_add_one.mpr ((hn (ne_nil_of_mem hx)).trans_le hroom)
    exact ih x hx (Nat.sub_le_of_le_add hroom)
  | @map n pairs hlen hn hk hv ihk ihv =>
    rw [encode, encodePairs_eq]
    refine reads_times .map (by decide) hlen (fun _ => rfl) (fun p _ => ?_) (fun p hp => ?_)
    · rw [length_append]
      exact Nat.add_pos_left (length_encode_pos p.1) _
    · obtain ⟨r, rfl⟩ := Nat.exists_eq_add_one.mpr ((hn (ne_nil_of_mem hp)).trans_le hroom)
      have hr := Nat.sub_le_of_le_add hroom
      exact (ihk p hp hr).bind ((ihv p hp hr).map fun v => (p.1, v))
  | @tag n t x hn hx ih =>
    obtain ⟨r, rfl⟩ := Nat.exists_eq_add_one.mpr (hn.trans_le hroom)
    rw [encode]
    refine Reads.head (by decide) fun ai tail harg => ?_
    refine (Reads.definiteArg harg).bind ?_
    rw [UInt64.ofNat_toNat]
    exact (ih (Nat.sub_le_of_le_add hroom)).map fun y => Cbor.tag t y
  | @bool n b =>
    cases b
    · exact Reads.item 7 20 (by decide) (by decide) (Reads.pure _)
    · exact Reads.item 7 21 (by decide) (by decide) (Reads.pure _)
  | null => exact Reads.item 7 22 (by decide) (by decide) (Reads.pure _)
  | undefined => exact Reads.item 7 23 (by decide) (by decide) (Reads.pure _)
  | @float n bits =>
    rw [encode]
    refine Reads.item 7 27 (by decide) (by decide) ?_
    have := (reads_be (n := 8) bits.toNat_lt).map fun v => Cbor.float (UInt64.ofNat v)
    rwa [UInt64.ofNat_toNat] at this

end Dec

end Synsema.Cbor
