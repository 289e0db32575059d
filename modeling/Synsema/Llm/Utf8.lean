import Synsema.Lib.Feed
import Synsema.Server.Routing
import Mathlib.Tactic.IntervalCases

/-!
# Characters cut between two reads

`utf8_drain` (`synsema-runtime/src/llm_providers.rs`): the bytes of a response come in reads that
may end within a character.  What it gives over all reads is the text whose bytes they are, wherever
they are cut (`drains_utf8`).
-/

namespace Synsema.Llm

open Text Bytesutil Server List

/-! ## Decoding -/

/-- What `str::from_utf8` finds: a text, a text and the bytes of a character that goes on behind the
end (`error_len` is `None`), or what is no text. -/
inductive Utf8 where
  | whole (t : Text)
  | cut (valid : Text) (tail : Bytes)
  | broken
  deriving DecidableEq

/-- A character stands before. -/
def Utf8.cons (c : Char) : Utf8 → Utf8
  | whole t => whole (c :: t)
  | cut valid tail => cut (c :: valid) tail
  | broken => broken

/-- A text stands before. -/
def Utf8.append (t : Text) (u : Utf8) : Utf8 := t.foldr Utf8.cons u

@[simp]
theorem Utf8.append_whole (t s : Text) : Utf8.append t (.whole s) = .whole (t ++ s) := by
  induction t with
  | nil => rfl
  | cons c t ih => exact congrArg (Utf8.cons c) ih

@[simp]
theorem Utf8.append_cut (t s : Text) (tail : Bytes) :
    Utf8.append t (.cut s tail) = .cut (t ++ s) tail := by
  induction t with
  | nil => rfl
  | cons c t ih => exact congrArg (Utf8.cons c) ih

/-- `str::from_utf8`, with the character that has begun and its bytes so far. -/
def scanUtf8 (pending : Option Pending) (begun : Bytes) : Bytes → Utf8
  | [] => if pending.isSome then .cut [] begun else .whole []
  | b :: rest =>
    match pending with
    | none =>
      match firstByte b.toNat with
      | .inl c => (scanUtf8 none [] rest).cons c
      | .inr (some p) => scanUtf8 (some p) [b] rest
      | .inr none => .broken
    | some p =>
      if p.lo ≤ b.toNat ∧ b.toNat ≤ p.hi then
        let value := p.value * 64 + (b.toNat - 0x80)
        match p.more with
        | 0 => (scanUtf8 none [] rest).cons (Char.ofNat value)
        | more + 1 => scanUtf8 (some ⟨0x80, 0xbf, more, value⟩) (begun ++ [b]) rest
      else .broken

/-- `utf8_drain`: the text that is there, and what is kept for the next read. -/
def utf8Drain (carry bytes : Bytes) : Text × Bytes :=
  match scanUtf8 none [] (carry ++ bytes) with
  | .whole s => (s, [])
  | .cut valid tail => (valid, tail)
  | .broken => (lossy none (carry ++ bytes), [])

/-! ## The bytes of a character -/

/-- The bytes that a started character waits for, and the character. -/
inductive Awaits : Pending → Bytes → Char → Prop where
  | last {p : Pending} {b : UInt8} {c : Char} : p.lo ≤ b.toNat ∧ b.toNat ≤ p.hi → p.more = 0 →
      Char.ofNat (p.value * 64 + (b.toNat - 0x80)) = c → Awaits p [b] c
  | more {p : Pending} {b : UInt8} {bs : Bytes} {c : Char} {n : Nat} :
      p.lo ≤ b.toNat ∧ b.toNat ≤ p.hi → p.more = n + 1 →
      Awaits ⟨0x80, 0xbf, n, p.value * 64 + (b.toNat - 0x80)⟩ bs c → Awaits p (b :: bs) c

namespace Awaits

variable {p : Pending} {bs : Bytes} {c : Char}

theorem scan (h : Awaits p bs c) (begun rest : Bytes) :
    scanUtf8 (some p) begun (bs ++ rest) = (scanUtf8 none [] rest).cons c := by
  induction h generalizing begun with
  | last hrange hmore hc =>
    subst hc
    simp only [cons_append, nil_append, scanUtf8, if_pos hrange, hmore]
  | more hrange hmore _ ih =>
    simp only [cons_append, scanUtf8, if_pos hrange, hmore, ih]

theorem scan_cut (h : Awaits p bs c) {front : Bytes} (hfront : front <+: bs) (hne : front ≠ bs)
    (begun : Bytes) : scanUtf8 (some p) begun front = .cut [] (begun ++ front) := by
  induction h generalizing begun front with
  | last hrange hmore hc =>
    cases front with
    | nil => simp [scanUtf8]
    | cons b front =>
      obtain ⟨rfl, hnil⟩ := cons_prefix_cons.mp hfront
      exact absurd (by rw [prefix_nil.mp hnil]) hne
  | more hrange hmore _ ih =>
    cases front with
    | nil => simp [scanUtf8]
    | cons b front =>
      obtain ⟨rfl, hrest⟩ := cons_prefix_cons.mp hfront
      have := ih hrest (fun he => hne (he ▸ rfl)) (begun ++ [b])
      simp only [scanUtf8, if_pos hrange, hmore, this, append_assoc, singleton_append]

end Awaits

variable {n : Nat} {t : Text} {carry : Bytes}

theorem toNat_ofNat_of_lt (h : n < 256) : (UInt8.ofNat n).toNat = n := by
  rw [UInt8.toNat_ofNat', Nat.mod_eq_of_lt h]

theorem Awaits.of_last {p : Pending} {c : Char} (hn : n < 64) (hmore : p.more = 0)
    (hlo : p.lo ≤ 0x80 + n) (hhi : 0x80 + n ≤ p.hi) (hc : p.value * 64 + n = c.toNat) :
    Awaits p [UInt8.ofNat (n + 0x80)] c := by
  have hb : (UInt8.ofNat (n + 0x80)).toNat = 0x80 + n := by
    rw [toNat_ofNat_of_lt (by omega), Nat.add_comm]
  refine .last (by rw [hb]; exact ⟨hlo, hhi⟩) hmore ?_
  rw [hb, Nat.add_sub_cancel_left, hc, Char.ofNat_toNat]

theorem Awaits.of_more {p : Pending} {c : Char} {m : Nat} {bs : Bytes} (hn : n < 64)
    (hmore : p.more = m + 1) (hlo : p.lo ≤ 0x80 + n) (hhi : 0x80 + n ≤ p.hi)
    (h : Awaits ⟨0x80, 0xbf, m, p.value * 64 + n⟩ bs c) :
    Awaits p (UInt8.ofNat (n + 0x80) :: bs) c := by
  have hb : (UInt8.ofNat (n + 0x80)).toNat = 0x80 + n := by
    rw [toNat_ofNat_of_lt (by omega), Nat.add_comm]
  refine .more (by rw [hb]; exact ⟨hlo, hhi⟩) hmore ?_
  rw [hb, Nat.add_sub_cancel_left]
  exact h

theorem firstByte_two (hlo : 2 ≤ n) (hhi : n < 32) :
    firstByte (n + 0xc0) = .inr (some ⟨0x80, 0xbf, 0, n⟩) := by
  rw [firstByte, if_neg (by omega), if_pos (by omega), Nat.add_sub_cancel]

theorem firstByte_three (hn : n < 16) :
    ∃ lo hi, firstByte (n + 0xe0) = .inr (some ⟨lo, hi, 1, n⟩) ∧
      lo = (if n = 0 then 0xa0 else 0x80) ∧ hi = if n = 13 then 0x9f else 0xbf := by
  refine ⟨_, _, ?_, rfl, rfl⟩
  interval_cases n <;> rfl

theorem firstByte_four (hn : n < 5) :
    ∃ lo hi, firstByte (n + 0xf0) = .inr (some ⟨lo, hi, 2, n⟩) ∧
      lo = (if n = 0 then 0x90 else 0x80) ∧ hi = if n = 4 then 0x8f else 0xbf := by
  refine ⟨_, _, ?_, rfl, rfl⟩
  interval_cases n <;> rfl

theorem utf8EncodeChar_cases (c : Char) :
    (∃ b, String.utf8EncodeChar c = [b] ∧ firstByte b.toNat = .inl c) ∨
      ∃ b bs p, String.utf8EncodeChar c = b :: bs ∧ firstByte b.toNat = .inr (some p) ∧
        Awaits p bs c := by
  have hvalid : c.toNat < 0xd800 ∨ 0xdfff < c.toNat ∧ c.toNat < 0x110000 := c.valid
  have hval : c.val.toNat = c.toNat := rfl
  simp only [String.utf8EncodeChar, hval]
  split
  · refine .inl ⟨_, rfl, ?_⟩
    rw [toNat_ofNat_of_lt (by omega), firstByte, if_pos (by omega), Char.ofNat_toNat]
  · split
    · refine .inr ⟨_, _, ⟨0x80, 0xbf, 0, c.toNat / 64⟩, rfl, ?_, ?_⟩
      · rw [toNat_ofNat_of_lt (by omega), Nat.mod_eq_of_lt (by omega)]
        exact firstByte_two (by omega) (by omega)
      · exact .of_last (Nat.mod_lt _ (by decide)) rfl (Nat.le_add_right _ _)
          (by change _ ≤ 0xbf; omega) (by change c.toNat / 64 * 64 + _ = _; omega)
    · split
      · obtain ⟨lo, hi, hfirst, hlo, hhi⟩ := firstByte_three (n := c.toNat / 4096) (by omega)
        refine .inr ⟨_, _, ⟨lo, hi, 1, c.toNat / 4096⟩, rfl, ?_, ?_⟩
        · rw [toNat_ofNat_of_lt (by omega), Nat.mod_eq_of_lt (by omega)]
          exact hfirst
        · refine .of_more (Nat.mod_lt _ (by decide)) rfl ?_ ?_ ?_
          · change lo ≤ _
            split at hlo <;> omega
          · change _ ≤ hi
            split at hhi <;> omega
          · exact .of_last (Nat.mod_lt _ (by decide)) rfl (Nat.le_add_right _ _)
              (by change _ ≤ 0xbf; omega)
              (by change (c.toNat / 4096 * 64 + c.toNat / 64 % 64) * 64 + _ = _; omega)
      · obtain ⟨lo, hi, hfirst, hlo, hhi⟩ := firstByte_four (n := c.toNat / 262144) (by omega)
        refine .inr ⟨_, _, ⟨lo, hi, 2, c.toNat / 262144⟩, rfl, ?_, ?_⟩
        · rw [toNat_ofNat_of_lt (by omega), Nat.mod_eq_of_lt (by omega)]
          exact hfirst
        · refine .of_more (Nat.mod_lt _ (by decide)) rfl ?_ ?_ ?_
          · change lo ≤ _
            split at hlo <;> omega
          · change _ ≤ hi
            split at hhi <;> omega
          · refine .of_more (Nat.mod_lt _ (by decide)) rfl (Nat.le_add_right _ _)
              (by change _ ≤ 0xbf; omega) ?_
            exact .of_last (Nat.mod_lt _ (by decide)) rfl (Nat.le_add_right _ _)
              (by change _ ≤ 0xbf; omega)
              (by
                change ((c.toNat / 262144 * 64 + c.toNat / 4096 % 64) * 64 +
                  c.toNat / 64 % 64) * 64 + _ = _
                omega)

/-! ## Reading bytes that begin a text -/

theorem utf8_cons (c : Char) (t : Text) : utf8 (c :: t) = String.utf8EncodeChar c ++ utf8 t :=
  flatMap_cons

theorem scanUtf8_append (t : Text) (b : Bytes) :
    scanUtf8 none [] (utf8 t ++ b) = (scanUtf8 none [] b).append t := by
  induction t with
  | nil => rfl
  | cons c t ih =>
    rw [utf8_cons, append_assoc]
    change _ = ((scanUtf8 none [] b).append t).cons c
    rw [← ih]
    rcases utf8EncodeChar_cases c with ⟨b, henc, hfirst⟩ | ⟨b, bs, p, henc, hfirst, hwaits⟩
    · rw [henc, singleton_append, scanUtf8, hfirst]
    · rw [henc, cons_append, scanUtf8, hfirst]
      exact hwaits.scan _ _

theorem scanUtf8_utf8 (t : Text) : scanUtf8 none [] (utf8 t) = .whole t := by
  have := scanUtf8_append t []
  rwa [append_nil, scanUtf8, Option.isSome_none, if_neg Bool.false_ne_true, Utf8.append_whole,
    append_nil] at this

/-- A character has begun and has not ended. -/
def Begun (b : Bytes) : Prop :=
  b ≠ [] ∧ ∃ c, b <+: String.utf8EncodeChar c ∧ b ≠ String.utf8EncodeChar c

theorem Begun.scan {b : Bytes} (h : Begun b) : scanUtf8 none [] b = .cut [] b := by
  obtain ⟨hne, c, hpre, hcut⟩ := h
  obtain ⟨x, front, rfl⟩ := exists_cons_of_ne_nil hne
  rcases utf8EncodeChar_cases c with ⟨b, henc, hfirst⟩ | ⟨b, bs, p, henc, hfirst, hwaits⟩
  · rw [henc] at hpre hcut
    obtain ⟨rfl, hnil⟩ := cons_prefix_cons.mp hpre
    exact absurd (by rw [prefix_nil.mp hnil]) hcut
  · rw [henc] at hpre hcut
    obtain ⟨rfl, hrest⟩ := cons_prefix_cons.mp hpre
    rw [scanUtf8, hfirst]
    exact hwaits.scan_cut hrest (fun he => hcut (he ▸ rfl)) [x]

theorem exists_of_append_eq_utf8 {b rest : Bytes} (h : b ++ rest = utf8 t) :
    ∃ s t' tail, t = s ++ t' ∧ b = utf8 s ++ tail ∧ tail ++ rest = utf8 t' ∧
      (tail = [] ∨ Begun tail) := by
  induction t generalizing b with
  | nil =>
    obtain ⟨rfl, rfl⟩ := append_eq_nil_iff.mp h
    exact ⟨[], [], [], rfl, rfl, rfl, .inl rfl⟩
  | cons c t ih =>
    rw [utf8_cons] at h
    rcases append_eq_append_iff.mp h with ⟨a, henc, hrest⟩ | ⟨a, hb, hrest⟩
    · by_cases ha : a = []
      · subst ha
        rw [append_nil] at henc
        refine ⟨[c], t, [], rfl, ?_, by rw [hrest]; rfl, .inl rfl⟩
        rw [utf8, flatMap_singleton, henc, append_nil]
      · refine ⟨[], c :: t, b, rfl, rfl, by rw [utf8_cons, h], ?_⟩
        by_cases hb : b = []
        · exact .inl hb
        · refine .inr ⟨hb, c, ⟨a, henc.symm⟩, fun he => ha ?_⟩
          rw [he] at henc
          exact self_eq_append_right.mp henc
    · obtain ⟨s, t', tail, rfl, rfl, htail, hbegun⟩ := ih hrest.symm
      refine ⟨c :: s, t', tail, rfl, ?_, htail, hbegun⟩
      rw [hb, utf8_cons, append_assoc]

/-! ## Reads -/

theorem utf8Drain_spec {bytes rest : Bytes} (h : carry ++ bytes ++ rest = utf8 t) :
    ∃ t', t = (utf8Drain carry bytes).1 ++ t' ∧ (utf8Drain carry bytes).2 ++ rest = utf8 t' ∧
      ((utf8Drain carry bytes).2 = [] ∨ Begun (utf8Drain carry bytes).2) := by
  obtain ⟨s, t', tail, rfl, hb, htail, hbegun⟩ := exists_of_append_eq_utf8 h
  have hscan := scanUtf8_append s tail
  rw [← hb] at hscan
  rcases hbegun with rfl | hbegun
  · have hdrain : utf8Drain carry bytes = (s, []) := by
      rw [utf8Drain, hscan, scanUtf8, Option.isSome_none, if_neg Bool.false_ne_true]
      simp
    rw [hdrain]
    exact ⟨t', rfl, htail, .inl rfl⟩
  · have hdrain : utf8Drain carry bytes = (s, tail) := by
      rw [utf8Drain, hscan, hbegun.scan]
      simp
    rw [hdrain]
    exact ⟨t', rfl, htail, .inr hbegun⟩

theorem eq_nil_of_begun (h : carry = [] ∨ Begun carry) (ht : carry = utf8 t) : t = [] := by
  have hscan := scanUtf8_utf8 t
  rw [← ht] at hscan
  rcases h with rfl | h
  · rw [scanUtf8, Option.isSome_none, if_neg Bool.false_ne_true] at hscan
    exact (Utf8.whole.inj hscan).symm
  · rw [h.scan] at hscan
    cases hscan

/-- `utf8_drain`, as a machine that is fed reads. -/
def drains : Feed Bytes UInt8 Char := fun carry bytes =>
  ((utf8Drain carry bytes).2, (utf8Drain carry bytes).1)

theorem drains_utf8 {reads : List Bytes} (h : carry ++ reads.flatten = utf8 t)
    (hcarry : carry = [] ∨ Begun carry) : (drains.run carry reads).2 = t := by
  induction reads generalizing carry t with
  | nil => exact (eq_nil_of_begun hcarry (by rw [← h, flatten_nil, append_nil])).symm
  | cons bytes reads ih =>
    rw [flatten_cons, ← append_assoc] at h
    obtain ⟨t', ht, hrest, hbegun⟩ := utf8Drain_spec h
    rw [ht, ← ih hrest hbegun]
    rfl

end Synsema.Llm
