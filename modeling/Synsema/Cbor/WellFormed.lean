import Synsema.Cbor.Modes
import Synsema.Lib.Grammar
import Mathlib.Tactic.IntervalCases

/-!
# What the strict decoder takes

A grammar of the items of definite length, with the number of heads whose additional information is
reserved: a well-formed item has none.  The decoder takes exactly the words of the grammar
(`takes_item`).  It takes the reserved heads of the last major type too, which its reader of arguments
refuses in all the others, so that it takes well-formed items only from bytes that are no item with
such a head (`decode_wellFormed_iff`).
-/

namespace Synsema.Cbor

open Bytesutil Captoken List

/-! ## The grammar of items -/

/-- A big-endian number. -/
def number (n : Nat) : Grammar UInt8 Nat := do return Cur.beNat (← Grammar.block n)

/-- The argument of a head: in the head itself, or in the bytes behind it.  28 to 30 are reserved,
and 31 is an indefinite length. -/
def argument (ai : UInt8) : Grammar UInt8 Nat :=
  if ai ≤ 23 then pure ai.toNat
  else if ai = 24 then number 1
  else if ai = 25 then number 2
  else if ai = 26 then number 4
  else if ai = 27 then number 8
  else Grammar.never

/-- Simple values and floats, with the reserved heads, each of which counts for one. -/
def simpleValue (ai : UInt8) : Grammar UInt8 Nat :=
  if ai ≤ 23 then pure 0
  else if ai = 24 then do
    let _ ← Grammar.one.filter fun b => 32 ≤ b
    return 0
  else if ai = 25 then do
    let _ ← number 2
    return 0
  else if ai = 26 then do
    let _ ← number 4
    return 0
  else if ai = 27 then do
    let _ ← number 8
    return 0
  else if ai ≤ 30 then pure 1
  else Grammar.never

/-- What follows the first byte of an item. -/
def itemBody (item : Grammar UInt8 Nat) (major ai : UInt8) : Grammar UInt8 Nat :=
  if major ≤ 1 then do
    let _ ← argument ai
    return 0
  else if major = 2 then do
    let _ ← Grammar.block (← argument ai)
    return 0
  else if major = 3 then do
    let _ ← (Grammar.block (← argument ai)).filter fun b => (fromUtf8 b).isSome = true
    return 0
  else if major = 4 then do
    let ks ← item.times (← argument ai)
    return ks.sum
  else if major = 5 then do
    let n ← argument ai
    let ks ← Grammar.times (do return (← item) + (← item)) n
    return ks.sum
  else if major = 6 then do
    let _ ← argument ai
    item
  else simpleValue ai

/-- An item of at most so many levels, with the number of reserved heads in it. -/
def itemGrammar : Nat → Grammar UInt8 Nat
  | 0 => Grammar.never
  | n + 1 => do
    let initial ← Grammar.one
    itemBody (itemGrammar n) (initial >>> 5) (initial &&& 0x1f)

/-- Exactly one well-formed item of definite length, nested at most 64 deep. -/
def WellFormed (b : Bytes) : Prop := itemGrammar (maxDepth + 1) b 0

/-- One item but for its reserved heads, of which it has one at least. -/
def HasReserved (b : Bytes) : Prop := ∃ k, 0 < k ∧ itemGrammar (maxDepth + 1) b k

/-! ### The grammar is unambiguous -/

theorem unambiguous_number (n : Nat) : (number n).Unambiguous :=
  (Grammar.Unambiguous.block n).bind fun _ => .pure _

theorem unambiguous_argument (ai : UInt8) : (argument ai).Unambiguous := by
  refine .ite (fun _ => .pure _) fun _ => .ite (fun _ => unambiguous_number 1) fun _ =>
    .ite (fun _ => unambiguous_number 2) fun _ => .ite (fun _ => unambiguous_number 4) fun _ =>
    .ite (fun _ => unambiguous_number 8) fun _ => .never

theorem unambiguous_simpleValue (ai : UInt8) : (simpleValue ai).Unambiguous := by
  have hnumber (n : Nat) : Grammar.Unambiguous
      (do let _ ← number n; return 0 : Grammar UInt8 Nat) :=
    (unambiguous_number n).bind fun _ => .pure 0
  refine .ite (fun _ ↦ .pure 0) fun _ ↦ .ite (fun _ ↦ ?_) fun _ ↦ .ite (fun _ ↦ hnumber 2) fun _ ↦
    .ite (fun _ => hnumber 4) fun _ => .ite (fun _ => hnumber 8) fun _ =>
    .ite (fun _ => .pure 1) fun _ => .never
  exact (Grammar.Unambiguous.one.filter _).bind fun _ => .pure 0

theorem unambiguous_itemBody {item : Grammar UInt8 Nat} (h : item.Unambiguous) (major ai : UInt8) :
    (itemBody item major ai).Unambiguous := by
  have harg := unambiguous_argument ai
  have hpair : Grammar.Unambiguous (do return (← item) + (← item)) :=
    h.bind fun _ => h.bind fun _ => .pure _
  refine .ite (fun _ => harg.bind fun _ => .pure 0) fun _ => .ite (fun _ => ?_) fun _ =>
    .ite (fun _ => ?_) fun _ => .ite (fun _ => ?_) fun _ => .ite (fun _ => ?_) fun _ =>
    .ite (fun _ => harg.bind fun _ => h) fun _ => unambiguous_simpleValue ai
  · exact harg.bind fun n => (Grammar.Unambiguous.block n).bind fun _ => .pure 0
  · exact harg.bind fun n => ((Grammar.Unambiguous.block n).filter _).bind fun _ => .pure 0
  · exact harg.bind fun n => (h.times n).bind fun _ => .pure _
  · exact harg.bind fun n => (hpair.times n).bind fun _ => .pure _

theorem unambiguous_itemGrammar (n : Nat) : (itemGrammar n).Unambiguous := by
  induction n with
  | zero => exact .never
  | succ n ih => exact Grammar.Unambiguous.one.bind fun _ => unambiguous_itemBody ih _ _

theorem itemGrammar_ne_nil {n : Nat} {w : Bytes} {k : Nat} (h : itemGrammar n w k) : w ≠ [] := by
  cases n with
  | zero => exact h.elim
  | succ n =>
    obtain ⟨u, v, initial, rfl, rfl, -⟩ := h
    exact cons_ne_nil _ _

/-! ## Readers and grammars -/

namespace Dec

variable {α β γ δ : Type}

/-- The reader takes exactly the words of the grammar, and what it answers is related to what they
are words for. -/
structure Takes (p : Dec α) (G : Grammar UInt8 β) (ρ : α → β → Prop) : Prop where
  sound : ∀ d a d', p d = .ok (a, d') →
    ∃ w b, d.rest = w ++ d'.rest ∧ d'.pos = d.pos + w.length ∧ G w b ∧ ρ a b
  complete : ∀ w b, G w b → ∃ a, Reads p w a ∧ ρ a b

variable {G : Grammar UInt8 β} {p q : Dec α} {ρ : α → β → Prop} {H : β → Grammar UInt8 δ}
  {f : α → Dec γ} {σ : γ → δ → Prop} {c : Prop} {ai : UInt8}

theorem Takes.pure {a : α} {b : β} (h : ρ a b) :
    Takes (pure a) (pure b : Grammar UInt8 β) ρ where
  sound d a' d' hd := by
    obtain ⟨rfl, rfl⟩ := pure_ok.mp hd
    exact ⟨[], b, rfl, rfl, ⟨rfl, rfl⟩, h⟩
  complete w b' hG := by
    obtain ⟨rfl, rfl⟩ := hG
    exact ⟨a, Reads.pure a, h⟩

theorem Takes.err {message : Text} :
    Takes (err message) (Grammar.never : Grammar UInt8 β) ρ where
  sound _ _ _ hd := (err_ok.mp hd).elim
  complete _ _ hG := hG.elim

theorem Takes.never (h : ∀ d a d', p d ≠ .ok (a, d')) :
    Takes p (Grammar.never : Grammar UInt8 β) ρ where
  sound d a d' hd := absurd hd (h d a d')
  complete _ _ hG := hG.elim

theorem Takes.bind (hp : Takes p G ρ) (hf : ∀ a b, ρ a b → Takes (f a) (H b) σ) :
    Takes (p >>= f) (G >>= H) σ where
  sound d c d' hd := by
    obtain ⟨a, d₁, ha, hc⟩ := bind_ok.mp hd
    obtain ⟨u, b, hu, hpos, hG, hab⟩ := hp.sound d a d₁ ha
    obtain ⟨v, e, hv, hpos', hH, hce⟩ := (hf a b hab).sound d₁ c d' hc
    refine ⟨u ++ v, e, ?_, ?_, ⟨u, v, b, rfl, hG, hH⟩, hce⟩
    · rw [hu, hv, append_assoc]
    · rw [hpos', hpos, length_append, Nat.add_assoc]
  complete w e h := by
    obtain ⟨u, v, b, rfl, hG, hH⟩ := h
    obtain ⟨a, ha, hab⟩ := hp.complete u b hG
    obtain ⟨c, hc, hce⟩ := (hf a b hab).complete v e hH
    exact ⟨c, ha.bind hc, hce⟩

theorem Takes.ite [Decidable c] {H : Grammar UInt8 β} (hp : c → Takes p G ρ) (hq : ¬c → Takes q H ρ)
    : Takes (if c then p else q) (if c then G else H) ρ := by
  by_cases h : c
  · rw [if_pos h, if_pos h]
    exact hp h
  · rw [if_neg h, if_neg h]
    exact hq h

theorem takes_byte : Takes byte Grammar.one Eq where
  sound d a d' hd := by
    unfold byte at hd
    split at hd
    · exact (err_ok.mp hd).elim
    · next b rest hrest =>
      cases hd
      exact ⟨[a], a, hrest, rfl, rfl, rfl⟩
  complete w b hG := by
    obtain rfl : w = [b] := hG
    exact ⟨b, reads_byte b, rfl⟩

theorem takes_take (n : Nat) : Takes (take n) (Grammar.block n) Eq where
  sound d a d' hd := by
    unfold take at hd
    split_ifs at hd with h
    · exact (err_ok.mp hd).elim
    · cases hd
      have hlen : (d.rest.take n).length = n := length_take_of_le (not_lt.mp h)
      exact ⟨d.rest.take n, _, (take_append_drop n d.rest).symm, by rw [hlen], ⟨hlen, rfl⟩, rfl⟩
  complete w b hG := by
    obtain ⟨rfl, rfl⟩ := hG
    exact ⟨b, reads_take b, rfl⟩

theorem takes_be (n : Nat) : Takes (be n) (number n) Eq :=
  (takes_take n).bind fun _ _ h => Takes.pure (congrArg Cur.beNat h)

theorem number_one : number 1 = (do return (← Grammar.one).toNat) := by
  funext w v
  apply propext
  constructor
  · rintro ⟨u, u', b, rfl, ⟨hlen, rfl⟩, rfl, rfl⟩
    obtain ⟨a, rfl⟩ := length_eq_one_iff.mp hlen
    exact ⟨[a], [], a, rfl, rfl, rfl, by simp [Cur.beNat]⟩
  · rintro ⟨u, u', a, rfl, rfl, rfl, rfl⟩
    exact ⟨[a], [], [a], rfl, ⟨rfl, rfl⟩, rfl, by simp [Cur.beNat]⟩

theorem takes_arg (h : ai ≠ 31) : Takes (arg ai) (argument ai) fun o n => o = some n := by
  have hbe (n : Nat) : Takes (do return some (← be n)) (number n) fun o n => o = some n := by
    rw [← Grammar.bind_pure (number n)]
    exact (takes_be n).bind fun _ _ hab => Takes.pure (congrArg some hab)
  have hbyte : Takes (do return some (← byte).toNat) (number 1) fun o n => o = some n := by
    rw [number_one]
    exact takes_byte.bind fun _ _ hab => Takes.pure (congrArg (fun b => some b.toNat) hab)
  refine .ite (fun _ ↦ .pure rfl) fun _ ↦ .ite (fun _ ↦ hbyte) fun _ ↦ .ite (fun _ ↦ hbe 2) fun _ ↦
    .ite (fun _ => hbe 4) fun _ => .ite (fun _ => hbe 8) fun _ => ?_
  rw [if_neg h]
  exact .err

theorem takes_definiteArg (ai : UInt8) (message : Text) :
    Takes (definiteArg ai message) (argument ai) Eq := by
  by_cases h : ai = 31
  · subst h
    exact .never fun d a d' hd => err_ok.mp hd
  · rw [← Grammar.bind_pure (argument ai)]
    refine (takes_arg h).bind fun o n ho => ?_
    subst ho
    exact .pure rfl

theorem takes_len (ai : UInt8) (what : Text) {f : Nat → Dec γ} {H : Nat → Grammar UInt8 δ}
    (hf : ∀ n, Takes (f n) (H n) σ) (hlen : ∀ n w e, H n w e → n ≤ w.length) :
    Takes (len ai what >>= f) (argument ai >>= H) σ where
  sound d c d' hd := by
    obtain ⟨n, d₁, hn, hc⟩ := bind_ok.mp hd
    obtain ⟨o, d₂, ho, hn⟩ := bind_ok.mp hn
    by_cases h : ai = 31
    · subst h
      cases ho
      exact (err_ok.mp hn).elim
    · obtain ⟨u, v, hu, hpos, hG, rfl⟩ := (takes_arg h).sound d o d₂ ho
      obtain ⟨d₃, d₄, hget, hn⟩ := bind_ok.mp hn
      cases hget
      split_ifs at hn
      · exact (err_ok.mp hn).elim
      · obtain ⟨rfl, rfl⟩ := pure_ok.mp hn
        obtain ⟨w, e, hw, hpos', hH, hce⟩ := (hf n).sound d₁ c d' hc
        refine ⟨u ++ w, e, ?_, ?_, ⟨u, w, n, rfl, hG, hH⟩, hce⟩
        · rw [hu, hw, append_assoc]
        · rw [hpos', hpos, length_append, Nat.add_assoc]
  complete w e h := by
    obtain ⟨u, v, n, rfl, hG, hH⟩ := h
    have hai : ai ≠ 31 := by
      rintro rfl
      exact hG
    obtain ⟨o, ho, rfl⟩ := (takes_arg hai).complete u n hG
    obtain ⟨c, hc, hce⟩ := (hf n).complete v e hH
    exact ⟨c, ho.len (hlen n v e hH) hc, hce⟩

theorem Takes.times (h : Takes p G ρ) (n : Nat) :
    Takes (times p n) (G.times n) (Forall₂ ρ) := by
  induction n with
  | zero => exact .pure .nil
  | succ n ih => exact h.bind fun _ _ hab => ih.bind fun _ _ has => .pure (.cons hab has)

/-! ### Items -/

/-- Whatever a reader answers. -/
abbrev Any (_ : α) (_ : β) : Prop := True

theorem Takes.filter {p : Dec β} {P : β → Prop} {f : β → Dec γ} (hp : Takes p G Eq)
    (hf : ∀ a, P a → Takes (f a) (H a) σ) (hfail : ∀ a, ¬P a → ∀ d c d', f a d ≠ .ok (c, d')) :
    Takes (p >>= f) (G.filter P >>= H) σ where
  sound d c d' hd := by
    obtain ⟨a, d₁, ha, hc⟩ := bind_ok.mp hd
    have hP : P a := by
      by_contra hP
      exact hfail a hP d₁ c d' hc
    obtain ⟨u, _, hu, hpos, hG, rfl⟩ := hp.sound d a d₁ ha
    obtain ⟨v, e, hv, hpos', hH, hce⟩ := (hf a hP).sound d₁ c d' hc
    refine ⟨u ++ v, e, ?_, ?_, ⟨u, v, a, rfl, ⟨hG, hP⟩, hH⟩, hce⟩
    · rw [hu, hv, append_assoc]
    · rw [hpos', hpos, length_append, Nat.add_assoc]
  complete w e h := by
    obtain ⟨u, v, b, rfl, ⟨hG, hP⟩, hH⟩ := h
    obtain ⟨a, ha, rfl⟩ := hp.complete u b hG
    obtain ⟨c, hc, hce⟩ := (hf a hP).complete v e hH
    exact ⟨c, ha.bind hc, hce⟩

theorem takes_simple (hai : ai < 32) : Takes (simple ai) (simpleValue ai) Any := by
  have hfloat (n : Nat) (g : Nat → UInt64) : Takes (do return .float (g (← be n)))
      (do let _ ← number n; return 0) (Any : Cbor → Nat → Prop) :=
    (takes_be n).bind fun _ _ _ => .pure trivial
  have hpure {x : Cbor} {k : Nat} (h : simple ai = pure x) (hG : simpleValue ai = pure k) :
      Takes (simple ai) (simpleValue ai) Any := by
    rw [h, hG]
    exact .pure trivial
  obtain ⟨n, hn, rfl⟩ : ∃ n < 32, ai = UInt8.ofNat n :=
    ⟨ai.toNat, UInt8.lt_iff_toNat_lt.mp hai, UInt8.ofNat_toNat.symm⟩
  interval_cases n
  case «24» =>
    refine takes_byte.filter (fun b hb => ?_) fun b hb d c d' => ?_
    · rw [if_neg (UInt8.not_lt.mpr hb)]
      exact .pure trivial
    · rw [if_pos (UInt8.not_le.mp hb)]
      exact fun hd => err_ok.mp hd
  case «25» => exact hfloat 2 f16ToF64
  case «26» => exact hfloat 4 f32ToF64
  case «27» => exact hfloat 8 UInt64.ofNat
  case «31» => exact .err
  all_goals exact hpure rfl rfl

theorem takes_closedItem {p : Dec Cbor} {G : Grammar UInt8 Nat} (h : Takes p G Any)
    (hne : ∀ w k, G w k → w ≠ []) {major : UInt8} (hmajor : major < 8) (hai : ai < 32) :
    Takes (closedItem p major ai) (itemBody G major ai) Any := by
  have hpair : Takes (pair p) (do return (← G) + (← G)) Any :=
    h.bind fun _ _ _ => h.bind fun _ _ _ => .pure trivial
  have hpair_ne (w : Bytes) (k : Nat) (hw : (do return (← G) + (← G) : Grammar UInt8 Nat) w k) :
      w ≠ [] := by
    obtain ⟨u, v, a, rfl, hu, -⟩ := hw
    exact append_ne_nil_of_left_ne_nil (hne u a hu) v
  obtain ⟨m, hm, rfl⟩ : ∃ m < 8, major = UInt8.ofNat m :=
    ⟨major.toNat, UInt8.lt_iff_toNat_lt.mp hmajor, UInt8.ofNat_toNat.symm⟩
  interval_cases m
  · exact (takes_definiteArg ai _).bind fun _ _ _ => .pure trivial
  · exact (takes_definiteArg ai _).bind fun _ _ _ => .pure trivial
  · refine takes_len ai _ (fun n => (takes_take n).bind fun _ _ _ => .pure trivial) ?_
    rintro n _ _ ⟨u, v, _, rfl, ⟨hu, -⟩, -⟩
    rw [length_append]
    omega
  · refine takes_len ai _ (fun n => (takes_take n).filter (fun b hb => ?_) fun b hb d x d' => ?_) ?_
    · obtain ⟨t, ht⟩ := Option.isSome_iff_exists.mp hb
      rw [utf8Text, ht]
      exact .pure trivial
    · rw [Option.not_isSome_iff_eq_none] at hb
      rw [utf8Text, hb]
      exact fun hd => err_ok.mp hd
    · rintro n _ _ ⟨u, v, _, rfl, ⟨⟨hu, -⟩, -⟩, -⟩
      rw [length_append]
      omega
  · refine takes_len ai _ (fun n => (h.times n).bind fun _ _ _ => .pure trivial) ?_
    rintro n _ _ ⟨u, v, _, rfl, hu, -⟩
    have := Grammar.length_times hne hu
    rw [length_append]
    omega
  · refine takes_len ai _ (fun n => (hpair.times n).bind fun _ _ _ => .pure trivial) ?_
    rintro n _ _ ⟨u, v, _, rfl, hu, -⟩
    have := Grammar.length_times hpair_ne hu
    rw [length_append]
    omega
  · refine (takes_definiteArg ai _).bind fun _ _ _ => ?_
    rw [← Grammar.bind_pure G]
    exact h.bind fun _ _ _ => .pure trivial
  · exact takes_simple hai

theorem initial_bounds (initial : UInt8) : initial >>> 5 < 8 ∧ initial &&& 0x1f < 32 := by
  have h := initial.toNat_lt
  constructor
  · rw [UInt8.lt_iff_toNat_lt, UInt8.toNat_shiftRight, Nat.shiftRight_eq_div_pow]
    change initial.toNat / 32 < 8
    omega
  · rw [UInt8.lt_iff_toNat_lt, UInt8.toNat_and]
    exact Nat.and_lt_two_pow _ (show (0x1f : UInt8).toNat < 2 ^ 5 by decide)

theorem takes_item (room : Nat) : Takes (item false room) (itemGrammar room) Any := by
  induction room with
  | zero => exact .err
  | succ room ih =>
    refine takes_byte.bind fun initial initial' hinitial => ?_
    subst hinitial
    dsimp only
    rw [if_neg (by simp)]
    obtain ⟨hmajor, hai⟩ := initial_bounds initial
    exact takes_closedItem ih (fun _ _ => itemGrammar_ne_nil) hmajor hai

/-! ### Nothing is read past the buffer -/

/-- The reader stays in the buffer: where it answers and where it stops. -/
def Within (p : Dec α) : Prop := ∀ d,
  (∀ a d', p d = .ok (a, d') → d'.pos + d'.rest.length = d.pos + d.rest.length) ∧
    ∀ e, p d = .error e → e.offset ≤ d.pos + d.rest.length

theorem Within.pure (a : α) : Within (pure a) := by
  refine fun d => ⟨fun b d' h => ?_, fun e h => nomatch h⟩
  obtain ⟨-, rfl⟩ := pure_ok.mp h
  rfl

theorem Within.err (message : Text) : Within (err message : Dec α) := by
  refine fun d => ⟨fun a d' h => (err_ok.mp h).elim, fun e h => ?_⟩
  cases h
  exact Nat.le_add_right _ _

theorem Within.bind (hp : Within p) (hf : ∀ a, Within (f a)) : Within (p >>= f) := by
  intro d
  obtain ⟨hok, herr⟩ := hp d
  constructor
  · intro c d' h
    obtain ⟨a, d₁, ha, hc⟩ := bind_ok.mp h
    rw [← hok a d₁ ha]
    exact (hf a d₁).1 c d' hc
  · intro e h
    change Except.bind (p d) (fun r => f r.1 r.2) = _ at h
    cases hd : p d with
    | error e' =>
      rw [hd] at h
      cases h
      exact herr e hd
    | ok r =>
      rw [hd] at h
      rw [← hok r.1 r.2 hd]
      exact (hf r.1 r.2).2 e h

theorem Within.ite [Decidable c] (hp : Within p) (hq : Within q) : Within (if c then p else q) := by
  split
  · exact hp
  · exact hq

theorem within_byte : Within byte := by
  rintro ⟨rest, pos, saw⟩
  cases rest with
  | nil => exact Within.err _ _
  | cons b rest =>
    refine ⟨fun a d' h => ?_, fun e h => nomatch h⟩
    cases h
    change pos + 1 + rest.length = pos + (rest.length + 1)
    omega

theorem within_take (n : Nat) : Within (take n) := by
  intro d
  rw [take]
  split
  · exact Within.err _ d
  next hle =>
    refine ⟨fun a d' h => ?_, by rintro e ⟨⟩⟩
    cases h
    change d.pos + n + (d.rest.drop n).length = d.pos + d.rest.length
    rw [length_drop]
    omega

theorem within_be (n : Nat) : Within (be n) := (within_take n).bind fun _ => .pure _

theorem within_arg (ai : UInt8) : Within (arg ai) :=
  .ite (.pure _) <| .ite (within_byte.bind fun _ => .pure _) <|
    .ite ((within_be 2).bind fun _ => .pure _) <| .ite ((within_be 4).bind fun _ => .pure _) <|
    .ite ((within_be 8).bind fun _ => .pure _) <| .ite (.pure _) (.err _)

theorem within_definiteArg (ai : UInt8) (message : Text) : Within (definiteArg ai message) := by
  refine (within_arg ai).bind fun o => ?_
  cases o with
  | none => exact .err _
  | some n => exact .pure n

theorem within_len (ai : UInt8) (what : Text) : Within (len ai what) := by
  refine (within_arg ai).bind fun o => ?_
  cases o with
  | none => exact .err _
  | some n =>
    have hget : Within (get : Dec Decoder) := by
      refine fun d => ⟨fun a d' h => ?_, fun e h => nomatch h⟩
      cases h
      rfl
    exact hget.bind fun d => .ite (.err _) (.pure n)

theorem Within.times (h : Within p) (n : Nat) : Within (times p n) := by
  induction n with
  | zero => exact .pure []
  | succ n ih => exact h.bind fun _ => ih.bind fun _ => .pure _

theorem within_utf8Text (raw : Bytes) : Within (utf8Text raw) := by
  rw [utf8Text]
  split
  · exact .pure _
  · exact .err _

theorem within_simple (ai : UInt8) : Within (simple ai) :=
  .ite (.pure _) <| .ite (.pure _) <| .ite (.pure _) <| .ite (.pure _) <|
    .ite (within_byte.bind fun _ => .ite (.err _) (.pure _)) <|
    .ite ((within_be 2).bind fun _ => .pure _) <| .ite ((within_be 4).bind fun _ => .pure _) <|
    .ite ((within_be 8).bind fun _ => .pure _) <| .ite (.err _) (.pure _)

theorem Within.closedItem {p : Dec Cbor} (h : Within p) (major ai : UInt8) :
    Within (closedItem p major ai) := by
  have harg (message : Text) := within_definiteArg ai message
  have hlen (what : Text) := within_len ai what
  have hpair : Within (pair p) := h.bind fun _ => h.bind fun _ => .pure _
  refine .ite ((harg _).bind fun _ => .pure _) <| .ite ((harg _).bind fun _ => .pure _) <|
    .ite ?_ <| .ite ?_ <| .ite ?_ <| .ite ?_ <| .ite ?_ (within_simple ai)
  · exact (hlen _).bind fun n => (within_take n).bind fun _ => .pure _
  · exact (hlen _).bind fun n => (within_take n).bind fun _ => within_utf8Text _
  · exact (hlen _).bind fun n => (h.times n).bind fun _ => .pure _
  · exact (hlen _).bind fun n => (hpair.times n).bind fun _ => .pure _
  · exact (harg _).bind fun _ => h.bind fun _ => .pure _

theorem within_item (room : Nat) : Within (item false room) := by
  induction room with
  | zero => exact .err _
  | succ room ih =>
    refine within_byte.bind fun initial => ?_
    dsimp only
    rw [if_neg (by simp)]
    exact ih.closedItem _ _

end Dec

/-! ## The decoder -/

variable {b : Bytes}

theorem decode_iff :
    (∃ x, decode b = .ok x) ↔ ∃ k, itemGrammar (maxDepth + 1) b k := by
  constructor
  · rintro ⟨x, hx⟩
    obtain ⟨d, hd, hpos⟩ := decode_ok.mp hx
    obtain ⟨w, k, hw, hwpos, hG, -⟩ := (Dec.takes_item _).sound _ x d hd
    change b = w ++ d.rest at hw
    change d.pos = 0 + w.length at hwpos
    have hrest : d.rest = [] := by
      apply length_eq_zero_iff.mp
      have := congrArg List.length hw
      rw [length_append] at this
      omega
    rw [hrest, append_nil] at hw
    exact ⟨k, hw ▸ hG⟩
  · rintro ⟨k, hk⟩
    obtain ⟨x, hx, -⟩ := (Dec.takes_item _).complete b k hk
    have hread := hx [] 0 false
    rw [append_nil] at hread
    exact ⟨x, decode_ok.mpr ⟨_, hread, Nat.zero_add _⟩⟩

theorem offset_le_of_decode {e : CborError} (h : decode b = .error e) : e.offset ≤ b.length := by
  have hstart : (Decoder.start b).pos + (Decoder.start b).rest.length = b.length := Nat.zero_add _
  obtain ⟨hok, herr⟩ := Dec.within_item (maxDepth + 1) (.start b)
  rw [decode, decodePrefix] at h
  cases hd : Dec.item false (maxDepth + 1) (.start b) with
  | error e' =>
    rw [hd] at h
    cases h
    exact (herr e hd).trans_eq hstart
  | ok r =>
    have hpos := hok r.1 r.2 hd
    rw [hd] at h
    change (if r.2.pos ≠ b.length then _ else _ : Except CborError Cbor) = _ at h
    split_ifs at h
    · cases h
      change r.2.pos ≤ b.length
      omega
    · cases h

/-- **The decoder takes exactly the well-formed items** from bytes that are no item with a reserved
head, and only from these. -/
theorem decode_wellFormed_iff (b : Bytes) :
    ((∀ x, decode b = .ok x → WellFormed b) ∧ (WellFormed b → ∃ x, decode b = .ok x) ∧
      ∀ e, decode b = .error e → e.offset ≤ b.length) ↔ ¬HasReserved b := by
  have hcomplete : WellFormed b → ∃ x, decode b = .ok x := fun h => decode_iff.mpr ⟨0, h⟩
  constructor
  · rintro ⟨hsound, -, -⟩ ⟨k, hpos, hk⟩
    obtain ⟨x, hx⟩ := decode_iff.mpr ⟨k, hk⟩
    have heq := (unambiguous_itemGrammar _).eq hk (hsound x hx)
    exact absurd heq hpos.ne'
  · intro h
    refine ⟨fun x hx => ?_, hcomplete, fun e => offset_le_of_decode⟩
    obtain ⟨k, hk⟩ := decode_iff.mp ⟨x, hx⟩
    rcases Nat.eq_zero_or_pos k with rfl | hpos
    · exact hk
    · exact absurd ⟨k, hpos, hk⟩ h

/-- A reserved head is taken for `undefined`. -/
theorem decode_reserved : decode [0xfc] = .ok .undefined ∧ ¬WellFormed [0xfc] := by
  refine ⟨rfl, fun h => ?_⟩
  have hone : itemGrammar (maxDepth + 1) [0xfc] 1 := ⟨[0xfc], [], 0xfc, rfl, rfl, rfl, rfl⟩
  exact absurd ((unambiguous_itemGrammar _).eq h hone) (by decide)

end Synsema.Cbor
