import Synsema.Cbor.Roundtrip

/-!
# The two modes of the decoder

The decoder that takes items of indefinite length takes the others as the strict one does:
where it saw none, they agree.  Whatever it takes has an encoding that the strict one gives
back.

What a reader can answer is followed with `Yields`, which bounds it by the bytes consumed;
how the two modes compare, with `Agree`.
-/

namespace Synsema.Cbor

open Bytesutil Captoken List

namespace Dec

variable {α β : Type}

/-! ## What a reader answers -/

/-- Whatever the reader answers, and the number of bytes it consumed, are in the relation. -/
def Yields (p : Dec α) (Q : α → Nat → Prop) : Prop :=
  ∀ d a d', p d = .ok (a, d') → ∃ k, d.rest.length = d'.rest.length + k ∧ Q a k

variable {Q : α → Nat → Prop} {f : α → Dec β} {P : α → Prop} {w : α → Nat} {k : Nat} {q : Dec α}
  {major : UInt8}

theorem Yields.mono {p : Dec α} {R : α → Nat → Prop} (h : Yields p Q) (hQR : ∀ a k, Q a k → R a k) :
    Yields p R := by
  intro d a d' hd
  obtain ⟨k, hk, hQ⟩ := h d a d' hd
  exact ⟨k, hk, hQR a k hQ⟩

theorem Yields.pure {a : α} (h : Q a 0) : Yields (pure a) Q := by
  intro d b d' hd
  obtain ⟨rfl, rfl⟩ := pure_ok.mp hd
  exact ⟨0, rfl, h⟩

theorem Yields.err {message : Text} : Yields (err message) Q :=
  fun _ _ _ hd => (err_ok.mp hd).elim

theorem Yields.bind {p : Dec α} {R : β → Nat → Prop} (hp : Yields p Q)
    (hf : ∀ a k, Q a k → Yields (f a) fun b j => R b (k + j)) : Yields (p >>= f) R := by
  intro d b d' hd
  obtain ⟨a, d₁, ha, hb⟩ := bind_ok.mp hd
  obtain ⟨k, hk, hQ⟩ := hp d a d₁ ha
  obtain ⟨j, hj, hR⟩ := hf a k hQ d₁ b d' hb
  exact ⟨k + j, by omega, hR⟩

theorem yields_byte : Yields byte fun _ k => k = 1 := by
  intro d a d' hd
  unfold byte at hd
  split at hd
  · exact (err_ok.mp hd).elim
  · next b rest hrest =>
    cases hd
    exact ⟨1, by rw [hrest, length_cons], rfl⟩

theorem yields_take (n : Nat) : Yields (take n) fun b k => b.length = n ∧ k = n := by
  intro d a d' hd
  unfold take at hd
  split_ifs at hd with h
  · exact (err_ok.mp hd).elim
  · cases hd
    refine ⟨n, ?_, ?_, rfl⟩
    · rw [length_drop]
      omega
    · rw [length_take]
      omega

theorem yields_be (n : Nat) : Yields (be n) fun v k => v < 256 ^ n ∧ k = n :=
  (yields_take n).bind fun b _ h => Yields.pure ⟨h.1 ▸ Cur.beNat_lt b, h.2⟩

theorem yields_arg (ai : UInt8) : Yields (arg ai) fun n _ => ∀ v ∈ n, v < 2 ^ 64 := by
  have hai := ai.toNat_lt
  have hlt : ∀ {v n : Nat}, v < 256 ^ n → n ≤ 8 → ∀ w ∈ some v, w < 2 ^ 64 := by
    intro v n hv hn w hw
    obtain rfl := Option.mem_some.mp hw
    exact hv.trans_le (Nat.pow_le_pow_right (by decide) hn)
  unfold arg
  split_ifs
  · exact Yields.pure (hlt (n := 1) hai (by decide))
  · exact yields_byte.bind fun b _ _ => Yields.pure (hlt (n := 1) b.toNat_lt (by decide))
  · exact (yields_be 2).bind fun v _ h => Yields.pure (hlt h.1 (by decide))
  · exact (yields_be 4).bind fun v _ h => Yields.pure (hlt h.1 (by decide))
  · exact (yields_be 8).bind fun v _ h => Yields.pure (hlt h.1 (by decide))
  · exact Yields.pure (by simp)
  · exact Yields.err

theorem yields_definiteArg (ai : UInt8) (message : Text) :
    Yields (definiteArg ai message) fun n _ => n < 2 ^ 64 := by
  refine (yields_arg ai).bind fun n _ hn => ?_
  cases n with
  | none => exact Yields.err
  | some n => exact Yields.pure (hn n rfl)

theorem yields_len (ai : UInt8) (what : Text) : Yields (len ai what) fun n _ => n < 2 ^ 64 := by
  refine (yields_arg ai).bind fun n _ hn => ?_
  cases n with
  | none => exact Yields.err
  | some n =>
    intro d a d' hd
    obtain ⟨d₀, d₁, hget, hd⟩ := bind_ok.mp hd
    cases hget
    split_ifs at hd
    · exact (err_ok.mp hd).elim
    · obtain ⟨rfl, rfl⟩ := pure_ok.mp hd
      exact ⟨0, rfl, hn a rfl⟩

theorem yields_utf8Text (raw : Bytes) :
    Yields (utf8Text raw) fun x _ => ∃ t, x = .text t ∧ utf8 t = raw := by
  unfold utf8Text
  split
  · next t ht => exact Yields.pure ⟨t, rfl, utf8_of_fromUtf8 ht⟩
  · exact Yields.err

variable {N n : Nat} {d d' : Decoder} {p : Dec Cbor}

theorem Yields.times {p : Dec α} (h : Yields p fun a k => w a ≤ k ∧ (k < N → P a)) (n : Nat) :
    Yields (times p n) fun as k => (as.map w).sum ≤ k ∧ (k < N → ∀ a ∈ as, P a) := by
  induction n with
  | zero => exact Yields.pure ⟨le_rfl, by simp⟩
  | succ n ih =>
    refine h.bind fun a k ha => ih.bind fun as j has => Yields.pure ⟨?_, fun hlt b hb => ?_⟩
    · rw [map_cons, sum_cons]
      omega
    · rcases List.mem_cons.mp hb with rfl | hb
      · exact ha.2 (by omega)
      · exact has.2 (by omega) b hb

theorem atBreak_ok {stop : Bool} :
    atBreak d = .ok (stop, d') ↔
      d' = d ∧ ∃ c rest, d.rest = c :: rest ∧ stop = decide (c = breakByte) := by
  obtain ⟨rest, pos, saw⟩ := d
  cases rest with
  | nil =>
    constructor
    · intro h
      exact (err_ok.mp h).elim
    · rintro ⟨-, c, rest, h, -⟩
      cases h
  | cons c rest =>
    constructor
    · intro h
      cases h
      exact ⟨rfl, c, rest, rfl, rfl⟩
    · rintro ⟨rfl, c', rest', h, rfl⟩
      cases h
      rfl

theorem yields_atBreak : Yields atBreak fun _ k => k = 0 := by
  intro d stop d' hd
  obtain ⟨rfl, -⟩ := atBreak_ok.mp hd
  exact ⟨0, rfl, rfl⟩

theorem Yields.untilBreakLoop {p : Dec α} (h : Yields p fun a k => w a ≤ k ∧ (k < N → P a))
    (fuel : Nat) :
    Yields (untilBreakLoop p fuel) fun as k => (as.map w).sum ≤ k ∧ (k < N → ∀ a ∈ as, P a) := by
  induction fuel with
  | zero => exact Yields.err
  | succ fuel ih =>
    refine yields_atBreak.bind fun stop k hk => ?_
    subst hk
    cases stop with
    | true => exact yields_byte.bind fun _ _ _ => Yields.pure ⟨Nat.zero_le _, by simp⟩
    | false =>
      refine h.bind fun a k ha => ih.bind fun as j has => Yields.pure ⟨?_, fun hlt b hb => ?_⟩
      · rw [map_cons, sum_cons]
        omega
      · rcases List.mem_cons.mp hb with rfl | hb
        · exact ha.2 (by omega)
        · exact has.2 (by omega) b hb

theorem Yields.untilBreak {p : Dec α} (h : Yields p fun a k => w a ≤ k ∧ (k < N → P a)) :
    Yields (untilBreak p) fun as k => (as.map w).sum ≤ k ∧ (k < N → ∀ a ∈ as, P a) :=
  fun d a d' hd => h.untilBreakLoop (d.rest.length + 1) d a d' hd

theorem yields_chunk (major : UInt8) : Yields (chunk major) fun b k => b.length ≤ k := by
  refine yields_byte.bind fun initial _ _ => ?_
  split_ifs
  · exact Yields.err
  · exact Yields.err
  · refine (yields_len _ _).bind fun n _ _ => (yields_take n).bind fun b k hb => ?_
    split_ifs
    · exact Yields.err
    · exact Yields.pure (by omega)

theorem yields_indefiniteString (major : UInt8) :
    Yields (indefiniteString major) fun b k => b.length ≤ k := by
  have h : Yields (chunk major) fun b k => b.length ≤ k ∧ (k < 0 → True) :=
    (yields_chunk major).mono fun b k hb => ⟨hb, fun _ => trivial⟩
  refine h.untilBreak.bind fun bs k hbs => Yields.pure ?_
  rw [length_flatten]
  exact hbs.1

/-! ## What the decoder takes fits -/

theorem yields_pair {P : Cbor → Prop} (h : Yields p fun x k => 1 ≤ k ∧ (k < N → P x)) :
    Yields (pair p) fun q k => 1 ≤ k ∧ (k < N → P q.1 ∧ P q.2) :=
  h.bind fun _ _ hx => h.bind fun _ _ hy =>
    Yields.pure ⟨by omega, fun hlt => ⟨hx.2 (by omega), hy.2 (by omega)⟩⟩

theorem yields_pairOrBreak {P : Cbor → Prop} (h : Yields p fun x k => 1 ≤ k ∧ (k < N → P x)) :
    Yields (pairOrBreak p) fun q k => 1 ≤ k ∧ (k < N → P q.1 ∧ P q.2) := by
  refine h.bind fun x k hx => yields_atBreak.bind fun stop j hj => ?_
  split_ifs
  · exact Yields.err
  · exact h.bind fun _ _ hy => Yields.pure ⟨by omega, fun hlt => ⟨hx.2 (by omega), hy.2 (by omega)⟩⟩

theorem sum_map_one (as : List α) : (as.map fun _ => 1).sum = as.length := by
  simp

theorem fits_array {items : List Cbor}
    (h : (items.map fun _ => 1).sum ≤ k ∧ (k < 2 ^ 64 → ∀ x ∈ items, 0 < n ∧ Fits (n - 1) x))
    (hk : k < 2 ^ 64) : Fits n (.array items) := by
  rw [sum_map_one] at h
  refine Fits.array (h.1.trans_lt hk) (fun hne => ?_) fun x hx => (h.2 hk x hx).2
  obtain ⟨x, hx⟩ := exists_mem_of_ne_nil _ hne
  exact (h.2 hk x hx).1

theorem fits_map {pairs : List (Cbor × Cbor)}
    (h : (pairs.map fun _ => 1).sum ≤ k ∧
      (k < 2 ^ 64 → ∀ q ∈ pairs, (0 < n ∧ Fits (n - 1) q.1) ∧ 0 < n ∧ Fits (n - 1) q.2))
    (hk : k < 2 ^ 64) : Fits n (.map pairs) := by
  rw [sum_map_one] at h
  refine Fits.map (h.1.trans_lt hk) (fun hne => ?_) (fun q hq => (h.2 hk q hq).1.2)
    fun q hq => (h.2 hk q hq).2.2
  obtain ⟨q, hq⟩ := exists_mem_of_ne_nil _ hne
  exact (h.2 hk q hq).1.1

theorem yields_simple (n : Nat) (ai : UInt8) : Yields (simple ai) fun x _ => Fits n x := by
  unfold simple
  split_ifs
  · exact Yields.pure .bool
  · exact Yields.pure .bool
  · exact Yields.pure .null
  · exact Yields.pure .undefined
  · refine yields_byte.bind fun b _ _ => ?_
    split_ifs
    · exact Yields.err
    · exact Yields.pure .undefined
  · exact (yields_be 2).bind fun _ _ _ => Yields.pure .float
  · exact (yields_be 4).bind fun _ _ _ => Yields.pure .float
  · exact (yields_be 8).bind fun _ _ _ => Yields.pure .float
  · exact Yields.err
  · exact Yields.pure .undefined

theorem yields_openItem (h : Yields p fun x k => 1 ≤ k ∧ (k < 2 ^ 64 → 0 < n ∧ Fits (n - 1) x))
    (major : UInt8) : Yields (openItem p major) fun x k => k < 2 ^ 64 → Fits n x := by
  have hmodify : Yields (modify fun d : Decoder => { d with sawIndefinite := true })
      fun _ k => k = 0 := by
    intro d a d' hd
    cases hd
    exact ⟨0, rfl, rfl⟩
  refine hmodify.bind fun _ j hj => ?_
  subst hj
  split_ifs
  · exact (yields_indefiniteString 2).bind fun b _ hb => Yields.pure fun hk => .bytes (by omega)
  · refine (yields_indefiniteString 3).bind fun b _ hb => (yields_utf8Text b).mono ?_
    rintro x k ⟨t, rfl, rfl⟩ hk
    exact .text (by omega)
  · exact h.untilBreak.bind fun _ _ hxs => Yields.pure fun hk => fits_array hxs (by omega)
  · exact (yields_pairOrBreak h).untilBreak.bind fun _ _ hps =>
      Yields.pure fun hk => fits_map hps (by omega)

theorem yields_closedItem (h : Yields p fun x k => 1 ≤ k ∧ (k < 2 ^ 64 → 0 < n ∧ Fits (n - 1) x))
    (major ai : UInt8) : Yields (closedItem p major ai) fun x k => k < 2 ^ 64 → Fits n x := by
  unfold closedItem
  split_ifs
  · exact (yields_definiteArg _ _).bind fun v _ hv =>
      Yields.pure fun _ => .int (by omega) (by omega)
  · exact (yields_definiteArg _ _).bind fun v _ hv =>
      Yields.pure fun _ => .int (by omega) (by omega)
  · exact (yields_len _ _).bind fun v _ hv => (yields_take v).bind fun b _ hb =>
      Yields.pure fun _ => .bytes (by omega)
  · refine (yields_len _ _).bind fun v _ hv => (yields_take v).bind fun b _ hb =>
      (yields_utf8Text b).mono ?_
    rintro x k ⟨t, rfl, rfl⟩ _
    exact .text (by omega)
  · exact (yields_len _ _).bind fun v _ _ => (h.times v).bind fun _ _ hxs =>
      Yields.pure fun hk => fits_array ⟨hxs.1, fun hk' => hxs.2 hk'⟩ (by omega)
  · exact (yields_len _ _).bind fun v _ _ => ((yields_pair h).times v).bind fun _ _ hps =>
      Yields.pure fun hk => fits_map hps (by omega)
  · refine (yields_definiteArg _ _).bind fun v _ _ => h.bind fun x _ hx => Yields.pure fun hk => ?_
    obtain ⟨hn, hfits⟩ := hx.2 (by omega)
    exact .tag hn hfits
  · exact (yields_simple n ai).mono fun _ _ hx _ => hx

theorem yields_item (allow : Bool) (room : Nat) :
    Yields (item allow room) fun x k => 1 ≤ k ∧ (k < 2 ^ 64 → 0 < room ∧ Fits (room - 1) x) := by
  induction room with
  | zero => exact Yields.err
  | succ room ih =>
    refine yields_byte.bind fun initial j hj => ?_
    subst hj
    dsimp only
    split_ifs
    · exact (yields_openItem ih _).mono fun x k hx =>
        ⟨by omega, fun hk => ⟨Nat.succ_pos room, hx (by omega)⟩⟩
    · exact (yields_closedItem ih _ _).mono fun x k hx =>
        ⟨by omega, fun hk => ⟨Nat.succ_pos room, hx (by omega)⟩⟩

/-! ## More turns than bytes -/

theorem untilBreak_fuel {p : Dec α} (hp : Yields p fun _ k => 1 ≤ k) {fuel fuel' : Nat}
    (h : d.rest.length < fuel) (h' : d.rest.length < fuel') :
    untilBreakLoop p fuel d = untilBreakLoop p fuel' d := by
  induction fuel generalizing fuel' d with
  | zero => exact absurd h (Nat.not_lt_zero _)
  | succ fuel ih =>
    obtain ⟨fuel', rfl⟩ := Nat.exists_eq_add_one.mpr (Nat.zero_lt_of_lt h')
    have hturn : ∀ a d₁, p d = .ok (a, d₁) →
        untilBreakLoop p fuel d₁ = untilBreakLoop p fuel' d₁ := by
      intro a d₁ ha
      obtain ⟨k, hk, hpos⟩ := hp d a d₁ ha
      exact ih (by omega) (by omega)
    show Except.bind (atBreak d) _ = Except.bind (atBreak d) _
    cases hb : atBreak d with
    | error e => rfl
    | ok r =>
      obtain ⟨stop, d₀⟩ := r
      obtain ⟨rfl, -⟩ := atBreak_ok.mp hb
      cases stop with
      | true => rfl
      | false =>
        show Except.bind (p d₀) _ = Except.bind (p d₀) _
        cases ha : p d₀ with
        | error e => rfl
        | ok r =>
          show Except.bind (untilBreakLoop p fuel r.2) _ =
            Except.bind (untilBreakLoop p fuel' r.2) _
          rw [hturn r.1 r.2 ha]

/-! ## Where no indefinite item was seen -/

/-- The reader forgets no indefinite item. -/
def Keeps (p : Dec α) : Prop :=
  ∀ d a d', p d = .ok (a, d') → d.sawIndefinite = true → d'.sawIndefinite = true

/-- The first reader takes exactly what the second one takes without an indefinite item. -/
def Agree (p q : Dec α) : Prop :=
  ∀ d a d', d.sawIndefinite = false →
    (p d = .ok (a, d') ↔ q d = .ok (a, d') ∧ d'.sawIndefinite = false)

/-- A reader that does not look at what was seen. -/
def Blind (p : Dec α) : Prop :=
  ∀ d a d', p d = .ok (a, d') → d'.sawIndefinite = d.sawIndefinite

theorem Blind.keeps {p : Dec α} (h : Blind p) : Keeps p :=
  fun d a d' hd hs => (h d a d' hd).trans hs

theorem Blind.agree {p : Dec α} (h : Blind p) : Agree p p :=
  fun d a d' hs => ⟨fun hd => ⟨hd, (h d a d' hd).trans hs⟩, fun hd => hd.1⟩

theorem Blind.pure (a : α) : Blind (pure a) := fun _ _ _ hd => by rw [(pure_ok.mp hd).2]

theorem Blind.err (message : Text) : Blind (err message : Dec α) :=
  fun _ _ _ hd => (err_ok.mp hd).elim

theorem Blind.bind {p : Dec α} (hp : Blind p) (hf : ∀ a, Blind (f a)) : Blind (p >>= f) := by
  intro d b d' hd
  obtain ⟨a, d₁, ha, hb⟩ := bind_ok.mp hd
  exact (hf a d₁ b d' hb).trans (hp d a d₁ ha)

theorem Keeps.bind {p : Dec α} (hp : Keeps p) (hf : ∀ a, Keeps (f a)) : Keeps (p >>= f) := by
  intro d b d' hd hs
  obtain ⟨a, d₁, ha, hb⟩ := bind_ok.mp hd
  exact hf a d₁ b d' hb (hp d a d₁ ha hs)

theorem Agree.bind {p : Dec α} {g : α → Dec β} (hpq : Agree p q) (hfg : ∀ a, Agree (f a) (g a))
    (hg : ∀ a, Keeps (g a)) : Agree (p >>= f) (q >>= g) := by
  intro d b d' hs
  constructor
  · intro h
    obtain ⟨a, d₁, ha, hb⟩ := bind_ok.mp h
    obtain ⟨ha', hs₁⟩ := (hpq d a d₁ hs).mp ha
    obtain ⟨hb', hs'⟩ := (hfg a d₁ b d' hs₁).mp hb
    exact ⟨bind_ok.mpr ⟨a, d₁, ha', hb'⟩, hs'⟩
  · rintro ⟨h, hs'⟩
    obtain ⟨a, d₁, ha, hb⟩ := bind_ok.mp h
    -- what was seen on the way would still be seen at the end
    have hs₁ : d₁.sawIndefinite = false := by
      by_contra hne
      have := hg a d₁ b d' hb (by simpa using hne)
      rw [hs'] at this
      cases this
    exact bind_ok.mpr ⟨a, d₁, (hpq d a d₁ hs).mpr ⟨ha, hs₁⟩, (hfg a d₁ b d' hs₁).mpr ⟨hb, hs'⟩⟩

theorem blind_byte : Blind byte := by
  intro d a d' hd
  unfold byte at hd
  split at hd
  · exact (err_ok.mp hd).elim
  · cases hd
    rfl

theorem blind_take (n : Nat) : Blind (take n) := by
  intro d a d' hd
  unfold take at hd
  split_ifs at hd
  · exact (err_ok.mp hd).elim
  · cases hd
    rfl

theorem blind_be (n : Nat) : Blind (be n) := (blind_take n).bind fun _ => Blind.pure _

theorem blind_atBreak : Blind atBreak := by
  intro d stop d' hd
  rw [(atBreak_ok.mp hd).1]

theorem blind_arg (ai : UInt8) : Blind (arg ai) := by
  unfold arg
  split_ifs
  · exact Blind.pure _
  · exact blind_byte.bind fun _ => Blind.pure _
  · exact (blind_be 2).bind fun _ => Blind.pure _
  · exact (blind_be 4).bind fun _ => Blind.pure _
  · exact (blind_be 8).bind fun _ => Blind.pure _
  · exact Blind.pure _
  · exact Blind.err _

theorem blind_definiteArg (ai : UInt8) (message : Text) : Blind (definiteArg ai message) := by
  refine (blind_arg ai).bind fun n => ?_
  cases n with
  | none => exact Blind.err _
  | some n => exact Blind.pure _

theorem blind_len (ai : UInt8) (what : Text) : Blind (len ai what) := by
  refine (blind_arg ai).bind fun n => ?_
  cases n with
  | none => exact Blind.err _
  | some n =>
    have hget : Blind (get : Dec Decoder) := fun _ _ _ hd => by cases hd; rfl
    refine hget.bind fun d => ?_
    split_ifs
    · exact Blind.err _
    · exact Blind.pure _

theorem blind_utf8Text (raw : Bytes) : Blind (utf8Text raw) := by
  unfold utf8Text
  split
  · exact Blind.pure _
  · exact Blind.err _

theorem blind_simple (ai : UInt8) : Blind (simple ai) := by
  unfold simple
  split_ifs
  · exact Blind.pure _
  · exact Blind.pure _
  · exact Blind.pure _
  · exact Blind.pure _
  · refine blind_byte.bind fun b => ?_
    split_ifs
    · exact Blind.err _
    · exact Blind.pure _
  · exact (blind_be 2).bind fun _ => Blind.pure _
  · exact (blind_be 4).bind fun _ => Blind.pure _
  · exact (blind_be 8).bind fun _ => Blind.pure _
  · exact Blind.err _
  · exact Blind.pure _

theorem Keeps.times {p : Dec α} (h : Keeps p) (n : Nat) : Keeps (times p n) := by
  induction n with
  | zero => exact (Blind.pure []).keeps
  | succ n ih => exact h.bind fun a => ih.bind fun as => (Blind.pure _).keeps

theorem Agree.times {p : Dec α} (h : Agree p q) (hq : Keeps q) (n : Nat) :
    Agree (times p n) (times q n) := by
  induction n with
  | zero => exact (Blind.pure []).agree
  | succ n ih =>
    exact h.bind (fun a => ih.bind (fun as => (Blind.pure _).agree) fun as => (Blind.pure _).keeps)
      fun a => (hq.times n).bind fun as => (Blind.pure _).keeps

theorem Keeps.untilBreak {p : Dec α} (h : Keeps p) : Keeps (untilBreak p) := by
  have hloop : ∀ fuel, Keeps (untilBreakLoop p fuel) := by
    intro fuel
    induction fuel with
    | zero => exact (Blind.err _).keeps
    | succ fuel ih =>
      refine blind_atBreak.keeps.bind fun stop => ?_
      cases stop with
      | true => exact (blind_byte.bind fun _ => Blind.pure _).keeps
      | false => exact h.bind fun a => ih.bind fun as => (Blind.pure _).keeps
  exact fun d a d' hd => hloop _ d a d' hd

theorem blind_chunk (major : UInt8) : Blind (chunk major) := by
  refine blind_byte.bind fun initial => ?_
  split_ifs
  · exact Blind.err _
  · exact Blind.err _
  · refine (blind_len _ _).bind fun n => (blind_take n).bind fun b => ?_
    split_ifs
    · exact Blind.err _
    · exact Blind.pure _

theorem keeps_indefiniteString (major : UInt8) : Keeps (indefiniteString major) :=
  (blind_chunk major).keeps.untilBreak.bind fun _ => (Blind.pure _).keeps

theorem Keeps.pair (h : Keeps p) : Keeps (pair p) :=
  h.bind fun _ => h.bind fun _ => (Blind.pure _).keeps

theorem Keeps.pairOrBreak (h : Keeps p) : Keeps (pairOrBreak p) := by
  refine h.bind fun k => blind_atBreak.keeps.bind fun stop => ?_
  cases stop with
  | true => exact (Blind.err _).keeps
  | false => exact h.bind fun v => (Blind.pure _).keeps

theorem openItem_saw (h : Keeps p) {x : Cbor} (hd : openItem p major d = .ok (x, d')) :
    d'.sawIndefinite = true := by
  obtain ⟨u, d₁, hmodify, hd⟩ := bind_ok.mp hd
  cases hmodify
  have hkeeps : Keeps (if major = 2 then do return .bytes (← indefiniteString 2)
      else if major = 3 then indefiniteString 3 >>= utf8Text
      else if major = 4 then do return .array (← untilBreak p)
      else do return .map (← untilBreak (pairOrBreak p)) : Dec Cbor) := by
    split_ifs
    · exact (keeps_indefiniteString 2).bind fun _ => (Blind.pure _).keeps
    · exact (keeps_indefiniteString 3).bind fun b => (blind_utf8Text b).keeps
    · exact h.untilBreak.bind fun _ => (Blind.pure _).keeps
    · exact h.pairOrBreak.untilBreak.bind fun _ => (Blind.pure _).keeps
  exact hkeeps _ x d' hd rfl

theorem Keeps.closedItem (h : Keeps p) (major ai : UInt8) : Keeps (closedItem p major ai) := by
  unfold Dec.closedItem
  split_ifs
  · exact ((blind_definiteArg _ _).bind fun _ => Blind.pure _).keeps
  · exact ((blind_definiteArg _ _).bind fun _ => Blind.pure _).keeps
  · exact ((blind_len _ _).bind fun n => (blind_take n).bind fun _ => Blind.pure _).keeps
  · exact ((blind_len _ _).bind fun n => (blind_take n).bind fun b => blind_utf8Text b).keeps
  · exact (blind_len _ _).keeps.bind fun n => (h.times n).bind fun _ => (Blind.pure _).keeps
  · exact (blind_len _ _).keeps.bind fun n => (h.pair.times n).bind fun _ => (Blind.pure _).keeps
  · exact (blind_definiteArg _ _).keeps.bind fun _ => h.bind fun _ => (Blind.pure _).keeps
  · exact (blind_simple ai).keeps

theorem Agree.closedItem {q : Dec Cbor} (h : Agree p q) (hq : Keeps q) (major ai : UInt8) :
    Agree (closedItem p major ai) (closedItem q major ai) := by
  have hpair : Agree (Dec.pair p) (Dec.pair q) :=
    h.bind (fun _ => h.bind (fun _ => (Blind.pure _).agree) fun _ => (Blind.pure _).keeps)
      fun _ => hq.bind fun _ => (Blind.pure _).keeps
  unfold Dec.closedItem
  split_ifs
  · exact ((blind_definiteArg _ _).bind fun _ => Blind.pure _).agree
  · exact ((blind_definiteArg _ _).bind fun _ => Blind.pure _).agree
  · exact ((blind_len _ _).bind fun n => (blind_take n).bind fun _ => Blind.pure _).agree
  · exact ((blind_len _ _).bind fun n => (blind_take n).bind fun b => blind_utf8Text b).agree
  · exact (blind_len _ _).agree.bind
      (fun n => (h.times hq n).bind (fun _ => (Blind.pure _).agree) fun _ => (Blind.pure _).keeps)
      fun n => (hq.times n).bind fun _ => (Blind.pure _).keeps
  · exact (blind_len _ _).agree.bind
      (fun n => (hpair.times hq.pair n).bind (fun _ => (Blind.pure _).agree)
        fun _ => (Blind.pure _).keeps)
      fun n => (hq.pair.times n).bind fun _ => (Blind.pure _).keeps
  · exact (blind_definiteArg _ _).agree.bind
      (fun _ => h.bind (fun _ => (Blind.pure _).agree) fun _ => (Blind.pure _).keeps)
      fun _ => hq.bind fun _ => (Blind.pure _).keeps
  · exact (blind_simple ai).agree

theorem closedItem_indefinite (hlo : 2 ≤ major) (hhi : major ≤ 5) {x : Cbor}
    (hd : closedItem p major 31 d = .ok (x, d')) : False := by
  have hlen : ∀ {what : Text} {f : Nat → Dec Cbor}, (len 31 what >>= f) d = .ok (x, d') → False := by
    intro what f h
    obtain ⟨n, d₁, hn, -⟩ := bind_ok.mp h
    obtain ⟨m, d₂, hm, hn⟩ := bind_ok.mp hn
    cases hm
    exact err_ok.mp hn
  unfold closedItem at hd
  split_ifs at hd with h₀ h₁ h₂ h₃ h₄ h₅ h₆
  · exact absurd (h₀ ▸ hlo) (by decide)
  · exact absurd (h₁ ▸ hlo) (by decide)
  · exact hlen hd
  · exact hlen hd
  · exact hlen hd
  · exact hlen hd
  · exact absurd (h₆ ▸ hhi) (by decide)
  · -- the six major types up to 5 are those above
    have hcases : ∀ m < 6, m = 0 ∨ m = 1 ∨ m = 2 ∨ m = 3 ∨ m = 4 ∨ m = 5 := by decide
    have hm := hcases major.toNat (Nat.lt_succ_of_le (UInt8.le_iff_toNat_le.mp hhi))
    have hof : ∀ n : Nat, major.toNat = n → major = UInt8.ofNat n := by
      rintro n rfl
      exact UInt8.ofNat_toNat.symm
    rcases hm with h | h | h | h | h | h
    · exact h₀ (hof 0 h)
    · exact h₁ (hof 1 h)
    · exact h₂ (hof 2 h)
    · exact h₃ (hof 3 h)
    · exact h₄ (hof 4 h)
    · exact h₅ (hof 5 h)

theorem keeps_item (allow : Bool) (room : Nat) : Keeps (item allow room) := by
  induction room with
  | zero => exact (Blind.err _).keeps
  | succ room ih =>
    refine blind_byte.keeps.bind fun initial => ?_
    dsimp only
    split_ifs
    · exact fun d x d' hd _ => openItem_saw ih hd
    · exact ih.closedItem _ _

theorem agree_item (room : Nat) : Agree (item false room) (item true room) := by
  induction room with
  | zero => exact (Blind.err _).agree
  | succ room ih =>
    have hkeeps := keeps_item true room
    refine blind_byte.agree.bind (fun initial => ?_) fun initial => ?_
    · dsimp only
      rw [if_neg (by simp)]
      split_ifs with h
      · obtain ⟨hai, hlo, hhi, -⟩ := h
        rw [hai]
        intro d x d' _
        constructor
        · exact fun hd => (closedItem_indefinite hlo hhi hd).elim
        · rintro ⟨hd, hs⟩
          rw [openItem_saw hkeeps hd] at hs
          cases hs
      · exact ih.closedItem hkeeps _ _
    · dsimp only
      split_ifs
      · exact fun d x d' hd _ => openItem_saw hkeeps hd
      · exact hkeeps.closedItem _ _

end Dec

/-! ## The two decoders -/

variable {b : Bytes} {x : Cbor}

theorem decodePrefix_ok {n : Nat} :
    decodePrefix b = .ok (x, n) ↔
      ∃ d, Dec.item false (maxDepth + 1) (.start b) = .ok (x, d) ∧ d.pos = n := by
  unfold decodePrefix
  cases Dec.item false (maxDepth + 1) (.start b) with
  | error e =>
    constructor
    · rintro ⟨⟩
    · rintro ⟨d, h, -⟩
      cases h
  | ok r =>
    constructor
    · intro h
      cases h
      exact ⟨r.2, rfl, rfl⟩
    · rintro ⟨d, h, rfl⟩
      cases h
      rfl

theorem decode_ok :
    decode b = .ok x ↔
      ∃ d, Dec.item false (maxDepth + 1) (.start b) = .ok (x, d) ∧ d.pos = b.length := by
  rw [← decodePrefix_ok]
  unfold decode
  cases decodePrefix b with
  | error e =>
    constructor
    · rintro ⟨⟩
    · rintro ⟨⟩
  | ok r =>
    obtain ⟨y, used⟩ := r
    by_cases h : used = b.length
    · constructor
      · intro hd
        replace hd : (if used ≠ b.length then _ else pure y : Except CborError Cbor) = .ok x := hd
        rw [if_neg (by simpa using h)] at hd
        cases hd
        rw [h]
      · intro hd
        cases hd
        show (if b.length ≠ b.length then _ else pure x : Except CborError Cbor) = .ok x
        rw [if_neg (by simp)]
        rfl
    · constructor
      · intro hd
        replace hd : (if used ≠ b.length then throw _ else _ : Except CborError Cbor) = .ok x := hd
        rw [if_pos h] at hd
        cases hd
      · intro hd
        cases hd
        exact absurd rfl h

variable {saw : Bool}

theorem decodeAllowIndefinite_ok :
    decodeAllowIndefinite b = .ok (x, saw) ↔
      ∃ d, Dec.item true (maxDepth + 1) (.start b) = .ok (x, d) ∧ d.pos = b.length ∧
        d.sawIndefinite = saw := by
  unfold decodeAllowIndefinite
  cases Dec.item true (maxDepth + 1) (.start b) with
  | error e =>
    constructor
    · rintro ⟨⟩
    · rintro ⟨d, h, -⟩
      cases h
  | ok r =>
    obtain ⟨y, d⟩ := r
    constructor
    · intro hd
      replace hd : (if d.pos ≠ b.length then throw _ else pure (y, d.sawIndefinite) :
        Except CborError (Cbor × Bool)) = .ok (x, saw) := hd
      split_ifs at hd with h
      cases hd
      exact ⟨d, rfl, by simpa using h, rfl⟩
    · rintro ⟨d', h, hpos, rfl⟩
      cases h
      show (if d.pos ≠ b.length then _ else pure (x, d.sawIndefinite) :
        Except CborError (Cbor × Bool)) = _
      rw [if_neg (by simpa using hpos)]
      rfl

theorem decodePrefix_encode (h : Fits maxDepth x) (t : Bytes) :
    decodePrefix (encode x ++ t) = .ok (x, (encode x).length) :=
  decodePrefix_ok.mpr ⟨_, Dec.reads_encode h le_rfl t 0 false, Nat.zero_add _⟩

theorem decode_encode (h : Fits maxDepth x) : decode (encode x) = .ok x := by
  have hread : Dec.item false (maxDepth + 1) ⟨encode x ++ [], 0, false⟩ = _ :=
    Dec.reads_encode h le_rfl [] 0 false
  rw [append_nil] at hread
  exact decode_ok.mpr ⟨_, hread, Nat.zero_add _⟩

theorem decodeAllowIndefinite_iff :
    decodeAllowIndefinite b = .ok (x, false) ↔ decode b = .ok x := by
  rw [decodeAllowIndefinite_ok, decode_ok]
  constructor
  · rintro ⟨d, hd, hpos, hs⟩
    exact ⟨d, (Dec.agree_item _ _ x d rfl).mpr ⟨hd, hs⟩, hpos⟩
  · rintro ⟨d, hd, hpos⟩
    obtain ⟨hd', hs⟩ := (Dec.agree_item _ _ x d rfl).mp hd
    exact ⟨d, hd', hpos, hs⟩

theorem fits_of_decodeAllowIndefinite (hb : b.length < 2 ^ 64)
    (h : decodeAllowIndefinite b = .ok (x, saw)) : Fits maxDepth x := by
  obtain ⟨d, hd, -⟩ := decodeAllowIndefinite_ok.mp h
  obtain ⟨k, hk, -, hfits⟩ := Dec.yields_item true _ _ x d hd
  have hlen : b.length = d.rest.length + k := hk
  exact (hfits (by omega)).2

end Synsema.Cbor
