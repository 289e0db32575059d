import Synsema.Blockchain.RlpRoundtrip

/-!
# Hostile RLP

What `rlp_decode` does to any byte string: that it returns, that it takes no slice outside the
bytes, that each item ends after it starts, and that the items of a list follow one another in
its body.  A length header near `2 ^ 64` breaks all of it, since the end of the body wraps around.

The calls of `rlp_decode_at` are the places reached from the first by going into a list and along
its items.  They are described twice: by what the decoder does (`Called`), and by the headers
alone (`Met`).
-/

namespace Synsema.Blockchain

open Text Bytesutil Captoken Relation

/-! ## Headers -/

/-- A header: a byte that stands for itself, or where a body starts and how long it is. -/
inductive Head where
  | byte
  | string (start len : Nat)
  | list (start len : Nat)

/-- The length that a long header gives, if the reader takes it. -/
def longLength (data : Bytes) (start nbytes : Nat) : Option Nat :=
  if nbytes = 0 ∨ 8 < nbytes ∨ data.length < start + nbytes then none
  else if data.getD start 0 = 0 then none
  else
    let n := Cur.beNat ((data.drop start).take nbytes)
    if n ≤ 55 then none else some n

/-- The header at a place, if the reader takes it. -/
def headAt (data : Bytes) (pos : Nat) : Option Head :=
  let head := data.getD pos 0
  if data.length ≤ pos then none
  else if head ≤ 0x7f then some .byte
  else if head ≤ 0xb7 then
    let len := (head - 0x80).toNat
    if data.length < pos + 1 + len then none
    else if len = 1 ∧ data.getD (pos + 1) 0 ≤ 0x7f then none
    else some (.string (pos + 1) len)
  else if head ≤ 0xbf then
    let nbytes := (head - 0xb7).toNat
    (longLength data (pos + 1) nbytes).map (.string (pos + 1 + nbytes))
  else if head ≤ 0xf7 then some (.list (pos + 1) (head - 0xc0).toNat)
  else
    let nbytes := (head - 0xf7).toNat
    (longLength data (pos + 1) nbytes).map (.list (pos + 1 + nbytes))

theorem longLength_bounds {data : Bytes} {start nbytes n : Nat}
    (h : longLength data start nbytes = some n) : start + nbytes ≤ data.length ∧ n < 2 ^ 64 := by
  rw [longLength] at h
  dsimp only at h
  split_ifs at h with h₁ h₂ h₃
  obtain rfl := Option.some.inj h
  have hlt := Cur.beNat_lt ((data.drop start).take nbytes)
  have hlen : ((data.drop start).take nbytes).length ≤ 8 := by
    rw [List.length_take]
    omega
  refine ⟨by omega, hlt.trans_le ?_⟩
  exact (Nat.pow_le_pow_right (by decide) hlen).trans (by decide)

theorem readLen_eq (data : Bytes) (start nbytes : Nat) (log : List Nat) :
    match longLength data start nbytes with
    | none => ∃ message, readLen data start nbytes log = .error (.err message)
    | some n => readLen data start nbytes log = .ok (n, n :: log) := by
  rw [longLength, readLen]
  dsimp only
  split_ifs with h₁ h₂ h₃
  · exact ⟨_, rfl⟩
  · exact ⟨_, rfl⟩
  · exact ⟨_, rfl⟩
  · rfl

theorem decodeAt_headAt (data : Bytes) (room pos : Nat) (log : List Nat) :
    match headAt data pos with
    | none => ∃ message, rlpDecodeAt data (room + 1) pos log = .error (.err message)
    | some .byte => rlpDecodeAt data (room + 1) pos log =
        .ok ((.bytes [data.getD pos 0], pos + 1), log)
    | some (.string start len) => ∃ log',
        rlpDecodeAt data (room + 1) pos log = stringBody data start len log'
    | some (.list start len) => ∃ log', rlpDecodeAt data (room + 1) pos log =
        rlpDecodeList (rlpDecodeAt data room) data start len log' := by
  have hlong (body : Nat → Nat → Dec (SynValue × Nat)) (start nbytes : Nat) :
      match longLength data start nbytes with
      | none => ∃ message, (readLen data start nbytes >>= body (start + nbytes)) log =
          .error (.err message)
      | some n => ∃ log', (readLen data start nbytes >>= body (start + nbytes)) log =
          body (start + nbytes) n log' := by
    have h := readLen_eq data start nbytes log
    cases hn : longLength data start nbytes with
    | none =>
      rw [hn] at h
      obtain ⟨message, h⟩ := h
      refine ⟨message, ?_⟩
      change (readLen data start nbytes log >>= fun r => body (start + nbytes) r.1 r.2) = _
      rw [h]
      rfl
    | some n =>
      rw [hn] at h
      refine ⟨n :: log, ?_⟩
      change (readLen data start nbytes log >>= fun r => body (start + nbytes) r.1 r.2) = _
      rw [h]
      rfl
  rw [headAt, rlpDecodeAt]
  dsimp only
  by_cases hpos : data.length ≤ pos
  · rw [if_pos hpos, if_pos hpos]
    exact ⟨_, rfl⟩
  rw [if_neg hpos, if_neg hpos]
  by_cases h₁ : data.getD pos 0 ≤ 0x7f
  · rw [if_pos h₁, if_pos h₁]
    rfl
  rw [if_neg h₁, if_neg h₁]
  by_cases h₂ : data.getD pos 0 ≤ 0xb7
  · rw [if_pos h₂, if_pos h₂]
    split_ifs with h₃ h₄
    · exact ⟨_, rfl⟩
    · exact ⟨_, rfl⟩
    · exact ⟨log, rfl⟩
  rw [if_neg h₂, if_neg h₂]
  by_cases h₃ : data.getD pos 0 ≤ 0xbf
  · rw [if_pos h₃, if_pos h₃]
    have h := hlong (stringBody data) (pos + 1) (data.getD pos 0 - 0xb7).toNat
    revert h
    cases longLength data (pos + 1) (data.getD pos 0 - 0xb7).toNat <;> exact id
  rw [if_neg h₃, if_neg h₃]
  by_cases h₄ : data.getD pos 0 ≤ 0xf7
  · rw [if_pos h₄, if_pos h₄]
    exact ⟨log, rfl⟩
  rw [if_neg h₄, if_neg h₄]
  have h := hlong (rlpDecodeList (rlpDecodeAt data room) data) (pos + 1)
    (data.getD pos 0 - 0xf7).toNat
  revert h
  cases longLength data (pos + 1) (data.getD pos 0 - 0xf7).toNat <;> exact id

variable {pos len room : Nat}

theorem headAt_bounds {data : Bytes} {start : Nat}
    (h : headAt data pos = some (.string start len) ∨ headAt data pos = some (.list start len)) :
    pos < start ∧ start ≤ data.length ∧ len < 2 ^ 64 := by
  have hbyte (c : UInt8) : c.toNat < 2 ^ 64 := c.toNat_lt.trans (by decide)
  have hlong {nbytes : Nat} {f : Nat → Head} (hf : ∀ n s l, f n = .string s l ∨ f n = .list s l →
      s = pos + 1 + nbytes ∧ l = n)
      (h : (longLength data (pos + 1) nbytes).map f = some (.string start len) ∨
        (longLength data (pos + 1) nbytes).map f = some (.list start len)) :
      pos < start ∧ start ≤ data.length ∧ len < 2 ^ 64 := by
    obtain ⟨n, hn, hfn⟩ : ∃ n, longLength data (pos + 1) nbytes = some n ∧
        (f n = .string start len ∨ f n = .list start len) := by
      rcases h with h | h
      · obtain ⟨n, hn, hfn⟩ := Option.map_eq_some_iff.mp h
        exact ⟨n, hn, .inl hfn⟩
      · obtain ⟨n, hn, hfn⟩ := Option.map_eq_some_iff.mp h
        exact ⟨n, hn, .inr hfn⟩
    obtain ⟨rfl, rfl⟩ := hf n start len hfn
    obtain ⟨hle, hlt⟩ := longLength_bounds hn
    exact ⟨by omega, hle, hlt⟩
  rw [headAt] at h
  dsimp only at h
  split_ifs at h with hpos h₁ h₂ h₃ h₄ h₅ h₆
  · simp at h
  · simp at h
  · simp at h
  · simp at h
  · rcases h with h | h
    · cases h
      exact ⟨by omega, by omega, hbyte _⟩
    · cases h
  · exact hlong (by rintro n s l (h | h) <;> cases h; exact ⟨rfl, rfl⟩) h
  · rcases h with h | h
    · cases h
    · cases h
      exact ⟨by omega, by omega, hbyte _⟩
  · exact hlong (by rintro n s l (h | h) <;> cases h; exact ⟨rfl, rfl⟩) h

/-! ## The places that are read -/

/-- The loop of a list that ends at `stop`, from place to place. -/
def Loop (item : Nat → Nat → Prop) (stop : Nat) : Nat → Nat → Prop :=
  ReflTransGen fun p q => p < stop ∧ item p q ∧ q ≤ stop

/-- From a list to an item that its loop gets to.  A place stands with the levels that are left
there. -/
def Enters (data : Bytes) (item : Nat → Nat → Nat → Prop) (x y : Nat × Nat) : Prop :=
  ∃ start len, x.1 = y.1 + 1 ∧ headAt data x.2 = some (.list start len) ∧
    usizeAdd start len ≤ data.length ∧ Loop (item y.1) (usizeAdd start len) start y.2 ∧
    y.2 < usizeAdd start len

/-- The reader takes an item at `pos` and is at `stop` after it. -/
def Decodes (data : Bytes) (room pos stop : Nat) : Prop :=
  ∃ log v log', rlpDecodeAt data room pos log = .ok ((v, stop), log')

/-- The calls of `rlp_decode_at` that `rlp_decode` makes. -/
def Called (data : Bytes) : Nat × Nat → Prop :=
  ReflTransGen (Enters data (Decodes data)) (rlpMaxDepth + 1, 0)

/-- The items of a list stand one after the other, up to `stop`. -/
def Laid (item : Nat → Dec (SynValue × Nat)) (stop : Nat) : Nat → List SynValue → Prop
  | _, [] => True
  | p, v :: vs => ∃ q, (∃ log log', item p log = .ok ((v, q), log')) ∧ p < q ∧ q ≤ stop ∧
      Laid item stop q vs

/-- `rlp_decode` is safe on a byte string. -/
structure Safe (b : Slice) : Prop where
  /-- It returns. -/
  terminates : rlpDecode b ≠ .error .diverges
  /-- Every slice it takes lies in the bytes. -/
  slices : rlpDecode b ≠ .error .panic
  /-- An item ends after it starts. -/
  advances : ∀ room pos stop, Called b.1 (room, pos) → Decodes b.1 room pos stop → pos < stop
  /-- The items of a list lie in its body, one after the other. -/
  inside : ∀ room pos start len log vs stop log', Called b.1 (room + 1, pos) →
    headAt b.1 pos = some (.list start len) →
    rlpDecodeAt b.1 (room + 1) pos log = .ok ((.list vs, stop), log') →
    stop = usizeAdd start len ∧ stop ≤ b.1.length ∧ Laid (rlpDecodeAt b.1 room) stop start vs

/-! ## The places that the headers lead to -/

/-- The headers let an item at `pos` end at `stop`. -/
def Spans (data : Bytes) : Nat → Nat → Nat → Prop
  | 0, _, _ => False
  | room + 1, pos, stop =>
    match headAt data pos with
    | none => False
    | some .byte => stop = pos + 1
    | some (.string start len) => stop = start + len ∧ stop ≤ data.length
    | some (.list start len) => stop = usizeAdd start len ∧ stop ≤ data.length ∧ pos < stop ∧
        (start ≤ stop → Loop (Spans data room) stop start stop)

/-- The places that the headers lead to. -/
def Met (data : Bytes) : Nat × Nat → Prop :=
  ReflTransGen (Enters data (Spans data)) (rlpMaxDepth + 1, 0)

/-- The header at a place gives a body whose end wraps around: of a string, or of a list, and
then to where the list itself starts or before. -/
def TurnsBack (data : Bytes) (x : Nat × Nat) : Prop :=
  x.1 ≠ 0 ∧ ∃ start len, 2 ^ 64 ≤ start + len ∧
    (headAt data x.2 = some (.string start len) ∨
      headAt data x.2 = some (.list start len) ∧ start + len ≤ 2 ^ 64 + x.2)

theorem Spans.lt {data : Bytes} {stop : Nat} (h : Spans data room pos stop) : pos < stop := by
  cases room with
  | zero => exact h.elim
  | succ room =>
    rw [Spans] at h
    split at h
    · exact h.elim
    · exact h ▸ Nat.lt_succ_self pos
    · rename_i start len hhead
      obtain ⟨hpos, -, -⟩ := headAt_bounds (.inl hhead)
      omega
    · exact h.2.2.1

section Loops

variable {item : Nat → Dec (SynValue × Nat)} {ends : Nat → Nat → Prop} {stop start : Nat}

variable {fuel p : Nat}

theorem items_run (hlt : ∀ p q, ends p q → p < q)
    (hitem : ∀ p, Loop ends stop start p → p < stop → ∀ log,
      (∃ v q log', item p log = .ok ((v, q), log') ∧ ends p q) ∨
        ∃ message, item p log = .error (.err message))
    (log : List Nat) (hp : Loop ends stop start p) (hfuel : stop - p < fuel) :
    (∃ vs log', rlpDecodeItems item stop fuel p log = .ok (vs, log') ∧
        (p ≤ stop → Loop ends stop start stop)) ∨
      ∃ message, rlpDecodeItems item stop fuel p log = .error (.err message) := by
  induction fuel generalizing p log with
  | zero => exact absurd hfuel (Nat.not_lt_zero _)
  | succ fuel ih =>
    rw [rlpDecodeItems]
    by_cases hlast : p < stop
    · rw [if_pos hlast]
      rcases hitem p hp hlast log with ⟨v, q, log', hv, hends⟩ | ⟨message, hm⟩
      · have hq := hlt p q hends
        have hbind : ∀ f : SynValue × Nat → Dec (List SynValue),
            (item p >>= f) log = f (v, q) log' := by
          intro f
          change (item p log >>= fun r => f r.1 r.2) = _
          rw [hv]
          rfl
        rw [hbind]
        dsimp only
        by_cases hover : stop < q
        · rw [if_pos hover]
          exact .inr ⟨_, rfl⟩
        rw [if_neg hover]
        have hnext : Loop ends stop start q :=
          hp.tail ⟨hlast, hends, Nat.le_of_not_lt hover⟩
        rcases ih log' hnext (by omega) with ⟨vs, log'', hvs, hend⟩ | ⟨message, hm⟩
        · refine .inl ⟨v :: vs, log'', bind_ok.mpr ⟨vs, log'', hvs, rfl⟩, fun _ => ?_⟩
          exact hend (Nat.le_of_not_lt hover)
        · refine .inr ⟨message, ?_⟩
          change (rlpDecodeItems item stop fuel q log' >>= _) = _
          rw [hm]
          rfl
      · refine .inr ⟨message, ?_⟩
        change (item p log >>= _) = _
        rw [hm]
        rfl
    · rw [if_neg hlast]
      refine .inl ⟨[], log, rfl, fun hle => ?_⟩
      obtain rfl : p = stop := by omega
      exact hp

theorem items_laid (hlt : ∀ p q, ends p q → p < q)
    (hitem : ∀ p, Loop ends stop start p → p < stop → ∀ log v q log',
      item p log = .ok ((v, q), log') → ends p q)
    {log log' : List Nat} {vs : List SynValue} (hp : Loop ends stop start p)
    (h : rlpDecodeItems item stop fuel p log = .ok (vs, log')) : Laid item stop p vs := by
  induction fuel generalizing p log vs with
  | zero => cases h
  | succ fuel ih =>
    rw [rlpDecodeItems] at h
    by_cases hlast : p < stop
    · rw [if_pos hlast, bind_ok] at h
      obtain ⟨r, mid, hr, h⟩ := h
      by_cases hover : stop < r.2
      · rw [if_pos hover] at h
        exact absurd h fail_ne_ok
      rw [if_neg hover, bind_ok] at h
      obtain ⟨ws, mid', hws, h⟩ := h
      obtain ⟨rfl, rfl⟩ := pure_ok.mp h
      have hends := hitem p hp hlast log r.1 r.2 mid hr
      have hle := Nat.le_of_not_lt hover
      exact ⟨r.2, ⟨log, mid, hr⟩, hlt p r.2 hends, hle, ih (hp.tail ⟨hlast, hends, hle⟩) hws⟩
    · rw [if_neg hlast] at h
      obtain ⟨rfl, rfl⟩ := pure_ok.mp h
      trivial

theorem reads_items (hlt : ∀ p q, ends p q → p < q)
    (hitem : ∀ p q, ends p q → ∃ v, Reads (item p) (v, q)) (hp : Loop ends stop p stop)
    (hfuel : stop - p < fuel) : ∃ vs, Reads (rlpDecodeItems item stop fuel p) vs := by
  induction hp using ReflTransGen.head_induction_on generalizing fuel with
  | refl =>
    obtain ⟨fuel, rfl⟩ := Nat.exists_eq_add_one_of_ne_zero (Nat.ne_zero_of_lt hfuel)
    rw [rlpDecodeItems, if_neg (Nat.lt_irrefl _)]
    exact ⟨[], Reads.pure _⟩
  | @head p q hstep hrest ih =>
    obtain ⟨fuel, rfl⟩ := Nat.exists_eq_add_one_of_ne_zero (Nat.ne_zero_of_lt hfuel)
    obtain ⟨hlast, hends, hle⟩ := hstep
    obtain ⟨v, hv⟩ := hitem p q hends
    have hq := hlt p q hends
    obtain ⟨vs, hvs⟩ := @ih fuel (by omega)
    rw [rlpDecodeItems, if_pos hlast]
    refine ⟨v :: vs, hv.bind ?_⟩
    rw [if_neg (Nat.not_lt.mpr hle)]
    exact hvs.bind (Reads.pure _)

theorem items_stop (hlt : ∀ p q, ends p q → p < q)
    (hitem : ∀ p q, ends p q → ∃ v, Reads (item p) (v, q)) {last : Nat} {e : Stop}
    (hp : Loop ends stop p last) (hlast : last < stop) (he : ∀ log, item last log = .error e)
    (hfuel : stop - p < fuel) (log : List Nat) :
    rlpDecodeItems item stop fuel p log = .error e := by
  induction hp using ReflTransGen.head_induction_on generalizing fuel log with
  | refl =>
    obtain ⟨fuel, rfl⟩ := Nat.exists_eq_add_one_of_ne_zero (Nat.ne_zero_of_lt hfuel)
    rw [rlpDecodeItems, if_pos hlast]
    change (item last log >>= _) = _
    rw [he]
    rfl
  | @head p q hstep hrest ih =>
    obtain ⟨fuel, rfl⟩ := Nat.exists_eq_add_one_of_ne_zero (Nat.ne_zero_of_lt hfuel)
    obtain ⟨hp, hends, hle⟩ := hstep
    obtain ⟨v, hv⟩ := hitem p q hends
    obtain ⟨log', hlog'⟩ := hv log
    have hq := hlt p q hends
    have hrest := @ih fuel (by omega) log'
    rw [rlpDecodeItems, if_pos hp]
    change (item p log >>= fun r => (if stop < r.1.2 then _ else _ : Dec _) r.2) = _
    rw [hlog']
    change (if stop < q then _ else _ : Dec _) log' = _
    rw [if_neg (Nat.not_lt.mpr hle)]
    change (rlpDecodeItems item stop fuel q log' >>= _) = _
    rw [hrest]
    rfl

end Loops

/-! ## The condition is exact -/

theorem stringBody_eq {data : Bytes} {start : Nat} (hdata : data.length < 2 ^ 63)
    (h : start + len ≤ data.length) (log : List Nat) :
    stringBody data start len log =
      .ok ((.bytes ((data.take (start + len)).drop start), start + len), log) := by
  have hadd : usizeAdd start len = start + len := usizeAdd_eq (by omega)
  rw [stringBody, hadd, if_neg (Nat.not_lt.mpr h), slice, if_pos ⟨Nat.le_add_right .., h⟩]
  rfl

theorem decodeList_eq {data : Bytes} {item : Nat → Dec (SynValue × Nat)} {start : Nat}
    (h : usizeAdd start len ≤ data.length) (log : List Nat) :
    rlpDecodeList item data start len log =
      match rlpDecodeItems item (usizeAdd start len) (data.length + 1) start log with
      | .ok (vs, log') => .ok ((.list vs, usizeAdd start len), log')
      | .error e => .error e := by
  rw [rlpDecodeList, if_neg (Nat.not_lt.mpr h)]
  change (rlpDecodeItems item (usizeAdd start len) (data.length + 1) start log >>= _) = _
  cases rlpDecodeItems item (usizeAdd start len) (data.length + 1) start log <;> rfl

theorem decodeAt_run {data : Bytes} (hdata : data.length < 2 ^ 63)
    (h : ∀ y, ReflTransGen (Enters data (Spans data)) (room, pos) y → ¬ TurnsBack data y)
    (log : List Nat) :
    (∃ v stop log', rlpDecodeAt data room pos log = .ok ((v, stop), log') ∧
        Spans data room pos stop) ∨
      ∃ message, rlpDecodeAt data room pos log = .error (.err message) := by
  induction room generalizing pos log with
  | zero => exact .inr ⟨_, rfl⟩
  | succ room ih =>
    have hat := decodeAt_headAt data room pos log
    have hhere := h _ .refl
    cases hhead : headAt data pos with
    | none =>
      rw [hhead] at hat
      exact .inr hat
    | some head =>
      rw [hhead] at hat
      cases head with
      | byte =>
        exact .inl ⟨_, pos + 1, log, hat, by rw [Spans, hhead]⟩
      | string start len =>
        obtain ⟨log', hat⟩ := hat
        have hno : start + len < 2 ^ 64 := by
          by_contra hwrap
          exact hhere ⟨Nat.succ_ne_zero _, start, len, Nat.le_of_not_lt hwrap, .inl hhead⟩
        by_cases hlong : data.length < start + len
        · refine .inr ⟨"rlp_decode: string body exceeds input length", ?_⟩
          rw [hat, stringBody, usizeAdd_eq hno, if_pos hlong]
          rfl
        · have hle := Nat.le_of_not_lt hlong
          refine .inl ⟨_, start + len, log', hat.trans (stringBody_eq hdata hle log'), ?_⟩
          rw [Spans, hhead]
          exact ⟨rfl, hle⟩
      | list start len =>
        obtain ⟨log', hat⟩ := hat
        obtain ⟨hpos, hstart, hlen⟩ := headAt_bounds (.inr hhead)
        by_cases hlong : data.length < usizeAdd start len
        · refine .inr ⟨"rlp_decode: list body exceeds input length", ?_⟩
          rw [hat, rlpDecodeList, if_pos hlong]
          rfl
        have hle := Nat.le_of_not_lt hlong
        have hafter : pos < usizeAdd start len := by
          by_cases hwrap : 2 ^ 64 ≤ start + len
          · by_contra hback
            refine hhere ⟨Nat.succ_ne_zero _, start, len, hwrap, .inr ⟨hhead, ?_⟩⟩
            rw [usizeAdd, Nat.mod_eq_sub_mod hwrap, Nat.mod_eq_of_lt (by omega)] at hback
            change start + len ≤ 2 ^ 64 + pos
            omega
          · rw [usizeAdd_eq (Nat.lt_of_not_le hwrap)]
            omega
        have hitem : ∀ p, Loop (Spans data room) (usizeAdd start len) start p →
            p < usizeAdd start len → ∀ log,
            (∃ v q log', rlpDecodeAt data room p log = .ok ((v, q), log') ∧
              Spans data room p q) ∨
            ∃ message, rlpDecodeAt data room p log = .error (.err message) :=
          fun p hp hlast log => ih (fun y hy => h y
            (.head ⟨start, len, rfl, hhead, hle, hp, hlast⟩ hy)) log
        have hrun := items_run (fun p q => Spans.lt) hitem log' .refl
          (show usizeAdd start len - start < data.length + 1 by omega)
        rw [hat, decodeList_eq hle]
        rcases hrun with ⟨vs, log'', hvs, hend⟩ | ⟨message, hm⟩
        · rw [hvs]
          refine .inl ⟨.list vs, _, log'', rfl, ?_⟩
          rw [Spans, hhead]
          exact ⟨rfl, hle, hafter, hend⟩
        · rw [hm]
          exact .inr ⟨message, rfl⟩

theorem Spans.reads {data : Bytes} (hdata : data.length < 2 ^ 63) {stop : Nat}
    (h : Spans data room pos stop) : ∃ v, Reads (rlpDecodeAt data room pos) (v, stop) := by
  induction room generalizing pos stop with
  | zero => exact h.elim
  | succ room ih =>
    have hat := decodeAt_headAt data room pos
    rw [Spans] at h
    cases hhead : headAt data pos with
    | none =>
      rw [hhead] at h
      exact h.elim
    | some head =>
      rw [hhead] at h
      simp only [hhead] at hat
      cases head with
      | byte =>
        obtain rfl := h
        exact ⟨_, fun log => ⟨log, hat log⟩⟩
      | string start len =>
        obtain ⟨rfl, hle⟩ := h
        refine ⟨.bytes ((data.take (start + len)).drop start), fun log => ?_⟩
        obtain ⟨log', hlog⟩ := hat log
        exact ⟨log', hlog.trans (stringBody_eq hdata hle log')⟩
      | list start len =>
        obtain ⟨rfl, hle, -, hloop⟩ := h
        obtain ⟨vs, hvs⟩ : ∃ vs, Reads (rlpDecodeItems (rlpDecodeAt data room)
            (usizeAdd start len) (data.length + 1) start) vs := by
          by_cases hstart : start ≤ usizeAdd start len
          · exact reads_items (fun p q => Spans.lt) (fun p q => ih) (hloop hstart) (by omega)
          · rw [rlpDecodeItems, if_neg (by omega)]
            exact ⟨[], Reads.pure _⟩
        refine ⟨.list vs, fun log => ?_⟩
        obtain ⟨log', hlog⟩ := hat log
        obtain ⟨log'', hlog'⟩ := hvs log'
        refine ⟨log'', ?_⟩
        rw [hlog, decodeList_eq hle, hlog']

theorem Spans.decodes {data : Bytes} (hdata : data.length < 2 ^ 63) {stop : Nat}
    (h : Spans data room pos stop) : Decodes data room pos stop := by
  obtain ⟨v, hv⟩ := h.reads hdata
  obtain ⟨log', hlog'⟩ := hv []
  exact ⟨[], v, log', hlog'⟩

theorem Loop.mono {item item' : Nat → Nat → Prop} {stop start : Nat}
    (h : ∀ p q, Loop item stop start p → p < stop → item p q → item' p q) {p : Nat}
    (hp : Loop item stop start p) : Loop item' stop start p := by
  induction hp with
  | refl => exact .refl
  | @tail p q hp hstep ih => exact ih.tail ⟨hstep.1, h p q hp hstep.1 hstep.2.1, hstep.2.2⟩

theorem Met.called {data : Bytes} (hdata : data.length < 2 ^ 63) {x : Nat × Nat}
    (h : Met data x) : Called data x := by
  refine ReflTransGen.mono ?_ _ _ h
  rintro x y ⟨start, len, hroom, hhead, hle, hloop, hlast⟩
  exact ⟨start, len, hroom, hhead, hle, hloop.mono fun p q _ _ => Spans.decodes hdata, hlast⟩

section Forward

variable {data : Bytes} (hdata : data.length < 2 ^ 63)
  (h : ∀ x, Met data x → ¬ TurnsBack data x)
include hdata h

theorem Met.spans {room pos stop : Nat} (hmet : Met data (room, pos))
    (hdec : Decodes data room pos stop) : Spans data room pos stop := by
  obtain ⟨log, v, log', hdec⟩ := hdec
  rcases decodeAt_run hdata (fun y hy => h y (hmet.trans hy)) log with
    ⟨v', stop', log'', hrun, hspans⟩ | ⟨message, hm⟩
  · rw [hdec] at hrun
    cases hrun
    exact hspans
  · rw [hdec] at hm
    cases hm

theorem Called.met {x : Nat × Nat} (hx : Called data x) : Met data x := by
  induction hx with
  | refl => exact .refl
  | @tail x y _ hstep ih =>
    obtain ⟨start, len, hroom, hhead, hle, hloop, hlast⟩ := hstep
    refine ih.tail ⟨start, len, hroom, hhead, hle, ?_, hlast⟩
    clear hlast
    generalize y.2 = p at hloop
    induction hloop with
    | refl => exact .refl
    | @tail p q _ hpq hloop =>
      obtain ⟨hp, hdec, hq⟩ := hpq
      have hmet : Met data (y.1, p) := ih.tail ⟨start, len, hroom, hhead, hle, hloop, hp⟩
      exact hloop.tail ⟨hp, hmet.spans hdata h hdec, hq⟩

end Forward

theorem Met.stops {data : Bytes} (hdata : data.length < 2 ^ 63) {x : Nat × Nat} {e : Stop}
    (h : Met data x) (he : ∀ log, rlpDecodeAt data x.1 x.2 log = .error e) (log : List Nat) :
    rlpDecodeAt data (rlpMaxDepth + 1) 0 log = .error e := by
  have hall : ∀ y, ReflTransGen (Enters data (Spans data)) y x → ∀ log,
      rlpDecodeAt data y.1 y.2 log = .error e := by
    intro y hy
    induction hy using ReflTransGen.head_induction_on with
    | refl => exact he
    | @head y z hstep _ ih =>
      intro log
      obtain ⟨start, len, hroom, hhead, hle, hloop, hlast⟩ := hstep
      have hat := decodeAt_headAt data z.1 y.2 log
      rw [hhead] at hat
      obtain ⟨log', hat⟩ := hat
      rw [hroom, hat, decodeList_eq hle]
      rw [items_stop (fun p q => Spans.lt) (fun p q => Spans.reads hdata) hloop hlast ih
        (by omega)]
  exact hall _ h log


theorem rlpDecode_error {b : Slice} {e : Stop} (hne : b.1 ≠ []) (he : ∀ message, e ≠ .err message) :
    rlpDecode b = .error e ↔ rlpDecodeAt b.1 (rlpMaxDepth + 1) 0 [] = .error e := by
  have hempty : ¬ b.1.isEmpty := by rwa [List.isEmpty_iff]
  rw [rlpDecode, rlpDecodeLog, if_neg hempty]
  cases hrun : rlpDecodeAt b.1 (rlpMaxDepth + 1) 0 [] with
  | error e' =>
    simp only [Except.map, Except.error.injEq]
  | ok r =>
    obtain ⟨⟨v, consumed⟩, log⟩ := r
    dsimp only
    split_ifs with hall
    · constructor
      · intro h
        exact absurd (Except.error.inj h).symm (he _)
      · intro h
        cases h
    · simp [Except.map]

/-- `rlp_decode` is safe on just those byte strings in which no header that it meets turns it
back. -/
theorem rlpDecode_safe_iff (b : Slice) : Safe b ↔ ∀ x, Met b.1 x → ¬ TurnsBack b.1 x := by
  constructor
  · rintro hsafe ⟨room', pos⟩ hmet ⟨hroom, start, len, hwrap, hturn⟩
    obtain ⟨room, rfl⟩ := Nat.exists_eq_add_one_of_ne_zero hroom
    have hlen := b.2
    obtain ⟨hpos, hstart, hlt⟩ := headAt_bounds (hturn.imp_right And.left)
    have hstop : usizeAdd start len = start + len - 2 ^ 64 := by
      rw [usizeAdd, Nat.mod_eq_sub_mod hwrap, Nat.mod_eq_of_lt (by omega)]
    have hle : usizeAdd start len ≤ b.1.length := by omega
    rcases hturn with hhead | ⟨hhead, hback⟩
    · have hpanic : ∀ log, rlpDecodeAt b.1 (room + 1) pos log = .error .panic := by
        intro log
        have hat := decodeAt_headAt b.1 room pos log
        rw [hhead] at hat
        obtain ⟨log', hat⟩ := hat
        rw [hat, stringBody, if_neg (Nat.not_lt.mpr hle), slice, if_neg (by omega)]
        rfl
      have hne : b.1 ≠ [] := by
        rintro hnil
        rw [hnil] at hstart
        exact absurd (hpos.trans_le hstart) (Nat.not_lt_zero _)
      exact hsafe.slices ((rlpDecode_error (e := .panic) hne (by rintro _ ⟨⟩)).mpr (hmet.stops b.2 hpanic []))
    · have hdec : Decodes b.1 (room + 1) pos (usizeAdd start len) := by
        have hat := decodeAt_headAt b.1 room pos []
        rw [hhead] at hat
        obtain ⟨log', hat⟩ := hat
        refine ⟨[], .list [], log', ?_⟩
        rw [hat, decodeList_eq hle, rlpDecodeItems, if_neg (by omega)]
        rfl
      have hadv := hsafe.advances _ _ _ (hmet.called b.2) hdec
      dsimp only at hback
      omega
  · intro h
    have hrun : ∀ e, (∀ message, e ≠ .err message) → rlpDecode b ≠ .error e := by
      intro e he herr
      have hne : b.1 ≠ [] := by
        intro hnil
        rw [rlpDecode, rlpDecodeLog, if_pos (List.isEmpty_iff.mpr hnil)] at herr
        exact he _ (Except.error.inj herr).symm
      rw [rlpDecode_error hne he] at herr
      rcases decodeAt_run b.2 h [] with ⟨v, stop, log', hok, -⟩ | ⟨message, hm⟩
      · rw [hok] at herr
        cases herr
      · rw [hm] at herr
        exact he _ (Except.error.inj herr).symm
    refine ⟨hrun _ (by rintro _ ⟨⟩), hrun _ (by rintro _ ⟨⟩), ?_, ?_⟩
    · intro room pos stop hcalled hdec
      exact ((Called.met b.2 h hcalled).spans b.2 h hdec).lt
    · intro room pos start len log vs stop log' hcalled hhead hok
      have hmet := Called.met b.2 h hcalled
      have hat := decodeAt_headAt b.1 room pos log
      rw [hhead] at hat
      obtain ⟨mid, hat⟩ := hat
      have hle : usizeAdd start len ≤ b.1.length := by
        by_contra hlong
        rw [hat, rlpDecodeList, if_pos (Nat.lt_of_not_le hlong)] at hok
        exact fail_ne_ok hok
      rw [hat, decodeList_eq hle] at hok
      cases hitems : rlpDecodeItems (rlpDecodeAt b.1 room) (usizeAdd start len)
          (b.1.length + 1) start mid with
      | error e =>
        rw [hitems] at hok
        cases hok
      | ok r =>
        rw [hitems] at hok
        cases hok
        have hspans : ∀ p, Loop (Spans b.1 room) (usizeAdd start len) start p →
            p < usizeAdd start len → ∀ log v q log',
            rlpDecodeAt b.1 room p log = .ok ((v, q), log') → Spans b.1 room p q := by
          intro p hp hlast log v q log' hitem
          refine Met.spans b.2 h (hmet.tail ?_) ⟨log, v, log', hitem⟩
          exact ⟨start, len, rfl, hhead, hle, hp, hlast⟩
        exact ⟨rfl, hle, items_laid (fun p q => Spans.lt) hspans .refl hitems⟩

/-- A list whose item claims a body of `2 ^ 64 - 9` bytes: it ends where it starts. -/
def circularBytes : Slice :=
  ⟨[0xc9, 0xff, 0xff, 0xff, 0xff, 0xff, 0xff, 0xff, 0xff, 0xf7], by decide⟩

theorem items_diverge {item : Nat → Dec (SynValue × Nat)} {stop p : Nat} (hp : p < stop)
    (hitem : ∀ log, ∃ v log', item p log = .ok ((v, p), log')) (fuel : Nat) (log : List Nat) :
    rlpDecodeItems item stop fuel p log = .error .diverges := by
  induction fuel generalizing log with
  | zero => rfl
  | succ fuel ih =>
    obtain ⟨v, log', hv⟩ := hitem log
    rw [rlpDecodeItems, if_pos hp]
    change (item p log >>= fun r => (if stop < r.1.2 then _ else _ : Dec _) r.2) = _
    rw [hv]
    change (if stop < p then _ else _ : Dec _) log' = _
    rw [if_neg (Nat.lt_asymm hp)]
    change (rlpDecodeItems item stop fuel p log' >>= _) = _
    rw [ih]
    rfl

/-- That list is decoded forever. -/
theorem circular_not_safe : ¬ ∀ b : Slice, Safe b := by
  intro h
  have hitem : ∀ log, ∃ v log',
      rlpDecodeAt circularBytes.1 rlpMaxDepth 1 log = .ok ((v, 1), log') :=
    fun log => ⟨.list [], (2 ^ 64 - 9) :: log, rfl⟩
  have hhead : headAt circularBytes.1 0 = some (.list 1 9) := by rfl
  have hlist := decodeAt_headAt circularBytes.1 rlpMaxDepth 0 []
  rw [hhead] at hlist
  obtain ⟨log', hlist⟩ := hlist
  rw [decodeList_eq (show usizeAdd 1 9 ≤ circularBytes.1.length by decide),
    items_diverge (show 1 < usizeAdd 1 9 by decide) hitem] at hlist
  exact (h circularBytes).terminates
    ((rlpDecode_error (e := .diverges) (List.cons_ne_nil _ _) nofun).mpr hlist)

end Synsema.Blockchain
