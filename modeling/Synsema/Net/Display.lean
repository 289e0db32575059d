import Synsema.Net.Addr

/-!
# Addresses as text

How `std::net::IpAddr` is written: the octets of an IPv4 address in decimal, the segments of an
IPv6 address in hexadecimal with their longest run of zeros as `::`, and a mapped IPv4 address as
`::ffff:a.b.c.d`.  What is written is read back (`parseIp_toText`).
-/

namespace Synsema.Net

open Text List

/-! ## Writing -/

/-- `Display` of an IPv4 address. -/
def ipv4Text (a : BitVec 32) : Text :=
  digits (octet a 0) ++ '.' :: digits (octet a 1) ++ '.' :: digits (octet a 2) ++
    '.' :: digits (octet a 3)

/-- The digit of a nibble, in lower case. -/
def hexDigit (d : Nat) : Char := if d < 10 then Char.ofNat (48 + d) else Char.ofNat (87 + d)

/-- `{:x}` of a segment: its nibbles without zeros in front, and the last one always. -/
def segmentText (n : Nat) : Text :=
  (([n / 2 ^ 12 % 16, n / 2 ^ 8 % 16, n / 2 ^ 4 % 16].dropWhile (· == 0)) ++ [n % 16]).map hexDigit

/-- The segments between colons. -/
def segmentsText (segs : List Nat) : Text := join ":" (segs.map segmentText)

/-- Where a run of zeros starts, and how long it is. -/
structure Span where
  start : Nat
  len : Nat

/-- One segment more, at the index `i`: the longest run so far, and the one that goes on. -/
def scanZeros (longest current : Span) (i : Nat) : List Nat → Span
  | [] => longest
  | seg :: segs =>
    if seg = 0 then
      let current : Span :=
        { start := if current.len = 0 then i else current.start, len := current.len + 1 }
      scanZeros (if longest.len < current.len then current else longest) current (i + 1) segs
    else scanZeros longest ⟨0, 0⟩ (i + 1) segs

/-- The longest run of zeros. -/
def zeroes (segs : List Nat) : Span := scanZeros ⟨0, 0⟩ ⟨0, 0⟩ 0 segs

/-- The segments of an IPv6 address. -/
def segments (a : BitVec 128) : List Nat := (List.range 8).map (segment a)

/-- `Display` of an IPv6 address. -/
def ipv6Text (a : BitVec 128) : Text :=
  match toIpv4Mapped a with
  | some b => "::ffff:" ++ ipv4Text b
  | none =>
    let segs := segments a
    let z := zeroes segs
    if 1 < z.len then
      segmentsText (segs.take z.start) ++ "::" ++ segmentsText (segs.drop (z.start + z.len))
    else segmentsText segs

/-- `Display` of an address. -/
def IpAddr.toText : IpAddr → Text
  | .v4 a => ipv4Text a
  | .v6 a => ipv6Text a

/-! ## Numbers -/

variable {radix n i : Nat} {u r s t : Text} {c : Char} {segs : List Nat} {z : Span}
  {a : BitVec 128}

theorem readDigits_append (hu : ∀ c ∈ u, (toDigit radix c).isSome)
    (hr : ∀ c ∈ r.head?, toDigit radix c = none) :
    readDigits radix (u ++ r) = (u.filterMap (toDigit radix), r) := by
  induction u with
  | nil =>
    cases r with
    | nil => rfl
    | cons c r =>
      have hc : toDigit radix c = none := hr c rfl
      simp only [nil_append, readDigits, hc, filterMap_nil]
  | cons c u ih =>
    obtain ⟨d, hd⟩ := Option.isSome_iff_exists.mp (hu c mem_cons_self)
    simp only [cons_append, readDigits, hd, ih fun x hx => hu x (mem_cons_of_mem c hx),
      filterMap_cons]

variable {limit maxDigits d : Nat} {b : BitVec 32}

theorem readNumber_append {zero : Bool} (hu : ∀ c ∈ u, (toDigit radix c).isSome)
    (hr : ∀ c ∈ r.head?, toDigit radix c = none)
    (h : readNumber radix maxDigits limit zero u = some (n, [])) :
    readNumber radix maxDigits limit zero (u ++ r) = some (n, r) := by
  have hself : readDigits radix u = (u.filterMap (toDigit radix), []) := by
    have happ := readDigits_append (r := []) hu (by simp)
    rwa [append_nil] at happ
  unfold readNumber at h ⊢
  rw [hself] at h
  rw [readDigits_append hu hr]
  dsimp only at h ⊢
  split at h
  · cases h
  · rename_i hok
    rw [if_neg hok]
    cases h
    rfl

theorem octet_lt (a : BitVec 32) (i : Nat) : octet a i < 256 := Nat.mod_lt _ (by decide)

theorem readNumber_octet (h : n < 256) :
    (∀ c ∈ digits n, (toDigit 10 c).isSome) ∧
      readNumber 10 3 255 false (digits n) = some (n, []) := by
  have hall : ∀ n : Fin 256, (∀ c ∈ digits n.1, (toDigit 10 c).isSome) ∧
      readNumber 10 3 255 false (digits n.1) = some (n.1, []) := by decide +kernel
  exact hall ⟨n, h⟩

/-! ## IPv4 -/

theorem toDigit_dot (hr : radix = 10 ∨ radix = 16) : toDigit radix '.' = none := by
  rcases hr with rfl | rfl <;> decide

theorem toDigit_colon (hr : radix = 10 ∨ radix = 16) : toDigit radix ':' = none := by
  rcases hr with rfl | rfl <;> decide

theorem readNumber_digits (h : n < 256) (hr : ∀ c ∈ r.head?, toDigit 10 c = none) :
    readNumber 10 3 255 false (digits n ++ r) = some (n, r) :=
  readNumber_append (readNumber_octet h).1 hr (readNumber_octet h).2

/-- The `k` parts of `w` bits of a number, the highest first, put together. -/
theorem ofParts_parts (w k N : Nat) :
    ofParts w ((List.range k).map fun i ↦ N / 2 ^ (w * (k - 1 - i)) % 2 ^ w) = N % 2 ^ (w * k) := by
  induction k generalizing N with
  | zero => exact (Nat.mod_one N).symm
  | succ k ih =>
    have hhigh : (List.range k).map (fun i => N / 2 ^ (w * (k - i)) % 2 ^ w) =
        (List.range k).map fun i => N / 2 ^ w / 2 ^ (w * (k - 1 - i)) % 2 ^ w := by
      refine map_congr_left fun i hi => ?_
      have hi := List.mem_range.mp hi
      rw [Nat.div_div_eq_div_mul, ← Nat.pow_add, Nat.add_comm, ← Nat.mul_succ,
        show (k - 1 - i).succ = k - i by omega]
    rw [Nat.add_sub_cancel, range_succ, map_append, hhigh, ofParts, foldl_append, ← ofParts, ih,
      Nat.mul_succ, Nat.add_comm (w * k), Nat.pow_add, Nat.mod_mul]
    simp [Nat.add_comm, Nat.mul_comm]

theorem ofParts_octets (a : BitVec 32) :
    BitVec.ofNat 32 (ofParts 8 [octet a 0, octet a 1, octet a 2, octet a 3]) = a := by
  have hparts : ofParts 8 [octet a 0, octet a 1, octet a 2, octet a 3] = a.toNat :=
    (ofParts_parts 8 4 a.toNat).trans (Nat.mod_eq_of_lt a.isLt)
  rw [hparts, BitVec.ofNat_toNat, BitVec.setWidth_eq]

theorem readIpv4_ipv4Text (a : BitVec 32) (hr : ∀ c ∈ r.head?, toDigit 10 c = none) :
    readIpv4 (ipv4Text a ++ r) = some (a, r) := by
  have hdot (s : Text) : ∀ c ∈ ('.' :: s).head?, toDigit 10 c = none := by
    intro c hc
    cases hc
    exact toDigit_dot (.inl rfl)
  have htext : ipv4Text a ++ r = digits (octet a 0) ++ '.' :: (digits (octet a 1) ++
      '.' :: (digits (octet a 2) ++ '.' :: (digits (octet a 3) ++ r))) := by
    simp [ipv4Text]
  have hoctets : readOctets (ipv4Text a ++ r) [0, 1, 2, 3] =
      some ([octet a 0, octet a 1, octet a 2, octet a 3], r) := by
    rw [htext]
    simp only [readOctets, readSeparator, Nat.lt_irrefl, if_false, Option.bind_eq_bind,
      Option.bind_some, readNumber_digits (octet_lt a _) (hdot _), readChar, if_true,
      Nat.zero_lt_succ, readNumber_digits (octet_lt a _) hr, Option.pure_def]
  rw [readIpv4, hoctets]
  simp only [Option.map_some, ofParts_octets]

/-! ## Segments -/

theorem toDigit_hexDigit (h : d < 16) : toDigit 16 (hexDigit d) = some d := by
  have hall : ∀ d : Fin 16, toDigit 16 (hexDigit d.1) = some d.1 := by decide
  exact hall ⟨d, h⟩

theorem filterMap_hexDigit {ds : List Nat} (h : ∀ d ∈ ds, d < 16) :
    (ds.map hexDigit).filterMap (toDigit 16) = ds := by
  induction ds with
  | nil => rfl
  | cons d ds ih =>
    rw [map_cons, filterMap_cons, toDigit_hexDigit (h d mem_cons_self)]
    simp only [ih fun x hx => h x (mem_cons_of_mem d hx)]

theorem foldl_dropWhile (ds : List Nat) (d : Nat) :
    ((ds.dropWhile (· == 0)) ++ [d]).foldl (fun n d => n * 16 + d) 0 =
      (ds ++ [d]).foldl (fun n d => n * 16 + d) 0 := by
  induction ds with
  | nil => rfl
  | cons x ds ih =>
    by_cases hx : x = 0
    · subst hx
      simpa using ih
    · rw [dropWhile_cons_of_neg (by simpa using hx)]

/-- The nibbles a segment is written with. -/
def nibbles (n : Nat) : List Nat :=
  ([n / 2 ^ 12 % 16, n / 2 ^ 8 % 16, n / 2 ^ 4 % 16].dropWhile (· == 0)) ++ [n % 16]

theorem segmentText_eq (n : Nat) : segmentText n = (nibbles n).map hexDigit := rfl

theorem nibbles_lt (h : d ∈ nibbles n) : d < 16 := by
  rcases mem_append.mp h with h | h
  · have hmem := (dropWhile_sublist _).subset h
    simp only [List.mem_cons, not_mem_nil, or_false] at hmem
    omega
  · rw [mem_singleton.mp h]
    exact Nat.mod_lt _ (by decide)

theorem length_nibbles (n : Nat) : 0 < (nibbles n).length ∧ (nibbles n).length ≤ 4 := by
  have hle := (dropWhile_sublist (· == 0)
    (l := [n / 2 ^ 12 % 16, n / 2 ^ 8 % 16, n / 2 ^ 4 % 16])).length_le
  simp only [length_cons, length_nil] at hle
  simp only [nibbles, length_append, length_cons, length_nil]
  omega

theorem isSome_toDigit_segmentText (h : c ∈ segmentText n) : (toDigit 16 c).isSome := by
  obtain ⟨d, hd, rfl⟩ := mem_map.mp h
  rw [toDigit_hexDigit (nibbles_lt hd)]
  rfl

theorem readNumber_segmentText (h : n < 65536) (hr : ∀ c ∈ r.head?, toDigit 16 c = none) :
    readNumber 16 4 65535 true (segmentText n ++ r) = some (n, r) := by
  have hlen := length_nibbles n
  have hvalue : (nibbles n).foldl (fun n d => n * 16 + d) 0 = n := by
    rw [nibbles, foldl_dropWhile]
    simp only [cons_append, nil_append, foldl_cons, foldl_nil]
    omega
  have hempty : (nibbles n).isEmpty = false := by
    rw [isEmpty_eq_false_iff_exists_mem]
    exact exists_mem_of_length_pos hlen.1
  have hlong : ¬ 4 < (nibbles n).length := by omega
  have hlarge : ¬ 65535 < n := by omega
  unfold readNumber
  rw [readDigits_append (fun _ => isSome_toDigit_segmentText) hr, segmentText_eq,
    filterMap_hexDigit fun _ => nibbles_lt]
  simp [hvalue, hempty, hlong, hlarge]

theorem head?_readDigits_ne (radix : Nat) (hu : '.' ∉ u) (hr : r.head? ≠ some '.')
    (hdigit : ∀ c ∈ r.head?, toDigit radix c = none) :
    (readDigits radix (u ++ r)).2.head? ≠ some '.' := by
  induction u with
  | nil =>
    cases r with
    | nil => simp [readDigits]
    | cons c r =>
      have hc : toDigit radix c = none := hdigit c rfl
      simpa [readDigits, hc] using hr
  | cons c u ih =>
    have hc : c ≠ '.' := fun h => hu (h ▸ mem_cons_self)
    cases hd : toDigit radix c with
    | none => simpa [readDigits, hd] using hc
    | some d =>
      simpa [readDigits, hd] using ih fun h => hu (mem_cons_of_mem c h)

theorem readIpv4_eq_none (hu : '.' ∉ u) (hr : r.head? ≠ some '.')
    (hdigit : ∀ c ∈ r.head?, toDigit 10 c = none) : readIpv4 (u ++ r) = none := by
  have hhead := head?_readDigits_ne 10 hu hr hdigit
  have hnumber : ∀ n t, readNumber 10 3 255 false (u ++ r) = some (n, t) →
      t.head? ≠ some '.' := by
    intro n t h
    unfold readNumber at h
    generalize readDigits 10 (u ++ r) = p at h hhead
    dsimp only at h
    split at h
    · cases h
    · cases h
      exact hhead
  have hoctets : readOctets (u ++ r) [0, 1, 2, 3] = none := by
    cases hn : readNumber 10 3 255 false (u ++ r) with
    | none => simp [readOctets, readSeparator, hn]
    | some p =>
      obtain ⟨n, t⟩ := p
      have ht := hnumber n t hn
      have hchar : readChar '.' t = none := by
        cases t with
        | nil => rfl
        | cons c t => simpa [readChar] using ht
      simp [readOctets, readSeparator, hn, hchar]
  rw [readIpv4, hoctets]
  rfl

/-! ## Groups -/

/-- The separator in front of the `i`th group. -/
def colon (i : Nat) : Text := if 0 < i then [':'] else []

/-- Groups as they are read, from the `i`th on. -/
def groupsText (i : Nat) : List Nat → Text
  | [] => []
  | seg :: segs => colon i ++ segmentText seg ++ groupsText (i + 1) segs

theorem segmentsText_cons_cons (seg t : Nat) (segs : List Nat) :
    segmentsText (seg :: t :: segs) = segmentText seg ++ ':' :: segmentsText (t :: segs) := by
  simp [segmentsText, join]

theorem colon_segmentsText (hi : 0 < i) (t : Nat) (segs : List Nat) :
    ':' :: segmentsText (t :: segs) = groupsText i (t :: segs) := by
  induction segs generalizing i t with
  | nil => simp [segmentsText, join, groupsText, colon, hi]
  | cons u segs ih =>
    rw [segmentsText_cons_cons, ih (i := i + 1) (Nat.succ_pos i) u]
    simp [groupsText, colon, hi]

theorem segmentsText_eq (segs : List Nat) : segmentsText segs = groupsText 0 segs := by
  cases segs with
  | nil => rfl
  | cons seg segs =>
    cases segs with
    | nil => simp [segmentsText, join, groupsText, colon]
    | cons t segs =>
      rw [segmentsText_cons_cons, colon_segmentsText Nat.one_pos]
      simp [groupsText, colon]

/-- The groups end here: at the end, or at a `::`. -/
def Stops (r : Text) : Prop := r = [] ∨ ∃ t, r = ':' :: ':' :: t

theorem Stops.toDigit (h : Stops r) (hr : radix = 10 ∨ radix = 16) :
    ∀ c ∈ r.head?, toDigit radix c = none := by
  intro c hc
  rcases h with rfl | ⟨t, rfl⟩
  · cases hc
  · cases hc
    exact toDigit_colon hr

theorem Stops.head? (h : Stops r) : r.head? ≠ some '.' := by
  rcases h with rfl | ⟨t, rfl⟩
  · simp
  · simp

theorem groupsText_head (segs : List Nat) (hi : 0 < i) (hr : Stops r) :
    (groupsText i segs ++ r).head? ≠ some '.' ∧
      ∀ radix, radix = 10 ∨ radix = 16 →
        ∀ c ∈ (groupsText i segs ++ r).head?, toDigit radix c = none := by
  cases segs with
  | nil => exact ⟨hr.head?, fun radix hradix => hr.toDigit hradix⟩
  | cons seg segs =>
    have hhead : (groupsText i (seg :: segs) ++ r).head? = some ':' := by
      simp [groupsText, colon, hi]
    refine ⟨by rw [hhead]; decide, fun radix hradix c hc => ?_⟩
    rw [hhead] at hc
    cases hc
    exact toDigit_colon hradix

theorem readSeparator_colon (i : Nat) (s : Text) : readSeparator ':' i (colon i ++ s) = some s := by
  unfold readSeparator colon
  split
  · simp [readChar]
  · rfl

theorem dot_notMem_segmentText (n : Nat) : '.' ∉ segmentText n := by
  intro h
  have hsome := isSome_toDigit_segmentText h
  rw [toDigit_dot (.inr rfl)] at hsome
  cases hsome

theorem readGroups_stops {left : Nat} (hr : Stops r) : readGroups i left r = ([], false, r) := by
  have hnone : ∀ {radix maxDigits limit zero t}, (∀ c ∈ t.head?, toDigit radix c = none) →
      readNumber radix maxDigits limit zero t = none := by
    intro radix maxDigits limit zero t ht
    cases t with
    | nil => rfl
    | cons c t =>
      have hc : toDigit radix c = none := ht c rfl
      simp [readNumber, readDigits, hc]
  cases left with
  | zero => rfl
  | succ left =>
    have hsep : ∀ t, readSeparator ':' i r = some t → Stops t ∨ ∃ u, t = ':' :: u := by
      intro t h
      unfold readSeparator at h
      split at h
      · rcases hr with rfl | ⟨u, rfl⟩
        · cases h
        · cases h
          exact .inr ⟨u, rfl⟩
      · cases h
        exact .inl hr
    have hdigit : ∀ t, readSeparator ':' i r = some t → ∀ radix, radix = 10 ∨ radix = 16 →
        ∀ c ∈ t.head?, toDigit radix c = none := by
      intro t h radix hradix
      rcases hsep t h with ht | ⟨u, rfl⟩
      · exact ht.toDigit hradix
      · intro c hc
        cases hc
        exact toDigit_colon hradix
    have hv4 : (readSeparator ':' i r >>= readIpv4) = none := by
      cases h : readSeparator ':' i r with
      | none => rfl
      | some t =>
        have hoctets : readOctets t [0, 1, 2, 3] = none := by
          simp [readOctets, readSeparator, hnone (hdigit t h 10 (.inl rfl))]
        simp [readIpv4, hoctets]
    have hnumber : (readSeparator ':' i r >>= readNumber 16 4 65535 true) = none := by
      cases h : readSeparator ':' i r with
      | none => rfl
      | some t => simp [hnone (hdigit t h 16 (.inr rfl))]
    simp [readGroups, hv4, hnumber]

theorem readGroups_groupsText (i left : Nat) (hlt : ∀ seg ∈ segs, seg < 65536)
    (hlen : segs.length ≤ left) (hr : Stops r) :
    readGroups i left (groupsText i segs ++ r) = (segs, false, r) := by
  induction segs generalizing i left with
  | nil => exact readGroups_stops hr
  | cons seg segs ih =>
    cases left with
    | zero => cases hlen
    | succ left =>
      have hnext := groupsText_head segs (Nat.succ_pos i) hr
      have htext : groupsText i (seg :: segs) ++ r =
          colon i ++ (segmentText seg ++ (groupsText (i + 1) segs ++ r)) := by
        simp [groupsText]
      have hv4 : (readSeparator ':' i (groupsText i (seg :: segs) ++ r) >>= readIpv4) =
          none := by
        rw [htext, readSeparator_colon]
        exact readIpv4_eq_none (dot_notMem_segmentText seg) hnext.1 (hnext.2 10 (.inl rfl))
      have hnumber : (readSeparator ':' i (groupsText i (seg :: segs) ++ r) >>=
          readNumber 16 4 65535 true) = some (seg, groupsText (i + 1) segs ++ r) := by
        rw [htext, readSeparator_colon]
        exact readNumber_segmentText (hlt seg mem_cons_self) (hnext.2 16 (.inr rfl))
      have hrest := ih (i + 1) left
        (fun t ht => hlt t (mem_cons_of_mem seg ht)) (Nat.le_of_succ_le_succ hlen)
      simp [readGroups, hv4, hnumber, hrest]

/-! ## IPv6 -/

/-- A run of zeros of the segments. -/
def Span.In (z : Span) (segs : List Nat) : Prop :=
  ∃ front back, segs = front ++ replicate z.len 0 ++ back ∧ front.length = z.start

theorem Span.In.append (h : z.In segs) (t : List Nat) : z.In (segs ++ t) := by
  obtain ⟨front, back, rfl, hlen⟩ := h
  exact ⟨front, back ++ t, by simp, hlen⟩

/-- What goes on at the end of the segments seen is a run of zeros. -/
def Span.Ends (z : Span) (segs : List Nat) : Prop :=
  ∃ front, segs = front ++ replicate z.len 0 ∧ (0 < z.len → front.length = z.start)

theorem Span.Ends.zero (h : z.Ends segs) :
    (Span.mk (if z.len = 0 then segs.length else z.start) (z.len + 1)).Ends (segs ++ [0]) := by
  obtain ⟨front, rfl, hlen⟩ := h
  refine ⟨front, by simp [replicate_succ', append_assoc], fun _ => ?_⟩
  dsimp only
  split
  · rename_i hz
    simp [hz]
  · rename_i hz
    exact hlen (Nat.pos_of_ne_zero hz)

theorem Span.Ends.in (h : z.Ends segs) (hpos : 0 < z.len) : z.In segs := by
  obtain ⟨front, rfl, hlen⟩ := h
  exact ⟨front, [], by simp, hlen hpos⟩

theorem scanZeros_in {longest current : Span} (done : List Nat) (hl : longest.In done)
    (hc : current.Ends done) : (scanZeros longest current done.length segs).In (done ++ segs) := by
  induction segs generalizing longest current done with
  | nil => simpa [scanZeros] using hl
  | cons seg segs ih =>
    have hsnoc : done ++ seg :: segs = (done ++ [seg]) ++ segs := by simp
    have hlen : done.length + 1 = (done ++ [seg]).length := by simp
    unfold scanZeros
    split
    · rename_i hseg
      subst hseg
      dsimp only
      rw [hsnoc, hlen]
      have hends := hc.zero
      refine ih _ ?_ hends
      split
      · exact hends.in (Nat.succ_pos _)
      · exact hl.append [0]
    · rw [hsnoc, hlen]
      exact ih _ (hl.append [seg]) ⟨done ++ [seg], by simp, fun h => absurd h (by simp)⟩

theorem zeroes_in (segs : List Nat) : (zeroes segs).In segs :=
  scanZeros_in [] ⟨[], [], rfl, rfl⟩ ⟨[], rfl, fun h => absurd h (by simp)⟩

theorem segment_lt (a : BitVec 128) (i : Nat) : segment a i < 65536 := Nat.mod_lt _ (by decide)

theorem segments_lt {seg : Nat} (h : seg ∈ segments a) : seg < 65536 := by
  obtain ⟨i, -, rfl⟩ := mem_map.mp h
  exact segment_lt a i

theorem length_segments (a : BitVec 128) : (segments a).length = 8 := by simp [segments]

theorem ofParts_segments (a : BitVec 128) : BitVec.ofNat 128 (ofParts 16 (segments a)) = a := by
  have hparts : ofParts 16 (segments a) = a.toNat :=
    (ofParts_parts 16 8 a.toNat).trans (Nat.mod_eq_of_lt a.isLt)
  rw [hparts, BitVec.ofNat_toNat, BitVec.setWidth_eq]

theorem readIpv4_groupsText (segs : List Nat) (hr : Stops r) :
    readIpv4 (groupsText 0 segs ++ r) = none := by
  cases segs with
  | nil => exact readIpv4_eq_none (u := []) (by simp) hr.head? (hr.toDigit (.inl rfl))
  | cons seg segs =>
    have hnext := groupsText_head segs Nat.one_pos hr
    have htext : groupsText 0 (seg :: segs) ++ r = segmentText seg ++ (groupsText 1 segs ++ r) := by
      simp [groupsText, colon]
    rw [htext]
    exact readIpv4_eq_none (dot_notMem_segmentText seg) hnext.1 (hnext.2 10 (.inl rfl))

theorem readIpv6_segments :
    readIpv6 (groupsText 0 (segments a)) = some (a, []) := by
  have hread := readGroups_groupsText 0 8 (r := []) (fun _ => segments_lt (a := a))
    (length_segments a).le (.inl rfl)
  rw [append_nil] at hread
  unfold readIpv6
  rw [hread]
  simp [length_segments, ofParts_segments]

theorem readIpv6_run {front back : List Nat} {len : Nat}
    (hsegs : segments a = front ++ replicate len 0 ++ back) (hlen : 1 < len) :
    readIpv6 (groupsText 0 front ++ "::" ++ groupsText 0 back) = some (a, []) := by
  have htotal := length_segments a
  rw [hsegs] at htotal
  simp only [length_append, length_replicate] at htotal
  have hfront : ∀ seg ∈ front, seg < 65536 := by
    intro seg h
    apply segments_lt (a := a)
    rw [hsegs]
    simp [h]
  have hback : ∀ seg ∈ back, seg < 65536 := by
    intro seg h
    apply segments_lt (a := a)
    rw [hsegs]
    simp [h]
  have hhead := readGroups_groupsText 0 8 hfront (by omega)
    (r := ':' :: ':' :: groupsText 0 back) (.inr ⟨_, rfl⟩)
  have htail := readGroups_groupsText 0 (8 - (front.length + 1)) hback (by omega)
    (r := []) (.inl rfl)
  rw [append_nil] at htail
  have htext : groupsText 0 front ++ "::" ++ groupsText 0 back =
      groupsText 0 front ++ ':' :: ':' :: groupsText 0 back := by simp
  have hne : ¬ front.length = 8 := by omega
  have hzeros : 8 - front.length - back.length = len := by omega
  unfold readIpv6
  rw [htext, hhead]
  simp only [beq_iff_eq, hne, if_false, readChar, if_true, Option.bind_eq_bind, Option.bind_some,
    htail, hzeros, Option.pure_def, ← hsegs, ofParts_segments, Bool.false_eq_true]

theorem readNumber_ffff (r : Text) :
    readNumber 16 4 65535 true ("ffff" ++ ':' :: r) = some (65535, ':' :: r) :=
  readNumber_append (by decide) (by intro c hc; cases hc; decide) (by decide)

theorem ofParts_mapped (h : toIpv4Mapped a = some b) :
    BitVec.ofNat 128 (ofParts 16 ([] ++ replicate 5 0 ++
      [65535, b.toNat / 2 ^ 16, b.toNat % 2 ^ 16])) = a := by
  unfold toIpv4Mapped at h
  split at h
  · rename_i hmapped
    cases h
    have hparts : ofParts 16 ([] ++ replicate 5 0 ++
        [65535, (a.setWidth 32).toNat / 2 ^ 16, (a.setWidth 32).toNat % 2 ^ 16]) = a.toNat := by
      have hrep : replicate 5 0 = [0, 0, 0, 0, 0] := rfl
      simp only [ofParts, hrep, nil_append, cons_append, foldl_cons, foldl_nil,
        BitVec.toNat_setWidth]
      omega
    rw [hparts, BitVec.ofNat_toNat, BitVec.setWidth_eq]
  · cases h

theorem readIpv6_mapped (h : toIpv4Mapped a = some b) :
    readIpv6 ("::ffff:" ++ ipv4Text b) = some (a, []) := by
  have htext : "::ffff:" ++ ipv4Text b =
      ':' :: ':' :: ("ffff" ++ ':' :: ipv4Text b) := by simp
  have hhead : readGroups 0 8 (':' :: ':' :: ("ffff" ++ ':' :: ipv4Text b)) =
      ([], false, ':' :: ':' :: ("ffff" ++ ':' :: ipv4Text b)) :=
    readGroups_stops (.inr ⟨_, rfl⟩)
  have hfirst : readIpv4 ("ffff" ++ ':' :: ipv4Text b) = none :=
    readIpv4_eq_none (by decide) (by simp) (by intro c hc; cases hc; decide)
  have hv4 : readIpv4 (ipv4Text b) = some (b, []) := by
    have hread := readIpv4_ipv4Text b (r := []) (by simp)
    rwa [append_nil] at hread
  have htail : readGroups 0 7 ("ffff" ++ ':' :: ipv4Text b) =
      ([65535, b.toNat / 2 ^ 16, b.toNat % 2 ^ 16], true, []) := by
    have hsecond : readGroups 1 6 (':' :: ipv4Text b) =
        ([b.toNat / 2 ^ 16, b.toNat % 2 ^ 16], true, []) := by
      simp [readGroups, readSeparator, readChar, hv4]
    unfold readGroups
    simp only [readSeparator, Nat.lt_irrefl, if_false, Option.bind_eq_bind, Option.bind_some,
      hfirst, readNumber_ffff, hsecond, ite_self]
  unfold readIpv6
  rw [htext, hhead]
  have hparts := ofParts_mapped h
  simp only [length_nil, beq_iff_eq, readChar, if_true, Option.bind_eq_bind, Option.bind_some,
    Bool.false_eq_true, if_false, htail, length_cons, Option.pure_def, Nat.zero_add, Nat.sub_zero,
    Nat.reduceSub, Nat.reduceAdd, reduceCtorEq, hparts]

theorem parseIp_toText (ip : IpAddr) : parseIp ip.toText = some ip := by
  cases ip with
  | v4 a =>
    have hread := readIpv4_ipv4Text a (r := []) (by simp)
    rw [append_nil] at hread
    simp [parseIp, IpAddr.toText, hread]
  | v6 a =>
    have hv6 : readIpv4 (ipv6Text a) = none ∧ readIpv6 (ipv6Text a) = some (a, []) := by
      unfold ipv6Text
      split
      · rename_i b hb
        have htext : "::ffff:".toList ++ ipv4Text b =
            [] ++ ':' :: ':' :: ("ffff:" ++ ipv4Text b) := rfl
        refine ⟨?_, readIpv6_mapped hb⟩
        rw [htext]
        exact readIpv4_groupsText [] (.inr ⟨_, rfl⟩)
      · dsimp only
        split
        · rename_i hlen
          have hin := zeroes_in (segments a)
          generalize zeroes (segments a) = z at hlen hin
          obtain ⟨front, back, hsegs, hstart⟩ := hin
          have htake : (segments a).take z.start = front := by
            rw [← hstart, hsegs]
            simp
          have hdrop : (segments a).drop (z.start + z.len) = back := by
            rw [← hstart, hsegs]
            simp
          rw [htake, hdrop, segmentsText_eq, segmentsText_eq]
          refine ⟨?_, readIpv6_run hsegs hlen⟩
          rw [append_assoc]
          exact readIpv4_groupsText _ (.inr ⟨_, rfl⟩)
        · rw [segmentsText_eq]
          refine ⟨?_, readIpv6_segments⟩
          have hnone := readIpv4_groupsText (segments a) (r := []) (.inl rfl)
          rwa [append_nil] at hnone
    simp [parseIp, IpAddr.toText, hv6.1, hv6.2]

theorem toText_inj {ip ip' : IpAddr} (h : ip.toText = ip'.toText) : ip = ip' := by
  have hread := parseIp_toText ip
  rw [h, parseIp_toText] at hread
  exact (Option.some.inj hread).symm

/-! ## Addresses in front of a port -/

theorem readDigits_snoc (hc : toDigit radix c = none) (s r : Text) :
    readDigits radix (s ++ c :: r) = ((readDigits radix s).1, (readDigits radix s).2 ++ c :: r) := by
  induction s with
  | nil => simp [readDigits, hc]
  | cons x s ih =>
    cases hx : toDigit radix x with
    | none => simp [readDigits, hx]
    | some d => simp [readDigits, hx, ih]

theorem readNumber_snoc {zero : Bool} (hc : toDigit radix c = none)
    (h : readNumber radix maxDigits limit zero s = some (n, t)) (r : Text) :
    readNumber radix maxDigits limit zero (s ++ c :: r) = some (n, t ++ c :: r) := by
  unfold readNumber at h ⊢
  rw [readDigits_snoc hc]
  generalize readDigits radix s = p at h
  dsimp only at h ⊢
  split at h
  · cases h
  · rename_i hok
    rw [if_neg hok]
    cases h
    rfl

theorem readSeparator_snoc {d : Char} (h : readSeparator d i s = some t) (r : Text) :
    readSeparator d i (s ++ c :: r) = some (t ++ c :: r) := by
  unfold readSeparator at h ⊢
  split
  · rename_i hi
    rw [if_pos hi] at h
    cases s with
    | nil => cases h
    | cons x s =>
      simp only [readChar] at h ⊢
      split at h
      · rename_i hx
        cases h
        simp [hx]
      · cases h
  · rename_i hi
    rw [if_neg hi] at h
    cases h
    rfl

theorem readOctets_snoc (hc : toDigit 10 c = none) {is ns : List Nat}
    (h : readOctets s is = some (ns, t)) (r : Text) :
    readOctets (s ++ c :: r) is = some (ns, t ++ c :: r) := by
  induction is generalizing s ns t with
  | nil =>
    cases h
    rfl
  | cons i is ih =>
    simp only [readOctets, Option.bind_eq_bind, Option.bind_eq_some_iff, Prod.exists] at h
    obtain ⟨n, s₂, ⟨s₁, hsep, hnum⟩, ns', s₃, hrest, heq⟩ := h
    cases heq
    simp [readOctets, readSeparator_snoc hsep r, readNumber_snoc hc hnum r, ih hrest]

theorem readIpv4_snoc (hc : toDigit 10 c = none) {a : BitVec 32} (h : readIpv4 s = some (a, t))
    (r : Text) : readIpv4 (s ++ c :: r) = some (a, t ++ c :: r) := by
  obtain ⟨⟨ns, t'⟩, hns, heq⟩ := Option.map_eq_some_iff.mp h
  cases heq
  rw [readIpv4, readOctets_snoc hc hns r]
  rfl

theorem readIpv4_of_parseIp {a : BitVec 32} (h : parseIp t = some (.v4 a)) :
    readIpv4 t = some (a, []) := by
  simp only [parseIp] at h
  split at h
  · rename_i ip hread
    cases h
    rcases Option.or_eq_some_iff.mp hread with hv4 | ⟨-, hv6⟩
    · obtain ⟨⟨b, r⟩, hr, heq⟩ := Option.map_eq_some_iff.mp hv4
      cases heq
      exact hr
    · obtain ⟨⟨b, r⟩, -, heq⟩ := Option.map_eq_some_iff.mp hv6
      cases heq
  · cases h

theorem parseIp_port {a : BitVec 32} (h : parseIp t = some (.v4 a)) (r : Text) :
    parseIp (t ++ ':' :: r) = none := by
  have hread := readIpv4_snoc (toDigit_colon (.inl rfl)) (readIpv4_of_parseIp h) r
  simp [parseIp, hread]

end Synsema.Net
