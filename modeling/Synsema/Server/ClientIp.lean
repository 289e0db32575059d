import Synsema.Server.Forwarded
import Synsema.Lib.Except

/-!
# The client cannot choose its address

A client whose address is in no trusted network sends headers of its own; trusted proxies pass them
on, each with the address of its peer behind the others.  The client address of the request is the
client's own where what the first proxy adds is not lost: a line with a byte that is no visible
ASCII is read as an empty one, with all that proxies added to it (`forwardedLaw_iff`).
-/

namespace Synsema.Server

open Net Text Bytesutil List

/-! ## Hops -/

/-- The ways a hop writes an address, whatever notation of the address it uses. -/
inductive Hop (ip : IpAddr) : Text → Prop
  | plain {t : Text} : parseIp t = some ip → Hop ip t
  | bracketed {t : Text} : parseIp t = some ip → Hop ip ('[' :: t ++ [']'])
  | port {t : Text} {a : BitVec 32} (n : Nat) :
      ip = .v4 a → parseIp t = some ip → Hop ip (t ++ ':' :: digits n)
  | bracketedPort {t : Text} (n : Nat) :
      parseIp t = some ip → Hop ip ('[' :: t ++ ']' :: ':' :: digits n)

/-- The characters of a hop. -/
def isHopChar (c : Char) : Bool := isAddrChar c || c == '[' || c == ']'

variable {c : Char} {ip peer : IpAddr} {t hop k : Text} {v : Bytes} {hops : List Text}
  {up : Upstream} {headers : Headers} {isWs tls : Bool}

theorem isHopChar_of_isAddrChar (h : isAddrChar c) : isHopChar c = true := by
  simp [isHopChar, h]

theorem isHopChar_digits {n : Nat} (h : c ∈ digits n) : isHopChar c = true := by
  have hdigit : c.isDigit := all_eq_true.mp (allDigits_digits n) c h
  have hle : '0' ≤ c ∧ c ≤ '9' := by
    simp only [Char.isDigit, ge_iff_le, Bool.and_eq_true, decide_eq_true_eq] at hdigit
    exact hdigit
  have hvalue : toDigit 16 c = some (c.toNat - 48) := by
    have hnat : c.toNat ≤ 57 := Char.le_def.mp hle.2
    simp only [toDigit, hle, and_self, if_true]
    rw [Option.filter_eq_some_iff]
    exact ⟨rfl, by simp; omega⟩
  apply isHopChar_of_isAddrChar
  simp [isAddrChar, hvalue]

theorem Hop.chars (h : Hop ip t) : ∀ c ∈ t, isHopChar c = true := by
  have haddr {t : Text} (ht : parseIp t = some ip) : ∀ c ∈ t, isHopChar c = true :=
    fun c hc => isHopChar_of_isAddrChar (isAddrChar_of_parseIp ht c hc)
  intro c hc
  cases h with
  | plain ht => exact haddr ht c hc
  | bracketed ht =>
    simp only [cons_append, List.mem_cons, mem_append, not_mem_nil, or_false] at hc
    rcases hc with rfl | hc | rfl
    · decide
    · exact haddr ht c hc
    · decide
  | port n _ ht =>
    simp only [mem_append, List.mem_cons] at hc
    rcases hc with hc | rfl | hc
    · exact haddr ht c hc
    · decide
    · exact isHopChar_digits hc
  | bracketedPort n ht =>
    simp only [cons_append, List.mem_cons, mem_append] at hc
    rcases hc with rfl | hc | rfl | rfl | hc
    · decide
    · exact haddr ht c hc
    · decide
    · decide
    · exact isHopChar_digits hc

theorem isHopChar_range (h : isHopChar c) : 33 ≤ c.toNat ∧ c.toNat < 127 ∧
    c ≠ ',' := by
  simp only [isHopChar, isAddrChar, Bool.or_eq_true, beq_iff_eq] at h
  rcases h with (((h | rfl) | rfl) | rfl) | rfl
  · obtain ⟨d, hd⟩ := Option.isSome_iff_exists.mp h
    obtain ⟨hd, -⟩ := Option.filter_eq_some_iff.mp hd
    have hrange : (48 ≤ c.toNat ∧ c.toNat ≤ 57) ∨ (97 ≤ c.toNat ∧ c.toNat ≤ 122) ∨
        (65 ≤ c.toNat ∧ c.toNat ≤ 90) := by
      split at hd
      · rename_i hc
        exact .inl ⟨Char.le_def.mp hc.1, Char.le_def.mp hc.2⟩
      · split at hd
        · rename_i hc
          exact .inr (.inl ⟨Char.le_def.mp hc.1, Char.le_def.mp hc.2⟩)
        · split at hd
          · rename_i hc
            exact .inr (.inr ⟨Char.le_def.mp hc.1, Char.le_def.mp hc.2⟩)
          · cases hd
    refine ⟨by omega, by omega, ?_⟩
    rintro rfl
    have hcomma : (',' : Char).toNat = 44 := rfl
    omega
  · decide
  · decide
  · decide
  · decide

theorem isWhitespace_of_isHopChar (h : isHopChar c) : isWhitespace c = false := by
  obtain ⟨hlo, hhi, -⟩ := isHopChar_range h
  simp only [isWhitespace, Bool.or_eq_false_iff, Bool.and_eq_false_iff, decide_eq_false_iff_not,
    List.mem_cons, not_mem_nil, or_false]
  omega

theorem trim_of_isHopChar (h : ∀ c ∈ t, isHopChar c) : trim t = t :=
  trim_eq_self (fun c hc => isWhitespace_of_isHopChar (h c (mem_of_mem_head? hc)))
    fun c hc => isWhitespace_of_isHopChar (h c (mem_of_mem_getLast? hc))

theorem parseIp_bracket (t : Text) : parseIp ('[' :: t) = none := by
  cases h : parseIp ('[' :: t) with
  | none => rfl
  | some ip => exact absurd (isAddrChar_of_parseIp h '[' mem_cons_self) (by decide)

theorem before_bracket (h : parseIp t = some ip) (r : Text) :
    before (· == ']') (t ++ ']' :: r) = t := by
  have hall : ∀ c ∈ t, (!(c == ']')) = true := by
    intro c hc
    have haddr := isAddrChar_of_parseIp h c hc
    by_cases hb : c = ']'
    · subst hb
      exact absurd haddr (by decide)
    · simpa using hb
  rw [before, takeWhile_append_of_pos hall]
  simp

theorem colon_notMem_digits (n : Nat) : ':' ∉ digits n := by
  intro h
  have hdigit := all_eq_true.mp (allDigits_digits n) ':' h
  exact absurd hdigit (by decide)

theorem hopIp_of_hop (h : Hop ip t) : hopIp t = some ip := by
  have htrim : trim t = t := trim_of_isHopChar h.chars
  unfold hopIp
  rw [htrim]
  cases h with
  | plain ht => simp only [ht]
  | @bracketed t ht =>
    simp [parseIp_bracket, stripPrefix, List.isPrefixOf?, before_bracket ht [], ht]
  | @port t a n hip ht =>
    subst hip
    have hhead : stripPrefix "[" (t ++ ':' :: digits n) = none := by
      cases hs : stripPrefix "[" (t ++ ':' :: digits n) with
      | none => rfl
      | some r =>
        have hbracket : '[' ∈ t ++ ':' :: digits n := by
          rw [stripPrefix_eq_some.mp hs]
          simp
        simp only [mem_append, List.mem_cons] at hbracket
        rcases hbracket with hb | hb | hb
        · exact absurd (isAddrChar_of_parseIp ht '[' hb) (by decide)
        · exact absurd hb (by decide)
        · exact absurd (all_eq_true.mp (allDigits_digits n) '[' hb) (by decide)
    simp only [parseIp_port ht, hhead, rsplitOnce_append t (colon_notMem_digits n),
      allDigits_digits, if_true, ht]
  | @bracketedPort t n ht =>
    have hbefore := before_bracket ht (':' :: digits n)
    simp [parseIp_bracket, stripPrefix, List.isPrefixOf?, hbefore, ht]

theorem hopsOf_hop (h : Hop ip t) (r : Text) (hr : ∀ c ∈ r, c = ' ') : hopsOf (r ++ t) = [t] := by
  have hcomma : ',' ∉ r ++ t := by
    intro hm
    rcases mem_append.mp hm with hm | hm
    · exact absurd (hr _ hm) (by decide)
    · exact (isHopChar_range (h.chars _ hm)).2.2 rfl
  have hblank : ∀ c ∈ r, isWhitespace c := by
    intro c hc
    rw [hr c hc]
    decide
  have htrim : trim (r ++ t) = t := by
    have hstart : trimStart (r ++ t) = trimStart t := by
      rw [trimStart, dropWhile_append_of_pos hblank, trimStart]
    have hself : trim t = t := trim_of_isHopChar h.chars
    rw [trim, hstart]
    exact hself
  have hne : t.isEmpty = false := by
    cases t with
    | nil =>
      have hnone : hopIp [] = none := rfl
      cases hnone.symm.trans (hopIp_of_hop h)
    | cons c t => rfl
  have hsplit : split ',' (r ++ t) = [r ++ t] := splitOn_eq_singleton hcomma
  rw [hopsOf, hsplit]
  simp [htrim, hne]

theorem hopsOf_append (l r : Text) : hopsOf (l ++ ',' :: r) = hopsOf l ++ hopsOf r := by
  have hsplit : split ',' (l ++ ',' :: r) = split ',' l ++ split ',' r :=
    splitOn_append_cons_self l r
  rw [hopsOf, hsplit, map_append, filter_append]
  rfl

/-! ## Bytes -/

/-- Only visible ASCII, and tabs. -/
def Plain (t : Text) : Prop := ∀ c ∈ t, (32 ≤ c.toNat ∧ c.toNat < 127) ∨ c.toNat = 9

instance (t : Text) : Decidable (Plain t) :=
  inferInstanceAs (Decidable (∀ c ∈ t, (32 ≤ c.toNat ∧ c.toNat < 127) ∨ c.toNat = 9))

variable {s : Text} {l : Text × Bytes} {p : Text → Bool} {lines : Lines}

theorem Plain.append (hs : Plain s) (ht : Plain t) : Plain (s ++ t) :=
  fun c hc => (mem_append.mp hc).elim (hs c) (ht c)

theorem utf8_plain (h : Plain t) :
    (utf8 t).all visible ∧ (utf8 t).map (fun b => Char.ofNat b.toNat) = t := by
  induction t with
  | nil => exact ⟨rfl, rfl⟩
  | cons c t ih =>
    obtain ⟨hvis, hmap⟩ := ih fun x hx => h x (mem_cons_of_mem c hx)
    have hc := h c mem_cons_self
    have hsmall : c.toNat % 256 = c.toNat := by omega
    have hbyte : String.utf8EncodeChar c = [UInt8.ofNat c.toNat] := by
      have hle : c.val.toNat ≤ 0x7f := by
        change c.toNat ≤ 0x7f
        omega
      simp only [String.utf8EncodeChar]
      exact if_pos hle
    have hutf8 : utf8 (c :: t) = UInt8.ofNat c.toNat :: utf8 t := by
      simp [utf8, hbyte]
    have hsee : visible (UInt8.ofNat c.toNat) := by
      simp only [visible, Bool.or_eq_true, Bool.and_eq_true, decide_eq_true_eq, beq_iff_eq,
        UInt8.le_iff_toNat_le, UInt8.lt_iff_toNat_lt, ← UInt8.toNat_inj]
      simpa [hsmall] using hc
    rw [hutf8]
    refine ⟨by simp [hsee, hvis], ?_⟩
    rw [map_cons, hmap]
    simp [hsmall]

theorem decode_utf8 (h : Plain t) : decode (utf8 t) = t := by
  obtain ⟨hvis, hmap⟩ := utf8_plain h
  rw [decode, if_pos hvis, hmap]

theorem plain_decode (v : Bytes) : Plain (decode v) := by
  intro c hc
  rw [decode] at hc
  split at hc
  · rename_i hv
    obtain ⟨b, hb, rfl⟩ := mem_map.mp hc
    have hsee := all_eq_true.mp hv b hb
    simp only [visible, Bool.or_eq_true, Bool.and_eq_true, decide_eq_true_eq, beq_iff_eq,
      UInt8.le_iff_toNat_le, UInt8.lt_iff_toNat_lt, ← UInt8.toNat_inj] at hsee
    have hnat : (Char.ofNat b.toNat).toNat = b.toNat := by
      have hlt := b.toNat_lt
      have hvalid : b.toNat.isValidChar := .inl (by omega)
      unfold Char.ofNat
      rw [dif_pos hvalid]
      rfl
    rw [hnat]
    simpa using hsee
  · cases hc

theorem decode_append (hv : v.all visible) (ht : Plain t) :
    (v ++ utf8 t).all visible ∧ decode (v ++ utf8 t) = decode v ++ t := by
  obtain ⟨hvis, hmap⟩ := utf8_plain ht
  have hall : (v ++ utf8 t).all visible := by simp [hv, hvis]
  refine ⟨hall, ?_⟩
  rw [decode, if_pos hall, decode, if_pos hv, map_append, hmap]

theorem decode_hidden (hv : v.all visible = false) (w : Bytes) :
    (v ++ w).all visible = false ∧ decode (v ++ w) = [] := by
  have hall : (v ++ w).all visible = false := by simp [hv]
  refine ⟨hall, ?_⟩
  rw [decode, if_neg (by simp [hall])]

theorem Hop.isPlain (h : Hop ip t) : Plain t := by
  intro c hc
  obtain ⟨hlo, hhi, -⟩ := isHopChar_range (h.chars c hc)
  exact .inl ⟨by omega, hhi⟩

/-! ## Lines -/

/-- The values of the `X-Forwarded-For` lines. -/
def forwardedLines (lines : Lines) : List Bytes :=
  (lines.filter fun l => isForwardedFor l.1).map Prod.snd

/-- The hops of lines. -/
def hopsIn (vs : List Bytes) : List Text := vs.flatMap fun v => hopsOf (decode v)

theorem hopsIn_append (vs ws : List Bytes) : hopsIn (vs ++ ws) = hopsIn vs ++ hopsIn ws :=
  flatMap_append

theorem chain_append (hs ks : Headers) : chain (hs ++ ks) = chain hs ++ chain ks := by
  simp [chain]

theorem chain_headersOf (lines : Lines) (authority : Option Text) :
    chain (headersOf lines authority) = hopsIn (forwardedLines lines) := by
  have hchain : chain (lines.map fun l => (l.1, decode l.2)) = hopsIn (forwardedLines lines) := by
    simp only [chain, hopsIn, forwardedLines, filter_map, flatMap_map]
    rfl
  rw [headersOf]
  split
  · exact hchain
  · rw [chain_append, hchain]
    cases authority with
    | none => simp [chain]
    | some host =>
      have hhost : chain (Option.map (fun host => ("host".toList, host)) (some host)).toList = [] :=
        rfl
      rw [hhost, append_nil]

/-! ## Proxies -/

/-- A request on its way: where it comes from, and its headers. -/
structure Message where
  peer : IpAddr
  lines : Lines

/-- The address of the peer behind the last `X-Forwarded-For`. -/
def appendLast (hop : Bytes) : Lines → Option Lines
  | [] => none
  | l :: lines =>
    match appendLast hop lines with
    | some lines => some (l :: lines)
    | none =>
      if isForwardedFor l.1 then some ((l.1, l.2 ++ utf8 ", " ++ hop) :: lines) else none

/-- A hop more: in a line of its own, or behind the last line. -/
def appendHop (ownLine : Bool) (hop : Bytes) (lines : Lines) : Lines :=
  if ownLine then lines ++ [("x-forwarded-for".toList, hop)]
  else (appendLast hop lines).getD (lines ++ [("x-forwarded-for".toList, hop)])

/-- A trusted proxy, and how it writes the address of its peer. -/
structure Via (nets : List TrustedNet) where
  addr : IpAddr
  trusted : trusts nets addr = true
  ownLine : Bool
  hop : IpAddr → Text
  written : ∀ ip, Hop ip (hop ip)

/-- What a proxy passes on. -/
def Via.pass {nets : List TrustedNet} (p : Via nets) (m : Message) : Message :=
  ⟨p.addr, appendHop p.ownLine (utf8 (p.hop m.peer)) m.lines⟩

/-- What arrives through the proxies. -/
def arrive {nets : List TrustedNet} (via : List (Via nets)) (m : Message) : Message :=
  via.foldl (fun m p => p.pass m) m

theorem forwardedLines_append (ls ks : Lines) :
    forwardedLines (ls ++ ks) = forwardedLines ls ++ forwardedLines ks := by
  simp [forwardedLines]

theorem forwardedLines_single (hop : Bytes) :
    forwardedLines [("x-forwarded-for", hop)] = [hop] := rfl

theorem forwardedLines_cons_pos (h : isForwardedFor l.1) (ls : Lines) :
    forwardedLines (l :: ls) = l.2 :: forwardedLines ls := by
  simp [forwardedLines, h]

theorem forwardedLines_cons_neg (h : ¬ isForwardedFor l.1) (ls : Lines) :
    forwardedLines (l :: ls) = forwardedLines ls := by
  simp [forwardedLines, h]

theorem appendLast_cases (hop : Bytes) (lines : Lines) :
    (appendLast hop lines = none ∧ forwardedLines lines = []) ∨
      ∃ lines' vs v, appendLast hop lines = some lines' ∧ forwardedLines lines = vs ++ [v] ∧
        forwardedLines lines' = vs ++ [v ++ utf8 ", " ++ hop] := by
  induction lines with
  | nil => exact .inl ⟨rfl, rfl⟩
  | cons l lines ih =>
    rcases ih with ⟨hnone, hempty⟩ | ⟨lines', vs, v, hsome, hbefore, hafter⟩
    · by_cases hl : isForwardedFor l.1 = true
      · refine .inr ⟨(l.1, l.2 ++ utf8 ", " ++ hop) :: lines, [], l.2, ?_, ?_, ?_⟩
        · rw [appendLast, hnone]
          simp only [hl, if_true]
        · rw [forwardedLines_cons_pos hl, hempty, nil_append]
        · rw [forwardedLines_cons_pos
            (l := (l.1, l.2 ++ utf8 ", " ++ hop)) hl, hempty, nil_append]
      · refine .inl ⟨?_, by rw [forwardedLines_cons_neg hl, hempty]⟩
        rw [appendLast, hnone]
        simp only [hl, Bool.false_eq_true, if_false]
    · have hcons (ks : Lines) : forwardedLines (l :: ks) =
          forwardedLines [l] ++ forwardedLines ks := forwardedLines_append [l] ks
      refine .inr ⟨l :: lines', forwardedLines [l] ++ vs, v, ?_, ?_, ?_⟩
      · rw [appendLast, hsome]
      · rw [hcons, hbefore, append_assoc]
      · rw [hcons, hafter, append_assoc (forwardedLines [l])]

/-- Is what is added to the last line read? -/
def Shown (vs : List Bytes) : Prop := ∀ v ∈ vs.getLast?, v.all visible = true

theorem shown_snoc {vs : List Bytes} : Shown (vs ++ [v]) ↔ v.all visible = true := by
  simp [Shown]

theorem hopsIn_single (v : Bytes) : hopsIn [v] = hopsOf (decode v) := by simp [hopsIn]

theorem hopsIn_utf8 (h : Hop ip t) : hopsIn [utf8 t] = [t] := by
  rw [hopsIn_single, decode_utf8 h.isPlain]
  exact hopsOf_hop h [] (by simp)

theorem pass_cases {nets : List TrustedNet} (p : Via nets) (m : Message) :
    ((p.ownLine = true ∨ Shown (forwardedLines m.lines)) ∧
        hopsIn (forwardedLines (p.pass m).lines) =
          hopsIn (forwardedLines m.lines) ++ [p.hop m.peer]) ∨
      (¬ (p.ownLine = true ∨ Shown (forwardedLines m.lines)) ∧
        hopsIn (forwardedLines (p.pass m).lines) = hopsIn (forwardedLines m.lines)) := by
  have hhop := p.written m.peer
  have hown : hopsIn (forwardedLines (m.lines ++ [("x-forwarded-for".toList,
      utf8 (p.hop m.peer))])) = hopsIn (forwardedLines m.lines) ++ [p.hop m.peer] := by
    rw [forwardedLines_append, forwardedLines_single, hopsIn_append, hopsIn_utf8 hhop]
  cases ho : p.ownLine with
  | true =>
    refine .inl ⟨.inl rfl, ?_⟩
    simpa [Via.pass, appendHop, ho] using hown
  | false =>
    rcases appendLast_cases (utf8 (p.hop m.peer)) m.lines with
      ⟨hnone, hempty⟩ | ⟨lines', vs, v, hsome, hbefore, hafter⟩
    · refine .inl ⟨.inr (by simp [hempty, Shown]), ?_⟩
      simpa [Via.pass, appendHop, ho, hnone] using hown
    · have hlines : (p.pass m).lines = lines' := by simp [Via.pass, appendHop, ho, hsome]
      rw [hlines, hbefore, hafter, shown_snoc, hopsIn_append, hopsIn_append, hopsIn_single,
        hopsIn_single, append_assoc]
      cases hv : v.all visible with
      | true =>
        refine .inl ⟨.inr rfl, ?_⟩
        have hplain : Plain (", " ++ p.hop m.peer) :=
          Plain.append (by decide) hhop.isPlain
        have hutf8 : utf8 ", " ++ utf8 (p.hop m.peer) =
            utf8 (", " ++ p.hop m.peer) := by simp [utf8]
        have hcomma : decode v ++ (", " ++ p.hop m.peer) =
            decode v ++ ',' :: ([' '] ++ p.hop m.peer) := rfl
        rw [hutf8, (decode_append hv hplain).2, hcomma, hopsOf_append,
          hopsOf_hop hhop [' '] (by simp), append_assoc]
      | false =>
        refine .inr ⟨by simp, ?_⟩
        have hnil : decode v = [] := by
          have hhidden := (decode_hidden hv []).2
          rwa [append_nil] at hhidden
        rw [(decode_hidden hv _).2, hnil]

/-- Is the hop a trusted proxy? -/
def TrustedHop (nets : List TrustedNet) (hop : Text) : Prop :=
  ∃ ip, hopIp hop = some ip ∧ trusts nets ip = true

theorem arrive_trusted {nets : List TrustedNet} (via : List (Via nets)) {m : Message}
    (hpeer : trusts nets m.peer) :
    trusts nets (arrive via m).peer ∧
      ∃ back, hopsIn (forwardedLines (arrive via m).lines) =
          hopsIn (forwardedLines m.lines) ++ back ∧ ∀ hop ∈ back, TrustedHop nets hop := by
  induction via generalizing m with
  | nil => exact ⟨hpeer, [], (append_nil _).symm, by simp⟩
  | cons p via ih =>
    obtain ⟨hlast, back, hback, htrusted⟩ := ih (m := p.pass m) p.trusted
    refine ⟨hlast, ?_⟩
    rcases pass_cases p m with ⟨-, hops⟩ | ⟨-, hops⟩
    · refine ⟨p.hop m.peer :: back, ?_, ?_⟩
      · rw [hops, append_assoc] at hback
        exact hback
      · intro hop hmem
        rcases List.mem_cons.mp hmem with rfl | hmem
        · exact ⟨m.peer, hopIp_of_hop (p.written m.peer), hpeer⟩
        · exact htrusted hop hmem
    · rw [hops] at hback
      exact ⟨back, hback, htrusted⟩

/-! ## The walk -/

/-- The hops, read from the right, say nothing. -/
def Unread (hops : List Text) : Prop := ∀ hop ∈ hops.head?, hopIp hop = none

/-- The hops, read from the right, name the address: behind it stand trusted proxies only, and
where it is trusted itself, nothing before it is read. -/
def Names (nets : List TrustedNet) (hops : List Text) (ip : IpAddr) : Prop :=
  ∃ back hop front, hops = back ++ hop :: front ∧ (∀ h ∈ back, TrustedHop nets h) ∧
    hopIp hop = some ip ∧ (trusts nets ip = true → Unread front)

theorem not_names_of_head {nets : List TrustedNet} (h : hopIp hop = none) (ip : IpAddr) :
    ¬ Names nets (hop :: hops) ip := by
  rintro ⟨back, hop', front, hsplit, hback, hhop, -⟩
  cases back with
  | nil =>
    cases hsplit
    rw [h] at hhop
    cases hhop
  | cons b back =>
    cases hsplit
    obtain ⟨ip', hip', -⟩ := hback hop mem_cons_self
    rw [h] at hip'
    cases hip'

theorem names_cons_untrusted {nets : List TrustedNet} (h : hopIp hop = some ip)
    (hip : trusts nets ip = false) (ip' : IpAddr) : Names nets (hop :: hops) ip' ↔ ip = ip' := by
  constructor
  · rintro ⟨back, hop', front, hsplit, hback, hhop, -⟩
    cases back with
    | nil =>
      cases hsplit
      rw [h] at hhop
      exact Option.some.inj hhop
    | cons b back =>
      cases hsplit
      obtain ⟨i, hi, htrust⟩ := hback hop mem_cons_self
      rw [h] at hi
      cases hi
      rw [hip] at htrust
      cases htrust
  · rintro rfl
    refine ⟨[], hop, hops, rfl, by simp, h, fun htrust => ?_⟩
    rw [hip] at htrust
    cases htrust

theorem names_cons_trusted {nets : List TrustedNet} (h : hopIp hop = some ip)
    (hip : trusts nets ip) (ip' : IpAddr) :
    Names nets (hop :: hops) ip' ↔ (ip = ip' ∧ Unread hops) ∨ Names nets hops ip' := by
  constructor
  · rintro ⟨back, hop', front, hsplit, hback, hhop, hunread⟩
    cases back with
    | nil =>
      cases hsplit
      rw [h] at hhop
      cases hhop
      exact .inl ⟨rfl, hunread hip⟩
    | cons b back =>
      cases hsplit
      exact .inr ⟨back, hop', front, rfl, fun x hx => hback x (mem_cons_of_mem _ hx), hhop,
        hunread⟩
  · rintro (⟨rfl, hunread⟩ | ⟨back, hop', front, rfl, hback, hhop, hunread⟩)
    · exact ⟨[], hop, hops, rfl, by simp, h, fun _ => hunread⟩
    · refine ⟨hop :: back, hop', front, rfl, ?_, hhop, hunread⟩
      intro x hx
      rcases List.mem_cons.mp hx with rfl | hx
      · exact ⟨ip, h, hip⟩
      · exact hback x hx

theorem walk_eq_iff {nets : List TrustedNet} (start : IpAddr) (hops : List Text) (ip : IpAddr) :
    walk nets start.toText hops = ip.toText ↔
      (start = ip ∧ Unread hops) ∨ Names nets hops ip := by
  induction hops generalizing start with
  | nil =>
    have hnames : ¬ Names nets [] ip := by
      rintro ⟨back, hop, front, hsplit, -⟩
      exact absurd hsplit (by simp)
    simp only [walk, hnames, or_false, Unread, head?_nil, Option.mem_def, reduceCtorEq,
      false_implies, implies_true, and_true]
    exact ⟨toText_inj, congrArg _⟩
  | cons hop hops ih =>
    cases hhop : hopIp hop with
    | none =>
      have hunread : Unread (hop :: hops) := by
        intro x hx
        cases hx
        exact hhop
      simp only [walk, hhop, not_names_of_head hhop ip, hunread, and_true, or_false]
      exact ⟨toText_inj, congrArg _⟩
    | some ip' =>
      have hread : ¬ Unread (hop :: hops) := by
        intro hunread
        have hnone := hunread hop rfl
        rw [hhop] at hnone
        cases hnone
      cases htrust : trusts nets ip' with
      | true =>
        simp only [walk, hhop, htrust, if_true, hread, and_false, false_or,
          names_cons_trusted hhop htrust ip]
        exact ih ip'
      | false =>
        simp only [walk, hhop, htrust, Bool.false_eq_true, if_false, hread, and_false, false_or,
          names_cons_untrusted hhop htrust ip]
        exact ⟨toText_inj, congrArg _⟩

theorem walk_trusted {nets : List TrustedNet} {P : IpAddr → Prop} {back : List Text}
    (hback : ∀ hop ∈ back, ∃ ip, hopIp hop = some ip ∧ trusts nets ip ∧ P ip)
    {start : IpAddr} (hstart : P start) (front : List Text) :
    ∃ ip, P ip ∧ walk nets start.toText (back ++ front) = walk nets ip.toText front := by
  induction back generalizing start with
  | nil => exact ⟨start, hstart, rfl⟩
  | cons hop back ih =>
    obtain ⟨ip, hhop, htrust, hip⟩ := hback hop mem_cons_self
    obtain ⟨ip', hip', hwalk⟩ := ih (fun x hx => hback x (mem_cons_of_mem hop hx)) hip
    refine ⟨ip', hip', ?_⟩
    rw [← hwalk, cons_append, walk, hhop]
    simp only [htrust, if_true]

/-! ## The next server -/

theorem trim_cons_blank (hc : isWhitespace c) (s : Text) : trim (c :: s) = trim s := by
  rw [trim, trimStart, dropWhile_cons_of_pos hc, trim, trimStart]

theorem trim_snoc_blank (hc : isWhitespace c) (s : Text) : trim (s ++ [c]) = trim s := by
  induction s with
  | nil => simp [trim, trimStart, trimEndMatches, hc]
  | cons x s ih =>
    by_cases hx : isWhitespace x = true
    · rw [cons_append, trim_cons_blank hx, trim_cons_blank hx, ih]
    · have hstart (t : Text) : trimStart (x :: t) = x :: t :=
        dropWhile_cons_of_neg (by simpa using hx)
      rw [trim, trim, cons_append, hstart, hstart, ← cons_append, trimEndMatches,
        rdropWhile_concat_pos _ _ _ hc, trimEndMatches]

theorem isWhitespace_comma : isWhitespace ',' = false := by decide

theorem hopsOf_cons_blank (hc : isWhitespace c) (s : Text) : hopsOf (c :: s) = hopsOf s := by
  have hne : (c == ',') = false := by
    rw [beq_eq_false_iff_ne]
    rintro rfl
    rw [isWhitespace_comma] at hc
    cases hc
  have hsplit : split ',' (c :: s) = (split ',' s).modifyHead (c :: ·) := by
    rw [split, splitOn_cons_eq_if_modifyHead, hne]
    rfl
  have hmap : ((split ',' s).modifyHead (c :: ·)).map trim = (split ',' s).map trim := by
    cases split ',' s with
    | nil => rfl
    | cons t ts => simp [trim_cons_blank hc t]
  rw [hopsOf, hsplit, hmap, hopsOf]

theorem hopsOf_snoc_blank (hc : isWhitespace c) (s : Text) : hopsOf (s ++ [c]) = hopsOf s := by
  have hsingle {t : Text} (ht : ',' ∉ t) : hopsOf (t ++ [c]) = hopsOf t := by
    have hne : ',' ∉ t ++ [c] := by
      intro hm
      rcases mem_append.mp hm with hm | hm
      · exact ht hm
      · rw [← mem_singleton.mp hm, isWhitespace_comma] at hc
        cases hc
    rw [hopsOf, hopsOf, split, split, splitOn_eq_singleton hne, splitOn_eq_singleton ht,
      map_singleton, trim_snoc_blank hc, map_singleton]
  cases hlast : rsplitOnce ',' s with
  | none => exact hsingle (rsplitOnce_eq_none_iff.mp hlast)
  | some p =>
    obtain ⟨l, r⟩ := p
    obtain ⟨rfl, hr⟩ := rsplitOnce_eq_some hlast
    rw [append_assoc, cons_append, hopsOf_append, hopsOf_append, hsingle hr]

theorem hopsOf_trim (v : Text) : hopsOf (trim v) = hopsOf v := by
  have hstart (t : Text) : hopsOf (trimStart t) = hopsOf t := by
    induction t with
    | nil => rfl
    | cons c t ih =>
      by_cases hc : isWhitespace c = true
      · rw [trimStart, dropWhile_cons_of_pos hc, hopsOf_cons_blank hc, ← ih, trimStart]
      · rw [trimStart, dropWhile_cons_of_neg hc]
  have hend (t : Text) : hopsOf (trimEndMatches isWhitespace t) = hopsOf t := by
    induction t using List.reverseRecOn with
    | nil => rfl
    | append_singleton t c ih =>
      by_cases hc : isWhitespace c = true
      · rw [trimEndMatches, rdropWhile_concat_pos _ _ _ hc, hopsOf_snoc_blank hc, ← ih,
          trimEndMatches]
      · rw [trimEndMatches, rdropWhile_concat_neg _ _ _ hc]
  rw [trim, hend, hstart]

theorem Plain.trim (h : Plain t) : Plain (trim t) := by
  intro c hc
  have hsub : Text.trim t ⊆ t := by
    intro x hx
    exact (dropWhile_sublist _).subset ((List.rdropWhile_prefix _ _).subset hx)
  exact h c (hsub hc)

theorem isForwardedFor_iff :
    isForwardedFor k ↔ toAsciiLowercase k = "x-forwarded-for" := by
  have hself : toAsciiLowercase "x-forwarded-for" = "x-forwarded-for" := by decide
  rw [isForwardedFor, eqIgnoreAsciiCase, hself, beq_iff_eq]

theorem isHost_iff : isHost k ↔ toAsciiLowercase k = "host" := by
  have hself : toAsciiLowercase "host" = "host" := by decide
  rw [isHost, eqIgnoreAsciiCase, hself, beq_iff_eq]

/-- The `X-Forwarded-For` a proxy has collected: the hops of the headers so far. -/
structure Collected (up : Upstream) (headers : Headers) : Prop where
  hops : up.fwdFor.elim [] hopsOf = chain headers
  trimmed : ∀ t ∈ up.fwdFor, trim t = t ∧ t ≠ [] ∧ Plain t
  sent : ∀ l ∈ up.sent, isForwardedFor l.1 = false ∧ isHost l.1 = false

theorem Collected.header (h : Collected up headers) {v : Text} (hk : isForwardedFor k = false)
    (hhost : isHost k = false) : Collected (up.header k v) (headers ++ [(k, v)]) := by
  have hchain : chain (headers ++ [(k, v)]) = chain headers := by simp [chain, hk]
  unfold Upstream.header
  split
  · refine ⟨h.hops.trans hchain.symm, h.trimmed, ?_⟩
    intro l hl
    rcases mem_append.mp hl with hl | hl
    · exact h.sent l hl
    · rw [mem_singleton.mp hl]
      simp only [isForwardedFor, isHost, eqIgnoreAsciiCase, toAsciiLowercase_idem] at hk hhost ⊢
      exact ⟨hk, hhost⟩
  · exact ⟨h.hops.trans hchain.symm, h.trimmed, h.sent⟩

theorem Collected.other (h : Collected up headers) (up' : Upstream) (hfor : up'.fwdFor = up.fwdFor)
    (hsent : up'.sent = up.sent) (hk : isForwardedFor k = false) (v : Text) :
    Collected up' (headers ++ [(k, v)]) := by
  have hchain : chain (headers ++ [(k, v)]) = chain headers := by simp [chain, hk]
  refine ⟨?_, ?_, ?_⟩
  · rw [hfor, hchain]
    exact h.hops
  · rw [hfor]
    exact h.trimmed
  · rw [hsent]
    exact h.sent

theorem trim_join (hs : trim s = s) (hs' : s ≠ []) (ht : trim t = t) (ht' : t ≠ []) :
    trim (s ++ ", " ++ t) = s ++ ", " ++ t := by
  apply trim_eq_self
  · intro c hc
    rw [append_assoc, head?_append_of_ne_nil _ hs', ← hs] at hc
    exact trim_head c hc
  · intro c hc
    rw [getLast?_append_of_ne_nil _ ht', ← ht] at hc
    exact trim_last c hc

theorem Collected.forwardedFor (h : Collected up headers) {v : Text} (hk : isForwardedFor k)
    (hv : Plain v) (hne : trim v ≠ []) :
    Collected { up with
      fwdFor := some (match up.fwdFor with
        | some prev => prev ++ ", " ++ trim v
        | none => trim v) } (headers ++ [(k, v)]) := by
  have hchain : chain (headers ++ [(k, v)]) = chain headers ++ hopsOf v := by
    simp [chain, hk]
  have hhops := h.hops
  have htrimmed := h.trimmed
  refine ⟨?_, ?_, h.sent⟩
  · rw [hchain, ← hhops]
    cases up.fwdFor with
    | none => exact hopsOf_trim v
    | some prev =>
      have hcomma : prev ++ ", " ++ trim v = prev ++ ',' :: (' ' :: trim v) := by simp
      have hblank : isWhitespace ' ' := by decide
      change hopsOf (prev ++ ", " ++ trim v) = hopsOf prev ++ hopsOf v
      rw [hcomma, hopsOf_append, hopsOf_cons_blank hblank, hopsOf_trim]
  · intro t ht
    cases hfor : up.fwdFor with
    | none =>
      rw [hfor] at ht
      cases ht
      exact ⟨trim_trim v, hne, hv.trim⟩
    | some prev =>
      rw [hfor] at ht htrimmed
      cases ht
      obtain ⟨hprev, hprev', hplain⟩ := htrimmed prev rfl
      have hsep : Plain ", " := by decide
      exact ⟨trim_join hprev hprev' (trim_trim v) hne, by simp, (hplain.append hsep).append hv.trim⟩

theorem Collected.step (h : Collected up headers) (isWs : Bool) (named : List Text) {v : Text}
    (hv : isForwardedFor k → Plain v) :
    Collected (Upstream.step isWs named up (k, v)) (headers ++ [(k, v)]) := by
  have hnot {t : Text} (hk : toAsciiLowercase k = t) (ht : t ≠ "x-forwarded-for") :
      isForwardedFor k = false := by
    rw [← Bool.not_eq_true, isForwardedFor_iff, hk]
    exact ht
  unfold Upstream.step
  dsimp only
  split_ifs with hhost hskip hproto hfhost hfor hempty hws hhop
  · exact h.other { up with origHost := some v } rfl rfl (hnot hhost (by decide)) v
  · rcases hskip with hk | hk
    · exact h.other up rfl rfl (hnot hk (by decide)) v
    · exact h.other up rfl rfl (hnot hk (by decide)) v
  · exact h.other { up with fwdProto := up.fwdProto.or (some v) } rfl rfl
      (hnot hproto (by decide)) v
  · exact h.other { up with fwdHost := up.fwdHost.or (some v) } rfl rfl
      (hnot hfhost (by decide)) v
  · have hk := isForwardedFor_iff.mpr hfor
    have hnil : hopsOf v = [] := by
      rw [← hopsOf_trim, List.isEmpty_iff.mp hempty]
      rfl
    have hchain : chain (headers ++ [(k, v)]) = chain headers := by simp [chain, hk, hnil]
    exact ⟨h.hops.trans hchain.symm, h.trimmed, h.sent⟩
  · have hk := isForwardedFor_iff.mpr hfor
    exact h.forwardedFor hk (hv hk) (by simpa using hempty)
  · exact h.header (hnot hws.1 (by decide)) (by rw [← Bool.not_eq_true, isHost_iff]; exact hhost)
  · exact h.other up rfl rfl (by rw [← Bool.not_eq_true, isForwardedFor_iff]; exact hfor) v
  · exact h.header (by rw [← Bool.not_eq_true, isForwardedFor_iff]; exact hfor)
      (by rw [← Bool.not_eq_true, isHost_iff]; exact hhost)

theorem collected_foldl (isWs : Bool) (named : List Text) {done : Headers} (hup : Collected up done)
    (hplain : ∀ h ∈ headers, isForwardedFor h.1 → Plain h.2) :
    Collected (headers.foldl (Upstream.step isWs named) up) (done ++ headers) := by
  induction headers generalizing up done with
  | nil => simpa using hup
  | cons h headers ih =>
    have hstep := hup.step isWs named (k := h.1) (v := h.2) (hplain h mem_cons_self)
    have hrest := ih hstep fun x hx => hplain x (mem_cons_of_mem h hx)
    simpa using hrest

theorem collected_all (isWs : Bool) (named : List Text)
    (hplain : ∀ h ∈ headers, isForwardedFor h.1 → Plain h.2) :
    Collected (headers.foldl (Upstream.step isWs named) ⟨none, none, none, none, []⟩) headers := by
  have hempty : Collected ⟨none, none, none, none, []⟩ [] := ⟨rfl, by simp, by simp⟩
  exact collected_foldl isWs named hempty hplain

theorem plain_toText (ip : IpAddr) : Plain ip.toText := (Hop.plain (parseIp_toText ip)).isPlain

theorem hopsOf_toText (ip : IpAddr) : hopsOf ip.toText = [ip.toText] :=
  hopsOf_hop (.plain (parseIp_toText ip)) [] (by simp)

theorem hopsOf_forwardedFor (h : Collected up headers) (peer : IpAddr) :
    Plain (forwardedFor up.fwdFor peer.toText) ∧
      hopsOf (forwardedFor up.fwdFor peer.toText) = chain headers ++ [peer.toText] := by
  rw [← h.hops]
  have htrimmed := h.trimmed
  cases hfor : up.fwdFor with
  | none => exact ⟨plain_toText peer, hopsOf_toText peer⟩
  | some prev =>
    obtain ⟨htrim, hne, hprev⟩ := htrimmed prev hfor
    have hempty : prev.isEmpty = false := by simpa using hne
    have hcomma : prev ++ ", " ++ peer.toText =
        prev ++ ',' :: (' ' :: peer.toText) := by simp
    have hblank : isWhitespace ' ' := by decide
    have hsep : Plain ", " := by decide
    have heq : forwardedFor (some prev) peer.toText = prev ++ ", " ++ peer.toText := by
      unfold forwardedFor
      simp only [htrim, hempty, Bool.false_eq_true, if_false]
    rw [heq]
    refine ⟨(hprev.append hsep).append (plain_toText peer), ?_⟩
    rw [hcomma, hopsOf_append, hopsOf_cons_blank hblank, hopsOf_toText]
    rfl

theorem filter_optional (h : p k = false) (c : Bool) (v : Bytes) :
    (if c then [(k, v)] else []).filter (fun l => p l.1) = [] := by
  cases c with
  | true => simp [h]
  | false => rfl

theorem filter_proxyHeaders {authority : Text} {peer : Text}
    {sent : Lines} (h : proxyHeaders authority isWs tls headers peer = some sent)
    
    (hup : headers.foldl (Upstream.step isWs (connNamed headers)) ⟨none, none, none, none, []⟩ = up)
    (hsent : up.sent.filter (fun l => p l.1) = []) (hconn : p "connection".toList = false)
    (hproto : p "x-forwarded-proto".toList = false)
    (hhost : p "x-forwarded-host".toList = false) :
    sent.filter (fun l => p l.1) =
      [("host".toList, utf8 authority)].filter (fun l => p l.1) ++
        [("x-forwarded-for".toList, utf8 (forwardedFor up.fwdFor peer))].filter fun l => p l.1 := by
  unfold proxyHeaders at h
  rw [hup] at h
  dsimp only at h
  split at h
  · cases h
    have hlast (host : Option Text) : List.filter (fun l => p l.1)
        (host.map fun h => ("x-forwarded-host".toList, utf8 h)).toList = [] := by
      cases host with
      | none => rfl
      | some h => simpa using hhost
    rw [filter_append, filter_append, filter_append, filter_append, filter_append, hsent,
      filter_optional hconn, filter_optional hproto, hlast, append_nil, append_nil, append_nil,
      append_nil]
  · cases h

theorem hops_proxyHeaders {authority : Text} {sent : Lines}
    (hplain : ∀ h ∈ headers, isForwardedFor h.1 → Plain h.2)
    (h : proxyHeaders authority isWs tls headers peer.toText = some sent) :
    hopsIn (forwardedLines sent) = chain headers ++ [peer.toText] ∧
      sent.filter (fun l => isHost l.1) = [("host".toList, utf8 authority)] := by
  have hcollected := collected_all isWs (connNamed headers) hplain
  generalize hup : headers.foldl (Upstream.step isWs (connNamed headers))
    ⟨none, none, none, none, []⟩ = up at hcollected
  obtain ⟨hxff, hhops⟩ := hopsOf_forwardedFor hcollected peer
  constructor
  · have hsent : up.sent.filter (fun l => isForwardedFor l.1) = [] :=
      List.filter_eq_nil_iff.mpr fun l hl => by simp [(hcollected.sent l hl).1]
    have hlines : forwardedLines sent = [utf8 (forwardedFor up.fwdFor peer.toText)] := by
      rw [forwardedLines, filter_proxyHeaders h hup hsent (by decide) (by decide) (by decide)]
      rfl
    rw [hlines, hopsIn_single, decode_utf8 hxff, hhops]
  · have hsent : up.sent.filter (fun l => isHost l.1) = [] :=
      List.filter_eq_nil_iff.mpr fun l hl => by simp [(hcollected.sent l hl).2]
    rw [filter_proxyHeaders h hup hsent (by decide) (by decide) (by decide)]
    rfl

theorem proxyHeaders_isSome {authority : Text} (isWs tls : Bool) (peer : IpAddr)
    (hplain : ∀ h ∈ headers, isForwardedFor h.1 → Plain h.2) (ha : validValue authority) :
    ∃ sent, proxyHeaders authority isWs tls headers peer.toText = some sent := by
  have hcollected := collected_all isWs (connNamed headers) hplain
  obtain ⟨hxff, -⟩ := hopsOf_forwardedFor hcollected peer
  have hvalid : validValue (forwardedFor (headers.foldl (Upstream.step isWs (connNamed headers))
      ⟨none, none, none, none, []⟩).fwdFor peer.toText) = true := by
    rw [validValue, all_eq_true]
    intro b hb
    have hsee := all_eq_true.mp (utf8_plain hxff).1 b hb
    simp only [visible, Bool.or_eq_true, Bool.and_eq_true, decide_eq_true_eq, beq_iff_eq, bne_iff_ne]
      at hsee ⊢
    rcases hsee with ⟨hlo, hhi⟩ | hb
    · exact .inl ⟨hlo, fun h => absurd hhi (by rw [h]; decide)⟩
    · exact .inr hb
  unfold proxyHeaders
  simp only [ha, hvalid, Bool.and_self, if_true]
  exact ⟨_, rfl⟩

/-! ## The law -/

theorem isTrusted_toText (nets : List TrustedNet) (ip : IpAddr) :
    isTrusted nets ip.toText = trusts nets ip := by
  have haddr := isAddrChar_of_parseIp (parseIp_toText ip)
  have htrim : trim ip.toText = ip.toText :=
    trim_of_isHopChar fun c hc => isHopChar_of_isAddrChar (haddr c hc)
  have hopen : ip.toText.dropWhile (· == '[') = ip.toText := by
    cases h : ip.toText with
    | nil => rfl
    | cons c t =>
      apply dropWhile_cons_of_neg
      intro hc
      rw [h] at haddr
      have hchar := haddr c mem_cons_self
      rw [beq_iff_eq.mp hc] at hchar
      exact absurd hchar (by decide)
  have hclose : trimEndMatches (· == ']') ip.toText = ip.toText := by
    rw [trimEndMatches, rdropWhile_eq_self_iff]
    intro hne hc
    have hchar := haddr _ (getLast_mem hne)
    rw [beq_iff_eq.mp hc] at hchar
    exact absurd hchar (by decide)
  rw [isTrusted, htrim, hopen, hclose, parseIp_toText]

/-- How many `Host` there are. -/
def hosts (lines : Lines) : Nat := (lines.filter fun l => isHost l.1).length

theorem hosts_headersOf (lines : Lines) (authority : Option Text) :
    1 < ((headersOf lines authority).filter fun h => isHost h.1).length ↔ 1 < hosts lines := by
  have hmap : ((lines.map fun l => (l.1, decode l.2)).filter fun h => isHost h.1).length =
      hosts lines := by
    rw [filter_map, length_map]
    rfl
  rw [headersOf]
  split
  · rw [hmap]
  · rename_i hnone
    have hzero : hosts lines = 0 := by
      rw [← hmap, length_eq_zero_iff, List.filter_eq_nil_iff]
      intro h hh
      rw [Bool.not_eq_true, any_eq_false] at hnone
      exact hnone h hh
    rw [filter_append, length_append, hmap, hzero]
    cases authority with
    | none => simp
    | some host =>
      have hle := length_filter_le (fun h : Text × Text => isHost h.1) [("host", host)]
      simp only [length_singleton] at hle
      simp only [Option.map_some, Option.toList_some]
      omega

theorem hosts_appendLast (hop : Bytes) {lines' : Lines} (h : appendLast hop lines = some lines') :
    hosts lines' = hosts lines := by
  induction lines generalizing lines' with
  | nil => cases h
  | cons l lines ih =>
    rw [appendLast] at h
    split at h
    · rename_i ls hls
      cases h
      have hrest := ih hls
      simp only [hosts, filter_cons] at hrest ⊢
      split
      · simp [hrest]
      · exact hrest
    · split at h
      · cases h
        simp only [hosts, filter_cons]
        split
        · simp
        · rfl
      · cases h

theorem hosts_pass {nets : List TrustedNet} (p : Via nets) (m : Message) :
    hosts (p.pass m).lines = hosts m.lines := by
  have hown : hosts (m.lines ++ [("x-forwarded-for".toList, utf8 (p.hop m.peer))]) =
      hosts m.lines := by
    have hfor : isHost "x-forwarded-for" = false := by decide
    simp only [hosts, filter_append, length_append]
    rw [filter_cons_of_neg (by rw [hfor]; decide)]
    simp
  rw [Via.pass, appendHop]
  split
  · exact hown
  · cases h : appendLast (utf8 (p.hop m.peer)) m.lines with
    | none => simpa using hown
    | some lines => simpa using hosts_appendLast _ h

theorem hosts_arrive {nets : List TrustedNet} (via : List (Via nets)) (m : Message) :
    hosts (arrive via m).lines = hosts m.lines := by
  induction via generalizing m with
  | nil => rfl
  | cons p via ih => exact (ih (p.pass m)).trans (hosts_pass p m)

/-- What is said of a request of the client `C` that comes through the proxies `via`: its address is
the client's, no header about forwarding survives where it comes from no trusted address, and the
next server, which trusts this one as `own` and the same networks, computes the same client. -/
def ForwardedLaw (nets : List TrustedNet) (own : TrustedNet) (self client : IpAddr) (sent : Lines)
    (authority : Option Text) (via : List (Via nets)) : Prop :=
  let m := arrive via ⟨client, sent⟩
  ∀ ip kept, handleRequest nets m.peer.toText m.lines authority = .ok (ip, kept) →
    ip = client.toText ∧
      (trusts nets m.peer = false →
        ∀ h ∈ kept, ∀ f ∈ forwardedHeaders, eqIgnoreAsciiCase h.1 f = false) ∧
      ∀ host isWs tls next, proxyHeaders host isWs tls kept m.peer.toText = some next →
        ∀ authority', ∃ kept',
          handleRequest (own :: nets) self.toText next authority' = .ok (ip, kept')

/-- When the law holds: the request has more than one `Host` and is refused, or no proxy is there,
or the first proxy's hop is read and stands for the client at the next server too, or what the
client said names the client itself. -/
def HopIsRead (nets : List TrustedNet) (own : TrustedNet) (client : IpAddr) (sent : Lines)
    (via : List (Via nets)) : Prop :=
  1 < hosts sent ∨
    match via with
    | [] => True
    | p :: _ =>
      let said := (hopsIn (forwardedLines sent)).reverse
      ((p.ownLine = true ∨ Shown (forwardedLines sent)) ∧
          (own.contains client = false ∨ Unread said ∨ Names (own :: nets) said client)) ∨
        (¬ (p.ownLine = true ∨ Shown (forwardedLines sent)) ∧
          Names nets said client ∧ Names (own :: nets) said client)

theorem trusts_cons (net : TrustedNet) (nets : List TrustedNet) (ip : IpAddr) :
    trusts (net :: nets) ip = (net.contains ip || trusts nets ip) := rfl

theorem handleRequest_eq {nets : List TrustedNet} {peer : Text} (h : ¬ 1 < hosts lines)
    (authority : Option Text) :
    handleRequest nets peer lines authority =
      .ok (resolveForwarded nets peer (headersOf lines authority)) := by
  rw [handleRequest]
  exact if_neg (mt (hosts_headersOf lines authority).mp h)

theorem plain_headersOf (lines : Lines) (authority : Option Text) :
    ∀ h ∈ headersOf lines authority, isForwardedFor h.1 → Plain h.2 := by
  intro h hh hfor
  have hread : h ∈ lines.map (fun l => (l.1, decode l.2)) → Plain h.2 := by
    intro hmem
    obtain ⟨l, -, rfl⟩ := mem_map.mp hmem
    exact plain_decode l.2
  rw [headersOf] at hh
  split at hh
  · exact hread hh
  · rcases mem_append.mp hh with hh | hh
    · exact hread hh
    · cases authority with
      | none => cases hh
      | some host =>
        rw [Option.map_some, Option.toList_some, mem_singleton] at hh
        subst hh
        have hname : isForwardedFor "host" = false := by decide
        rw [hname] at hfor
        cases hfor

theorem handleRequest_next {nets : List TrustedNet} {self : IpAddr}
    (hself : trusts nets self) {kept : Headers}
    (hplain : ∀ h ∈ kept, isForwardedFor h.1 → Plain h.2) {host : Text} {next : Lines}
    (hnext : proxyHeaders host isWs tls kept peer.toText = some next) (authority : Option Text) :
    handleRequest nets self.toText next authority =
      .ok (walk nets self.toText (peer.toText :: (chain kept).reverse),
        headersOf next authority) := by
  obtain ⟨hhops, hhost⟩ := hops_proxyHeaders hplain hnext
  have hone : ¬ 1 < hosts next := by
    rw [hosts, hhost]
    exact Nat.lt_irrefl 1
  rw [handleRequest_eq hone, resolveForwarded, isTrusted_toText, hself, chain_headersOf, hhops,
    reverse_append]
  rfl

theorem walk_peer {nets : List TrustedNet} (h : trusts nets peer) (start : Text)
    (hops : List Text) : walk nets start (peer.toText :: hops) = walk nets peer.toText hops := by
  have hhop : hopIp peer.toText = some peer := hopIp_of_hop (.plain (parseIp_toText peer))
  rw [walk, hhop]
  simp only [h, if_true]

theorem walk_single (nets : List TrustedNet) (start : Text) (peer : IpAddr) :
    walk nets start [peer.toText] = peer.toText := by
  have hhop : hopIp peer.toText = some peer := hopIp_of_hop (.plain (parseIp_toText peer))
  simp [walk, hhop]

section Law

variable {nets : List TrustedNet} {own : TrustedNet} {self client : IpAddr} {sent : Lines}
  {authority : Option Text}

theorem forwardedLaw_direct (hown : own.contains self) (hclient : trusts nets client = false)
    (hhosts : ¬ 1 < hosts sent) : ForwardedLaw nets own self client sent authority [] := by
  intro ip kept h
  change handleRequest nets client.toText sent authority = .ok (ip, kept) at h
  rw [handleRequest_eq hhosts, resolveForwarded, isTrusted_toText, hclient] at h
  cases h
  have hgone : ∀ h ∈ (headersOf sent authority).filter
      (fun h => !forwardedHeaders.any fun f => eqIgnoreAsciiCase h.1 f),
      ∀ f ∈ forwardedHeaders, eqIgnoreAsciiCase h.1 f = false := by
    intro h hh f hf
    have hnone := (mem_filter.mp hh).2
    rw [Bool.not_eq_true', any_eq_false] at hnone
    exact Bool.of_not_eq_true (hnone f hf)
  refine ⟨rfl, fun _ => hgone, ?_⟩
  intro host isWs tls next hnext authority'
  have hfor : ∀ h ∈ (headersOf sent authority).filter
      (fun h => !forwardedHeaders.any fun f => eqIgnoreAsciiCase h.1 f),
      isForwardedFor h.1 = false :=
    fun h hh => hgone h hh "x-forwarded-for" (by decide)
  have hself : trusts (own :: nets) self := by rw [trusts_cons, hown, Bool.true_or]
  have hsecond := handleRequest_next hself
    (fun h hh hh' => absurd hh' (by rw [hfor h hh]; decide)) hnext authority'
  have hchain : chain ((headersOf sent authority).filter
      fun h => !forwardedHeaders.any fun f => eqIgnoreAsciiCase h.1 f) = [] := by
    rw [chain, List.filter_eq_nil_iff.mpr fun h hh => by rw [hfor h hh]; decide]
    rfl
  rw [hchain, reverse_nil, walk_single] at hsecond
  exact ⟨_, hsecond⟩

theorem forwardedLaw_proxied (hown : own.contains self) (hhosts : ¬ 1 < hosts sent)
    {via : List (Via nets)} (hpeer : trusts nets (arrive via ⟨client, sent⟩).peer) :
    ForwardedLaw nets own self client sent authority via ↔
      walk nets (arrive via ⟨client, sent⟩).peer.toText
          (hopsIn (forwardedLines (arrive via ⟨client, sent⟩).lines)).reverse = client.toText ∧
        walk (own :: nets) (arrive via ⟨client, sent⟩).peer.toText
          (hopsIn (forwardedLines (arrive via ⟨client, sent⟩).lines)).reverse = client.toText := by
  have hmany := hosts_arrive via ⟨client, sent⟩
  unfold ForwardedLaw
  dsimp only
  generalize arrive via ⟨client, sent⟩ = m at hpeer hmany
  have hone : ¬ 1 < hosts m.lines := by rwa [hmany]
  have hself : trusts (own :: nets) self := by rw [trusts_cons, hown, Bool.true_or]
  have hpeer' : trusts (own :: nets) m.peer := by rw [trusts_cons, hpeer, Bool.or_true]
  have hplain := plain_headersOf m.lines authority
  have hfirst : handleRequest nets m.peer.toText m.lines authority =
      .ok (walk nets m.peer.toText (hopsIn (forwardedLines m.lines)).reverse,
        headersOf m.lines authority) := by
    rw [handleRequest_eq hone, resolveForwarded, isTrusted_toText, hpeer, chain_headersOf]
    rfl
  have hsecond {host : Text} {isWs tls : Bool} {next : Lines}
      (hnext : proxyHeaders host isWs tls (headersOf m.lines authority) m.peer.toText = some next)
      (authority' : Option Text) :
      handleRequest (own :: nets) self.toText next authority' =
        .ok (walk (own :: nets) m.peer.toText (hopsIn (forwardedLines m.lines)).reverse,
          headersOf next authority') := by
    rw [handleRequest_next hself hplain hnext, chain_headersOf, walk_peer hpeer']
  constructor
  · intro h
    obtain ⟨hclient, -, hnext⟩ := h _ _ hfirst
    have hempty : validValue [] := rfl
    obtain ⟨next, hsome⟩ := proxyHeaders_isSome false false m.peer hplain hempty
    obtain ⟨kept', hkept⟩ := hnext [] false false next hsome none
    rw [hsecond hsome] at hkept
    have heq := congrArg Prod.fst (Except.ok.inj hkept)
    exact ⟨hclient, heq.trans hclient⟩
  · rintro ⟨hclient, hnext⟩ ip kept h
    rw [hfirst] at h
    cases h
    refine ⟨hclient, fun hnot => ?_, ?_⟩
    · rw [hpeer] at hnot
      cases hnot
    · intro host isWs tls next hsome authority'
      rw [hsecond hsome, hnext, ← hclient]
      exact ⟨_, rfl⟩

theorem walk_names {nets' : List TrustedNet} (hclient : trusts nets client = false)
    (hnets : ∀ ip, trusts nets ip → trusts nets' ip) {back : List Text}
    (hback : ∀ hop ∈ back, TrustedHop nets hop) {start : IpAddr} (hstart : trusts nets start)
    (front : List Text) :
    walk nets' start.toText (back.reverse ++ front) = client.toText ↔ Names nets' front client := by
  have hhops : ∀ hop ∈ back.reverse,
      ∃ ip, hopIp hop = some ip ∧ trusts nets' ip = true ∧ trusts nets ip = true := by
    intro hop hmem
    obtain ⟨ip, hip, htrust⟩ := hback hop (mem_reverse.mp hmem)
    exact ⟨ip, hip, hnets ip htrust, htrust⟩
  obtain ⟨ip, hip, hwalk⟩ := walk_trusted hhops hstart front
  have hne : ip ≠ client := by
    rintro rfl
    rw [hip] at hclient
    cases hclient
  rw [hwalk, walk_eq_iff]
  simp [hne]

/-- **The client cannot choose its address, exactly where the hop of the first proxy is read.** -/
theorem forwardedLaw_iff (hown : own.contains self = true) (hclient : trusts nets client = false)
    (via : List (Via nets)) :
    ForwardedLaw nets own self client sent authority via ↔ HopIsRead nets own client sent via := by
  by_cases hhosts : 1 < hosts sent
  · refine ⟨fun _ => .inl hhosts, fun _ ip kept h => ?_⟩
    have hmany : 1 < hosts (arrive via ⟨client, sent⟩).lines := by rwa [hosts_arrive]
    rw [handleRequest, if_pos ((hosts_headersOf _ authority).mpr hmany)] at h
    cases h
  · cases via with
    | nil => exact ⟨fun _ => .inr trivial, fun _ => forwardedLaw_direct hown hclient hhosts⟩
    | cons p via =>
      obtain ⟨hpeer, back, hback, htrusted⟩ := arrive_trusted via
        (m := p.pass ⟨client, sent⟩) p.trusted
      change trusts nets (arrive (p :: via) ⟨client, sent⟩).peer = true at hpeer
      change hopsIn (forwardedLines (arrive (p :: via) ⟨client, sent⟩).lines) = _ at hback
      have hsame : ∀ ip, trusts nets ip → trusts nets ip := fun _ h => h
      have hmore : ∀ ip, trusts nets ip → trusts (own :: nets) ip := by
        intro ip h
        rw [trusts_cons, h, Bool.or_true]
      have hown' : trusts (own :: nets) client = own.contains client := by
        rw [trusts_cons, hclient, Bool.or_false]
      rw [forwardedLaw_proxied hown hhosts hpeer, hback, reverse_append,
        walk_names hclient hsame htrusted hpeer, walk_names hclient hmore htrusted hpeer]
      simp only [HopIsRead, hhosts, false_or]
      have hhop : hopIp (p.hop client) = some client := hopIp_of_hop (p.written client)
      rcases pass_cases p ⟨client, sent⟩ with ⟨hread, hhops⟩ | ⟨hhidden, hhops⟩
      · dsimp only at hread hhops
        rw [hhops, reverse_append, reverse_singleton, singleton_append]
        simp only [hread, true_and, not_true_eq_false, false_and, or_false,
          names_cons_untrusted hhop hclient]
        cases hc : own.contains client with
        | false => simp [names_cons_untrusted hhop (hown'.trans hc)]
        | true => simp [names_cons_trusted hhop (hown'.trans hc)]
      · dsimp only at hhidden hhops
        rw [hhops]
        simp only [hhidden, false_and, not_false_eq_true, true_and, false_or]

end Law

/-! ## A client that disappears -/

/-- `10.0.0.0/8`. -/
def innerNet : TrustedNet := ⟨.v4 0x0a000000, 8, rfl, by decide⟩

/-- `192.0.2.1`. -/
def thisServer : TrustedNet := ⟨.v4 0xc0000201, 32, rfl, by decide⟩

/-- `10.0.0.5`, which adds to the last line. -/
def innerProxy : Via [innerNet] :=
  ⟨.v4 0x0a000005, by decide, false, IpAddr.toText, fun ip => .plain (parseIp_toText ip)⟩

/-- A first line with an address, and a last one with the byte `0xe9`. -/
def hidingLines : Lines :=
  [("x-forwarded-for", utf8 "6.6.6.6"), ("x-forwarded-for", [0xe9])]

/-- `203.0.113.9` with a last line of that kind: what the proxy adds to it is lost. -/
theorem forwardedLaw_iff_hiding :
    ForwardedLaw [innerNet] thisServer (.v4 0xc0000201) (.v4 0xcb007109) hidingLines none
        [innerProxy] ↔
      HopIsRead [innerNet] thisServer (.v4 0xcb007109) hidingLines [innerProxy] :=
  forwardedLaw_iff (by decide) (by decide) [innerProxy]

/-- The client chooses `6.6.6.6`. -/
theorem not_forwardedLaw :
    ¬ ∀ (nets : List TrustedNet) (own : TrustedNet) (self client : IpAddr) (sent : Lines)
        (authority : Option Text) (via : List (Via nets)),
      own.contains self = true → trusts nets client = false →
        ForwardedLaw nets own self client sent authority via := by
  intro h
  have hlaw := h [innerNet] thisServer (.v4 0xc0000201) (.v4 0xcb007109) hidingLines none
    [innerProxy] (by decide) (by decide)
  have hrun : (handleRequest [innerNet] (arrive [innerProxy] ⟨.v4 0xcb007109, hidingLines⟩).peer.toText
      (arrive [innerProxy] ⟨.v4 0xcb007109, hidingLines⟩).lines none).map Prod.fst =
        .ok "6.6.6.6" := by decide
  obtain ⟨⟨ip, kept⟩, hok, hip⟩ := Except.map_eq_ok.mp hrun
  have hclient := (hlaw ip kept hok).1
  have hne : "6.6.6.6" ≠ (IpAddr.v4 0xcb007109).toText := by decide
  exact hne (hip.symm.trans hclient)

end Synsema.Server
