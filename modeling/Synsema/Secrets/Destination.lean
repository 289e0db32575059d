import Synsema.Secrets.Request
import Synsema.Http.Authority

/-!
# Where a request goes

`Outgoing` judges the public part of a URL; the client takes its scheme, host and port from the URL
itself, with `parse_url`.  The two read the same authority (`parseUrl_closed`).  They do not always
read it alike: the scope that `for_url` makes of the authority may be read as another host
(`Judged`).  Where it is not, a secret goes where all its origins may go, and nowhere else
(`boundLaw_iff`).
-/

namespace Synsema.Secrets

open Text Capscope Capability Bytesutil Http List
open Except (bind_eq_ok)

/-! ## The public prefix -/

variable {lower : Text → Text} {host h : Text} {a : Assembled} {parts : List Part}

theorem parseUrl_closed {pre : Text} (h : isClosed pre) (t t' : Text) :
    (parseUrl lower (pre ++ t)).map Url.dest = (parseUrl lower (pre ++ t')).map Url.dest := by
  rw [isClosed] at h
  split at h
  · rename_i s rest hs
    rw [Bool.and_eq_true] at h
    rw [parseUrl_dest (splitOnceStr_extend hs t), parseUrl_dest (splitOnceStr_extend hs t'),
      before_append h.2, before_append h.2]
  · cases h

/-! ## What is judged -/

/-- Does the host of a binding cover the host and the port a request goes to? -/
def CoversAddr (pattern host : Text) (port : Nat) : Prop :=
  boundHostOk (splitHostPort pattern).1 host = true ∧
    ∀ t, (splitHostPort pattern).2 = some t → Net.parseUnsigned 16 t = some port

theorem CoversAddr.of_covers {p dest : Text} {port : Nat} (h : boundHostCovers p dest)
    (hdest : CoversAddr dest host port) : CoversAddr p host port := by
  simp only [boundHostCovers, Bool.and_eq_true, Bool.or_eq_true, Option.isNone_iff_eq_none,
    beq_iff_eq] at h
  refine ⟨boundHostOk_trans h.1 hdest.1, fun t ht => ?_⟩
  cases h.2 with
  | inl hnone =>
    rw [hnone] at ht
    cases ht
  | inr heq => exact hdest.2 t (heq ▸ ht)

theorem boundHostCovers_refl (p : Text) : boundHostCovers p p = true := by
  simp [boundHostCovers, boundHostOk]

/-- The destination a URL is judged by covers the host and the port the client takes from it, if a
bound secret may go there at all. -/
def Judged (m : Platform) (url : Text) : Prop :=
  (Outgoing.forUrl m url []).dest ≠ [] → (Outgoing.forUrl m url []).safe = true →
    ∀ u, parseUrl m.toLowercase url = .ok u →
      CoversAddr (Outgoing.forUrl m url []).dest (m.toLowercase u.host) u.port

/-- What a mapping to small letters does to ASCII. -/
def LowersAscii (lower : Text → Text) : Prop :=
  ∀ s : Text, (∀ c ∈ s, c.val < 128) → lower s = toAsciiLowercase s

theorem ascii_of_toLower {c : Char} (h : c.toLower.val < 128) : c.val < 128 := by
  unfold Char.toLower at h
  split at h
  · rename_i hupper
    have hz : c.val ≤ 'Z'.val := hupper.2
    exact UInt32.lt_of_le_of_lt hz (by decide)
  · exact h

theorem LowersAscii.scheme (h : LowersAscii lower) {s : Text}
    (hs : isSecure (toAsciiLowercase s) ∨ isPlain (toAsciiLowercase s)) :
    lower s = toAsciiLowercase s := by
  have hknown : toAsciiLowercase s ∈
      ["https".toList, "wss".toList, "http".toList, "ws".toList] := by
    simp only [isSecure, isPlain, Bool.or_eq_true, beq_iff_eq] at hs
    simp only [List.mem_cons, not_mem_nil, or_false]
    tauto
  have hascii : ∀ t ∈ ["https".toList, "wss".toList, "http".toList, "ws".toList],
      ∀ c ∈ t, c.val < 128 := by decide
  apply h
  intro c hc
  apply ascii_of_toLower
  exact hascii _ hknown _ (mem_map_of_mem hc)

theorem eq_of_loopback (hl : isLoopbackHost h) (hok : boundHostOk h host) : h = host := by
  rcases boundHostOk_iff.mp hok with heq | ⟨suf, rfl, -⟩
  · exact heq
  · simp [isLoopbackHost] at hl

/-! ## The URL of a request -/

variable {w : Writing} {ρ : Material} {url : Val} {who publicUrl real : Text} {out : Outgoing}

/-- What the URL of a request is: its public part, or a secret whose text the public prefix begins;
where it goes does not depend on what secrets hold. -/
theorem requestUrl_eq_ok (h : requestUrl w ρ url who = .ok (publicUrl, real, out)) :
    ∃ new, (Outgoing.forUrl w.toPlatform publicUrl who).Grows new out ∧
      (∀ ρ', (∀ e ∈ new, ρ' e.1 = ρ e.1) → requestUrl w ρ' url who = .ok (publicUrl, real, out)) ∧
      ((∀ s, url ≠ .secret s) ∧ real = publicUrl ∨ ∃ s pre, url = .secret s ∧
        s.publicPrefix = some pre ∧ isClosed pre ∧ publicUrl = pre ++ "…" ∧
        ρ s = some real) := by
  cases url with
  | secret s =>
    simp only [requestUrl] at h
    split at h
    · cases h
    · rename_i hopen
      obtain ⟨⟨t, o⟩, hadmit, h⟩ := bind_eq_ok.mp h
      cases h
      obtain ⟨new, hgrows, hread⟩ := Outgoing.careful_admitSecret s _ _ ρ _ _ _ hadmit
      have hallowed : (Outgoing.forUrl w.toPlatform (publicUrl s) who).Allowed (s, false) := by
        obtain ⟨⟨⟩, hcheck, -⟩ := bind_eq_ok.mp hadmit
        exact Outgoing.check_eq_ok.mp hcheck
      have hbound : s.bound.isSome := by
        cases hb : s.bound with
        | none => simp [Outgoing.Allowed, hb] at hallowed
        | some b => rfl
      have hclosed : isClosed (s.publicPrefix.getD []) := by
        simpa [hbound] using hopen
      refine ⟨new, hgrows, fun ρ' hρ => ?_, .inr ?_⟩
      · simp only [requestUrl]
        rw [if_neg hopen]
        exact bind_eq_ok.mpr ⟨_, hread ρ' hρ, rfl⟩
      · cases hpre : s.publicPrefix with
        | none =>
          rw [hpre] at hclosed
          cases hclosed
        | some pre =>
          rw [hpre, Option.getD_some] at hclosed
          obtain ⟨⟨⟩, -, hadmit⟩ := bind_eq_ok.mp hadmit
          obtain ⟨text, htext, hadmit⟩ := bind_eq_ok.mp hadmit
          cases hadmit
          refine ⟨s, pre, rfl, hpre, hclosed, ?_, (secretText_eq_ok.mp htext).2⟩
          rw [publicUrl, hpre, Option.getD_some, if_pos hclosed]
  | _ =>
    cases h
    exact ⟨[], Outgoing.journal.refl _, fun _ _ => rfl, .inl ⟨nofun, rfl⟩⟩

theorem requestUrl_dest (hmade : ∀ s, url = .secret s → Made ρ s)
    (h : requestUrl w ρ url who = .ok (publicUrl, real, out)) (lower : Text → Text) :
    (parseUrl lower real).map Url.dest = (parseUrl lower publicUrl).map Url.dest := by
  obtain ⟨new, -, -, ⟨-, rfl⟩ | ⟨s, pre, hurl, hpre, hclosed, rfl, hreal⟩⟩ := requestUrl_eq_ok h
  · rfl
  · obtain ⟨rest, rfl⟩ := (hmade s hurl).text_eq hpre hreal
    exact parseUrl_closed hclosed _ _

theorem requestUrl_public {ρ' : Material} {publicUrl' real' : Text} {out' : Outgoing}
    (h : requestUrl w ρ url who = .ok (publicUrl, real, out))
    (h' : requestUrl w ρ' url who = .ok (publicUrl', real', out')) : publicUrl' = publicUrl := by
  obtain ⟨new, -, -, hcase⟩ := requestUrl_eq_ok h
  obtain ⟨new', -, -, hcase'⟩ := requestUrl_eq_ok h'
  rcases hcase with ⟨hnot, -⟩ | ⟨s, pre, hurl, hpre, -, rfl, -⟩
  · cases url with
    | secret s => exact absurd rfl (hnot s)
    | _ =>
      cases h
      cases h'
      rfl
  · rcases hcase' with ⟨hnot, -⟩ | ⟨s', pre', hurl', hpre', -, rfl, -⟩
    · exact absurd hurl (hnot s)
    · rw [hurl] at hurl'
      cases hurl'
      rw [hpre] at hpre'
      cases hpre'
      rfl

/-! ## The law -/

/-- What holds of a request that is assembled.  A secret that was admitted is one that the request
depends on; its origins are the secrets it was made of. -/
structure BoundLaw (w : Writing) (ρ : Material) (url : Val) (who : Text) (parts : List Part)
    (a : Assembled) : Prop where
  /-- A bound secret travels to a host it is bound to, and safely. -/
  bound : ∀ e ∈ a.out.admitted, ∀ o, Origin ρ e.1 o → ∀ b, o.bound = some b →
    ∀ u, parseUrl w.toLowercase a.real = .ok u →
      (∃ p ∈ b, CoversAddr p (w.toLowercase u.host) u.port) ∧
        (isSecure u.scheme = true ∨
          isPlain u.scheme = true ∧ isLoopbackHost (w.toLowercase u.host) = true)
  /-- An unbound secret travels in headers only. -/
  unbound : ∀ e ∈ a.out.admitted, e.1.bound = none → e.2 = true
  /-- Where the request goes does not depend on what secrets hold. -/
  host : ∀ ρ' a', (∀ s, url = .secret s → Made ρ' s) → assemble w ρ' url who parts = .ok a' →
    (parseUrl w.toLowercase a'.real).map Url.dest = (parseUrl w.toLowercase a.real).map Url.dest
  /-- What travels is listed. -/
  listed : ∀ e ∈ a.out.admitted, ∀ o, Origin ρ e.1 o → ∀ n ∈ o.names, n ∈ a.out.names
  /-- The request depends on the secrets that were admitted alone. -/
  reads : ∀ ρ', (∀ e ∈ a.out.admitted, ρ' e.1 = ρ e.1) → assemble w ρ' url who parts = .ok a

theorem assemble_eq_ok (h : assemble w ρ url who parts = .ok a) :
    (∃ out, requestUrl w ρ url who = .ok (a.publicUrl, a.real, out)) ∧
      (Outgoing.forUrl w.toPlatform a.publicUrl who).Grows a.out.admitted a.out ∧
      ∀ ρ', (∀ e ∈ a.out.admitted, ρ' e.1 = ρ e.1) → assemble w ρ' url who parts = .ok a := by
  obtain ⟨⟨pub, real, out⟩, hurl, h⟩ := bind_eq_ok.mp h
  obtain ⟨⟨pieces, out'⟩, hparts, h⟩ := bind_eq_ok.mp h
  cases h
  obtain ⟨new, hgrows, hread, -⟩ := requestUrl_eq_ok hurl
  obtain ⟨more, hmore, hread'⟩ := careful_assembleParts w parts ρ _ _ _ hparts
  have hall := Outgoing.journal.trans hgrows hmore
  have hadmitted : out'.admitted = new ++ more := hall.admitted
  refine ⟨⟨out, hurl⟩, ?_, fun ρ' hρ => ?_⟩
  · rw [hadmitted]
    exact hall
  · rw [hadmitted] at hρ
    have h₁ := hread ρ' fun e he => hρ e (mem_append_left _ he)
    have h₂ := hread' ρ' fun e he => hρ e (mem_append_right _ he)
    exact bind_eq_ok.mpr ⟨_, h₁, bind_eq_ok.mpr ⟨_, h₂, rfl⟩⟩

theorem boundLaw_of_judged (hlower : LowersAscii w.toLowercase)
    (hmade : ∀ s, url = .secret s → Made ρ s) (h : assemble w ρ url who parts = .ok a)
    (hjudged : Judged w.toPlatform a.publicUrl) : BoundLaw w ρ url who parts a := by
  obtain ⟨⟨out, hurl⟩, hgrows, hread⟩ := assemble_eq_ok h
  have hdest := requestUrl_dest hmade hurl w.toLowercase
  refine ⟨?_, ?_, ?_, ?_, hread⟩
  · intro e he o ho b hb u hu
    obtain ⟨b', hb', hcov⟩ := ho.narrows b hb
    have hallowed := hgrows.allowed e he
    simp only [Outgoing.Allowed, hb', Outgoing.goesTo, Bool.and_eq_true, Bool.not_eq_true',
      isEmpty_eq_false_iff, any_eq_true] at hallowed
    obtain ⟨⟨hne, hcovered⟩, hsafe⟩ := hallowed
    obtain ⟨p, hp, hpdest⟩ := hcov _ hcovered
    -- The client reads the same destination from the public part.
    rw [hu] at hdest
    obtain ⟨u', hu', heq⟩ := Except.map_eq_ok.mp hdest.symm
    simp only [Url.dest, Prod.mk.injEq] at heq
    obtain ⟨hscheme, hhost, hport⟩ := heq
    have haddr := hjudged hne hsafe u' hu'
    rw [hhost, hport] at haddr
    refine ⟨⟨p, hp, haddr.of_covers hpdest⟩, ?_⟩
    obtain ⟨s, rest, hsplit, hus⟩ := scheme_of_parseUrl hu'
    have hscheme' : (Outgoing.forUrl w.toPlatform a.publicUrl who).scheme = toAsciiLowercase s := by
      simp only [Outgoing.forUrl, hsplit, Option.elim_some]
    have hhost' : (Outgoing.forUrl w.toPlatform a.publicUrl who).host =
        (splitHostPort (Outgoing.forUrl w.toPlatform a.publicUrl who).dest).1 := rfl
    simp only [Outgoing.safe, Bool.or_eq_true, Bool.and_eq_true, hscheme'] at hsafe
    rw [← hscheme, hus, hlower.scheme (hsafe.imp id And.left)]
    rcases hsafe with hsecure | ⟨hplain, hloop⟩
    · exact .inl hsecure
    · rw [hhost'] at hloop
      exact .inr ⟨hplain, eq_of_loopback hloop haddr.1 ▸ hloop⟩
  · intro e he hnone
    have hallowed := hgrows.allowed e he
    simpa only [Outgoing.Allowed, hnone] using hallowed
  · intro ρ' a' hmade' h'
    obtain ⟨⟨out', hurl'⟩, -, -⟩ := assemble_eq_ok h'
    rw [requestUrl_dest hmade' hurl' w.toLowercase, requestUrl_public hurl hurl', hdest]
  · intro e he o ho n hn
    exact (hgrows.names n).mpr (.inr ⟨e, he, ho.names n hn⟩)

/-- A secret that may go to one destination. -/
def keyFor (dest : Text) : SecretInner :=
  { id := 0, name := "K", isSealed := false, bound := some [dest], publicPrefix := none,
    parts := [], fromConfig := true }

/-- A request with that secret in a header. -/
def keyHeader (dest : Text) : List Part :=
  [.headers (some (.map [("X-Key", .secret (keyFor dest))]))]

/-- What the request carries. -/
def withKey (o : Outgoing) : Outgoing :=
  { o with
    bindings := pushNew o.bindings [o.dest]
    forbidRedirects := true
    names := pushNew o.names ["K"]
    admitted := o.admitted ++ [(keyFor o.dest, true)] }

theorem assemble_keyHeader (w : Writing) (url who : Text)
    (hne : (Outgoing.forUrl w.toPlatform url who).dest ≠ [])
    (hsafe : (Outgoing.forUrl w.toPlatform url who).safe) :
    assemble w (fun _ => some "v".toList) (.text url) who
        (keyHeader (Outgoing.forUrl w.toPlatform url who).dest) =
      .ok ⟨url, url, [.headers (some [("X-Key", "v")])],
        withKey (Outgoing.forUrl w.toPlatform url who)⟩ := by
  generalize ho : Outgoing.forUrl w.toPlatform url who = o at hne hsafe ⊢
  have hcheck : o.check (keyFor o.dest) ("header " ++ w.debug "X-Key") true = .ok () := by
    apply Outgoing.check_eq_ok.mpr
    simp [Outgoing.Allowed, keyFor, Outgoing.goesTo, hne, boundHostCovers_refl, hsafe]
  have hadmit : o.admitSecret (fun _ => some "v".toList) (keyFor o.dest)
      ("header " ++ w.debug "X-Key") true = .ok ("v", withKey o) := by
    rw [Outgoing.admitSecret, hcheck]
    rfl
  have hfield : fieldText w (fun _ => some "v".toList) ("header " ++ w.debug "X-Key")
      true (.secret (keyFor o.dest)) o = .ok ("v", withKey o) := hadmit
  have hpairs : fieldPairs w (fun _ => some "v".toList) "header " true
      [("X-Key", .secret (keyFor o.dest))] o =
        .ok ([("X-Key", "v")], withKey o) := by
    rw [fieldPairs, hfield]
    rfl
  have hheader : headerPairsTo w (fun _ => some "v".toList)
      (some (.map [("X-Key", .secret (keyFor o.dest))])) o =
        .ok (some [("X-Key", "v")], withKey o) := by
    rw [headerPairsTo, pairsTo, hpairs]
    rfl
  have hparts : assembleParts w (fun _ => some "v".toList) (keyHeader o.dest) o =
      .ok ([.headers (some [("X-Key", "v")])], withKey o) := by
    rw [keyHeader, assembleParts, assemblePart, hheader]
    rfl
  have hurl : requestUrl w (fun _ => some "v".toList) (.text url) who = .ok (url, url, o) := by
    rw [← ho]
    rfl
  rw [assemble, hurl]
  simp only [bind, Except.bind, hparts]
  rfl

/-! ## Where the destination reads back -/

/-- May a bound secret travel with a URL at all: it has a host, the client takes it, and its scheme
is one that bound secrets travel over? -/
def Travels (m : Platform) (url : Text) : Prop :=
  (Outgoing.forUrl m url []).dest ≠ [] ∧ (Outgoing.forUrl m url []).safe = true ∧
    ∃ u, parseUrl m.toLowercase url = .ok u

/-- The scope that `net_request_scope` makes of a host and a port, split again, is a host that covers
the host, with no port or with the port. -/
def ReadsBack (m : Platform) (url : Text) : Prop :=
  boundHostOk (splitHostPort (joinNetScope (urlHostPort m url).1 (urlHostPort m url).2)).1
      (urlHostPort m url).1 = true ∧
    ((splitHostPort (joinNetScope (urlHostPort m url).1 (urlHostPort m url).2)).2 = none ∨
      (splitHostPort (joinNetScope (urlHostPort m url).1 (urlHostPort m url).2)).2 =
        (urlHostPort m url).2)

theorem dest_forUrl {m : Platform} {url : Text} (h : (Outgoing.forUrl m url who).dest ≠ []) :
    (Outgoing.forUrl m url who).dest = joinNetScope (urlHostPort m url).1 (urlHostPort m url).2 := by
  simp only [Outgoing.forUrl, netRequestScope] at h ⊢
  split at h
  · exact absurd rfl h
  · rename_i hne
    rw [if_neg hne]
    rfl

theorem port_of_splitHostPort {x : Text} {p : Option Text} {n : Nat}
    (hs : (splitHostPort (joinNetScope h p)).2 = some x) (hx : Net.parseUnsigned 16 x = some n)
    (hp : ∀ t, p = some t → ':' ∉ t)
    (hok : boundHostOk (splitHostPort (joinNetScope h p)).1 h) : p = some x := by
  cases p with
  | none =>
    have hnot := not_boundHostOk_of_port (Prod.ext rfl hs) hx
    rw [joinNetScope] at hnot hok
    rw [hnot] at hok
    cases hok
  | some t =>
    obtain ⟨mid, hmid, -⟩ := splitHostPort_eq_some (Prod.ext rfl hs)
    have hcolon : ':' ∉ x := not_mem_of_parseUnsigned hx (by decide) (by decide)
    obtain ⟨mid', hmid'⟩ : ∃ mid', joinNetScope h (some t) = mid' ++ ':' :: t := by
      simp only [joinNetScope]
      split
      · exact ⟨'[' :: h ++ [']'], by simp⟩
      · exact ⟨h, by simp⟩
    have hfirst := rsplitOnce_append mid hcolon
    rw [← hmid, hmid', rsplitOnce_append mid' (hp t rfl)] at hfirst
    simp only [Option.some.injEq, Prod.mk.injEq] at hfirst
    rw [hfirst.2]

theorem judged_iff (m : Platform) (url : Text) : Judged m url ↔ (Travels m url → ReadsBack m url) := by
  constructor
  · rintro h ⟨hne, hsafe, u, hu⟩
    obtain ⟨hhost, hport⟩ := urlHostPort_of_parseUrl hu
    have haddr := h hne hsafe u hu
    rw [dest_forUrl hne, ← hhost] at haddr
    refine ⟨haddr.1, ?_⟩
    cases hs : (splitHostPort (joinNetScope (urlHostPort m url).1 (urlHostPort m url).2)).2 with
    | none => exact .inl rfl
    | some x =>
      right
      symm
      apply port_of_splitHostPort hs (haddr.2 x hs) _ haddr.1
      intro t ht
      exact not_mem_of_parseUnsigned (hport t ht) (by decide) (by decide)
  · intro h hne hsafe u hu
    obtain ⟨hhost, hport⟩ := urlHostPort_of_parseUrl hu
    obtain ⟨hok, hback⟩ := h ⟨hne, hsafe, u, hu⟩
    rw [dest_forUrl hne, ← hhost]
    refine ⟨hok, fun t ht => ?_⟩
    rcases hback with hnone | heq
    · rw [hnone] at ht
      cases ht
    · exact hport t (heq ▸ ht)

/-! ## The exact condition -/

theorem judged_of_boundLaw {url : Text}
    (h : ∀ ρ v who parts a, (∀ s, v = .secret s → Made ρ s) → assemble w ρ v who parts = .ok a →
      a.publicUrl = url → BoundLaw w ρ v who parts a) : Judged w.toPlatform url := by
  intro hne hsafe u hu
  have hkey := h _ (.text url) _ _ _ (fun _ hs ↦ nomatch hs) (assemble_keyHeader w url [] hne hsafe) rfl
  obtain ⟨⟨p, hp, haddr⟩, -⟩ := hkey.bound (keyFor (Outgoing.forUrl w.toPlatform url []).dest, true)
    (by simp [withKey]) _ (.self rfl) _ rfl u hu
  rw [mem_singleton.mp hp] at haddr
  exact haddr

/-- Texts with ASCII letters only. -/
def asciiWriting : Writing :=
  { envVar := fun _ => none, currentDir := none, toLowercase := toAsciiLowercase, debug := id
    display := Val.typeName, dumpsSyn := Val.typeName }

theorem not_judged_bracketed : ¬ Judged asciiWriting.toPlatform "https://[api.x.com:80]/" := by
  intro h
  have haddr := h (by decide) (by decide)
    ⟨"https", "api.x.com:80", 443, "/", none⟩ (by decide)
  exact absurd haddr.1 (by decide)

/-- Requests send a bound secret to a host it is not bound to. -/
theorem not_boundLaw : ¬ ∀ (w : Writing), LowersAscii w.toLowercase → ∀ ρ url who parts a,
    (∀ s, url = .secret s → Made ρ s) → assemble w ρ url who parts = .ok a →
      BoundLaw w ρ url who parts a := by
  intro h
  apply not_judged_bracketed
  exact judged_of_boundLaw fun ρ v who parts a hmade hassemble _ =>
    h asciiWriting (fun _ _ => rfl) ρ v who parts a hmade hassemble

/-- Every request with a public URL keeps the law exactly where the destination it is judged by reads
back as the host and the port of the URL, or where no bound secret travels with the URL at all. -/
theorem boundLaw_iff (w : Writing) (hlower : LowersAscii w.toLowercase) (url : Text) :
    (∀ ρ v who parts a, (∀ s, v = .secret s → Made ρ s) → assemble w ρ v who parts = .ok a →
        a.publicUrl = url → BoundLaw w ρ v who parts a) ↔
      (Travels w.toPlatform url → ReadsBack w.toPlatform url) := by
  rw [← judged_iff]
  constructor
  · exact judged_of_boundLaw
  · rintro h ρ v who parts a hmade hassemble rfl
    exact boundLaw_of_judged hlower hmade hassemble h

theorem boundLaw_iff_plain : ReadsBack asciiWriting.toPlatform "https://api.x.com/v2/…" ∧
    ∀ ρ v who parts a, (∀ s, v = .secret s → Made ρ s) →
      assemble asciiWriting ρ v who parts = .ok a → a.publicUrl = "https://api.x.com/v2/…" →
        BoundLaw asciiWriting ρ v who parts a :=
  have hreads : ReadsBack asciiWriting.toPlatform "https://api.x.com/v2/…" :=
    ⟨by decide, .inl (by decide)⟩
  ⟨hreads, (boundLaw_iff asciiWriting (fun _ _ => rfl) "https://api.x.com/v2/…").mpr fun _ => hreads⟩

end Synsema.Secrets
