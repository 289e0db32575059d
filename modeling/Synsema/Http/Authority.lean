import Synsema.Capability.Model
import Synsema.Http.Client
import Synsema.Lib.Except

/-!
# The authority of a URL

`url_host_port` (`synsema-capabilities/src/model.rs`) and `parse_url`
(`synsema-stdlib/src/http.rs`) read the host and the port of a URL, the one for what judges a request
and the other for the client.  Where `parse_url` succeeds they read the same host, and the port that
`url_host_port` reads is the one of `parse_url` (`urlHostPort_of_parseUrl`).  The scope that is made
of them is split again by `split_host_port`, which may find a port in a host that has none.
-/

namespace Synsema.Http

open Text Capscope Capability Bytesutil List

/-! ## Hosts and ports, read and written -/

theorem not_mem_of_parseUnsigned {w n : Nat} {t : Text} (h : Net.parseUnsigned w t = some n)
    {c : Char} (hdigit : c.isDigit = false) (hplus : c ≠ '+') : c ∉ t := by
  intro hc
  unfold Net.parseUnsigned at h
  simp only at h
  split at h
  · cases h
  · rename_i hdigits
    simp only [Bool.or_eq_true, Bool.not_eq_true', not_or, Bool.not_eq_false] at hdigits
    have hmem : c ∈ (stripPrefix "+" t).getD t := by
      cases hs : stripPrefix "+" t with
      | none => exact hc
      | some r =>
        rw [stripPrefix_eq_some.mp hs] at hc
        exact (mem_append.mp hc).resolve_left fun hp => hplus (mem_singleton.mp hp)
    rw [all_eq_true.mp hdigits.2 c hmem] at hdigit
    cases hdigit

theorem split_eq_some {s h x : Text} (hp : (match rsplitOnce ':' s with
      | some (h, p) =>
        if !h.contains ':' && !p.isEmpty && allDigits p then (h, some p) else (s, none)
      | none => (s, none)) = (h, some x)) : s = h ++ ':' :: x ∧ ':' ∉ h := by
  split at hp
  · rename_i l r hsplit
    split at hp
    · rename_i hcond
      cases hp
      simp only [Bool.and_eq_true, Bool.not_eq_true', contains_eq_mem,
        decide_eq_false_iff_not] at hcond
      exact ⟨(rsplitOnce_eq_some hsplit).1, hcond.1.1⟩
    · cases hp
  · cases hp

theorem splitHostPort_eq_some {s h x : Text} (hs : splitHostPort s = (h, some x)) :
    ∃ mid, s = mid ++ ':' :: x ∧
      (mid = h ∧ ':' ∉ h ∨ mid = '[' :: h ++ [']'] ∧ ']' ∉ h) := by
  simp only [splitHostPort] at hs
  split at hs
  · rename_i inner hinner
    split at hs
    · rename_i l after hsplit
      simp only [Prod.mk.injEq, Option.filter_eq_some_iff] at hs
      obtain ⟨rfl, hport, -⟩ := hs
      refine ⟨'[' :: l ++ [']'], ?_, .inr ⟨rfl, splitOnce_notMem hsplit⟩⟩
      have h₁ : s = '[' :: inner := stripPrefix_eq_some.mp hinner
      have h₂ : after = ':' :: x := stripPrefix_eq_some.mp hport
      rw [h₁, splitOnce_eq_some hsplit, h₂]
      simp
    · obtain ⟨hmid, hnot⟩ := split_eq_some hs
      exact ⟨h, hmid, .inl ⟨rfl, hnot⟩⟩
  · obtain ⟨hmid, hnot⟩ := split_eq_some hs
    exact ⟨h, hmid, .inl ⟨rfl, hnot⟩⟩

theorem not_boundHostOk_of_port {s h x : Text} {n : Nat} (hs : splitHostPort s = (h, some x))
    (hx : Net.parseUnsigned 16 x = some n) : boundHostOk h s = false := by
  obtain ⟨mid, hmid, hcase⟩ := splitHostPort_eq_some hs
  rw [Bool.eq_false_iff]
  intro hok
  rcases boundHostOk_iff.mp hok with heq | ⟨suf, hsuf, u, -, hu⟩
  · have hlen := congrArg List.length (heq.trans hmid)
    rcases hcase with ⟨rfl, -⟩ | ⟨rfl, -⟩
    · simp at hlen
    · simp at hlen
      omega
  · have hdot : '.' ∉ x := not_mem_of_parseUnsigned hx (by decide) (by decide)
    have hsub : ∀ c ∈ '.' :: suf, c ∈ h := fun c hc => hsuf ▸ mem_cons_of_mem _ hc
    have htail : '.' :: suf <:+ mid ++ ':' :: x := ⟨u, hu.symm.trans hmid⟩
    have hport : x <:+ mid ++ ':' :: x := ⟨mid ++ [':'], by simp⟩
    rcases suffix_or_suffix_of_suffix htail hport with hin | ⟨y, hy⟩
    · exact hdot (hin.subset mem_cons_self)
    · -- The suffix that the pattern asks for begins before the port.
      have hy' : y <:+ mid ++ [':'] := by
        obtain ⟨z, hz⟩ := htail
        refine ⟨z, ?_⟩
        rw [← hy, ← append_assoc, append_cons] at hz
        exact append_cancel_right hz
      rcases eq_nil_or_concat y with rfl | ⟨z, c, rfl⟩
      · rw [nil_append] at hy
        exact hdot (hy ▸ mem_cons_self)
      · obtain ⟨v, hv⟩ := hy'
        rw [concat_eq_append, ← append_assoc] at hv
        obtain ⟨hvz, hc⟩ := append_inj' hv rfl
        obtain rfl : c = ':' := by simpa using hc
        rcases hcase with ⟨rfl, hnot⟩ | ⟨rfl, hnot⟩
        · apply hnot
          apply hsub
          rw [← hy]
          simp
        · rcases eq_nil_or_concat z with rfl | ⟨z', c', rfl⟩
          · simp at hy
          · rw [concat_eq_append, ← append_assoc] at hvz
            obtain ⟨-, hc'⟩ := append_inj' hvz rfl
            obtain rfl : c' = ']' := by simpa using hc'
            apply hnot
            apply hsub
            rw [← hy]
            simp

/-! ## What a URL is cut into -/

theorem before_append {p : Char → Bool} {r : Text} (h : r.any p) (t : Text) :
    before p (r ++ t) = before p r := by
  unfold before
  rw [takeWhile_append, if_neg]
  intro hlen
  obtain ⟨c, hc, hpc⟩ := any_eq_true.mp h
  have hall : r.takeWhile (fun c => !p c) = r :=
    (List.takeWhile_prefix _).eq_of_length hlen
  rw [takeWhile_eq_self_iff] at hall
  have hcontra := hall c hc
  rw [hpc] at hcontra
  cases hcontra

/-- The scheme, the host and the port that `parse_url` takes from what stands around `://`. -/
def destination (lower : Text → Text) (s authority : Text) : Except Text (Text × Text × Nat) := do
  let hostport := (rsplitOnce '@' authority).elim authority Prod.snd
  let hp ← parseHostPort hostport (defaultPort (lower s))
  if hp.1 = [] then
    .error "invalid URL: it has no host (expected scheme://host/…)"
  else return (lower s, hp.1, hp.2)

/-- Where a URL goes. -/
def Url.dest (u : Url) : Text × Text × Nat := (u.scheme, u.host, u.port)

theorem parseUrl_dest {lower : Text → Text} {url s rest : Text}
    (h : splitOnceStr "://" url = some (s, rest)) :
    (parseUrl lower url).map Url.dest = destination lower s (before endsAuthority rest) := by
  unfold parseUrl destination
  rw [h]
  cases hat : rsplitOnce '@' (before endsAuthority rest) with
  | none =>
    simp only [hat, Option.elim_none]
    cases parseHostPort (before endsAuthority rest) (defaultPort (lower s)) with
    | error e => rfl
    | ok hp =>
      by_cases hempty : hp.1 = [] <;> simp [hempty, bind, Except.bind, Except.map, pure,
        Except.pure, Url.dest]
  | some p =>
    simp only [hat, Option.elim_some]
    cases parseHostPort p.2 (defaultPort (lower s)) with
    | error e => rfl
    | ok hp =>
      by_cases hempty : hp.1 = [] <;> simp [hempty, bind, Except.bind, Except.map, pure,
        Except.pure, Url.dest]

theorem scheme_of_parseUrl {lower : Text → Text} {url : Text} {u : Url}
    (h : parseUrl lower url = .ok u) :
    ∃ s rest, splitOnceStr "://" url = some (s, rest) ∧ u.scheme = lower s := by
  cases hs : splitOnceStr "://" url with
  | none =>
    rw [parseUrl, hs] at h
    cases h
  | some p =>
    refine ⟨p.1, p.2, rfl, ?_⟩
    have hdest := @parseUrl_dest lower _ _ _ hs
    rw [h] at hdest
    obtain ⟨hp, hhp, hrest⟩ := Except.bind_eq_ok.mp hdest.symm
    split at hrest
    · cases hrest
    · exact (congrArg Prod.fst (Except.ok.inj hrest)).symm

theorem urlHostPort_of_parseUrl {m : Platform} {url : Text} {u : Url}
    (h : parseUrl m.toLowercase url = .ok u) :
    (urlHostPort m url).1 = m.toLowercase u.host ∧
      ∀ t, (urlHostPort m url).2 = some t → Net.parseUnsigned 16 t = some u.port := by
  obtain ⟨s, rest, hsplit, -⟩ := scheme_of_parseUrl h
  have hdest := @parseUrl_dest m.toLowercase _ _ _ hsplit
  rw [h] at hdest
  obtain ⟨hp, hhp, hrest⟩ := Except.bind_eq_ok.mp hdest.symm
  obtain ⟨hhost, hport⟩ : hp.1 = u.host ∧ hp.2 = u.port := by
    split at hrest
    · cases hrest
    · have hinj := Except.ok.inj hrest
      simp only [Url.dest, Prod.mk.injEq] at hinj
      exact hinj.2
  rw [← hhost, ← hport]
  have hbefore : before endsAuthority rest =
      before (fun c => c == '/' || c == '?' || c == '#') rest := rfl
  unfold urlHostPort
  rw [hsplit]
  simp only [Option.elim_some, ← hbefore]
  generalize (rsplitOnce '@' (before endsAuthority rest)).elim (before endsAuthority rest)
    Prod.snd = hostport at hhp ⊢
  have hparse {p : Text} {n : Nat} (hn : parsePort hostport p = .ok n) :
      Net.parseUnsigned 16 p = some n := by
    unfold parsePort at hn
    split at hn
    · rename_i hp
      cases hn
      exact hp
    · cases hn
  unfold parseHostPort at hhp
  cases hopen : stripPrefix ['['] hostport with
  | some inner =>
    rw [hopen] at hhp
    rw [show "[".toList = ['['] from rfl, hopen]
    cases hclose : splitOnce ']' inner with
    | none =>
      simp only [hclose] at hhp
      cases hhp
    | some p =>
      simp only [hclose] at hhp
      simp only [hclose, Option.getD_some]
      rw [show ":".toList = [':'] from rfl]
      cases hcolon : stripPrefix [':'] p.2 with
      | none =>
        simp only [hcolon] at hhp
        cases hhp
        exact ⟨rfl, fun t ht => by cases ht⟩
      | some t =>
        simp only [hcolon] at hhp
        obtain ⟨n, hn, hret⟩ := Except.bind_eq_ok.mp hhp
        cases hret
        refine ⟨rfl, fun t' ht' => ?_⟩
        rw [Option.filter_eq_some_iff] at ht'
        rw [← Option.some.inj ht'.1]
        exact hparse hn
  | none =>
    rw [hopen] at hhp
    rw [show "[".toList = ['['] from rfl, hopen]
    cases hcolon : rsplitOnce ':' hostport with
    | none =>
      simp only [hcolon] at hhp
      cases hhp
      exact ⟨rfl, fun t ht => by cases ht⟩
    | some p =>
      simp only [hcolon] at hhp
      obtain ⟨n, hn, hret⟩ := Except.bind_eq_ok.mp hhp
      cases hret
      refine ⟨rfl, fun t' ht' => ?_⟩
      rw [Option.filter_eq_some_iff] at ht'
      rw [← Option.some.inj ht'.1]
      exact hparse hn

end Synsema.Http
