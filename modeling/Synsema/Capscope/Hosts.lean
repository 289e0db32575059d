import Synsema.Text

/-!
# Host scopes

`host[:port]` texts and the hosts a secret is bound to
(`synsema-core/src/capscope.rs`, `split_host_port` and below).
-/

namespace Synsema.Capscope

open Text List

/-- `host` or `host:port` as `(host, port)`; `[::1]:8545` has a port and `::1` has
not. -/
def splitHostPort (scope : Text) : Text × Option Text :=
  let plain :=
    match rsplitOnce ':' scope with
    | some (h, p) =>
      if !h.contains ':' && !p.isEmpty && allDigits p then (h, some p) else (scope, none)
    | none => (scope, none)
  match stripPrefix "[" scope with
  | some inner =>
    match splitOnce ']' inner with
    | some (h, after) => (h, (stripPrefix ":" after).filter fun p => !p.isEmpty)
    | none => plain
  | none => plain

/-- The `net` scope that a text names: of a URL its host and the port it writes,
otherwise the host in lower case. -/
def netHostScope (toLowercase : Text → Text) (s : Text) : Text :=
  match splitOnceStr "://" s with
  | some (_, rest) =>
    let authority := before (fun c => c == '/' || c == '?' || c == '#') rest
    let hostport := match rsplitOnce '@' authority with
      | some (_, hp) => hp
      | none => authority
    let (h, p) := splitHostPort hostport
    let h := toLowercase h
    if h.isEmpty then "<no host>"
    else
      match p with
      | some p =>
        if h.contains ':' then "[" ++ h ++ "]:" ++ p
        else h ++ ":" ++ p
      | none => h
  | none =>
    if startsWith "[" s && endsWith "]" s then
      toLowercase (s.drop 1).dropLast
    else toLowercase s

/-- Does the host of a binding (`api.x.com`, `*.x.com`) cover a host? -/
def boundHostOk (ph dh : Text) : Bool :=
  ph == dh || (startsWith "*." ph && decide (ph.length - 1 < dh.length)
    && endsWith (ph.drop 1) dh)

/-- Does the host of a binding cover the destination `host[:port]`?  A binding with a
port covers only that port. -/
def boundHostCovers (pattern dest : Text) : Bool :=
  let (ph, pp) := splitHostPort pattern
  let (dh, dp) := splitHostPort dest
  boundHostOk ph dh && (pp.isNone || pp == dp)

/-- `bound_host_error`: what is wrong with a host that a secret is bound to. -/
def boundHostError (debug : Text → Text) (h : Text) : Option Text :=
  let host := (splitHostPort h).1
  let rest := (stripPrefix "*." host).getD host
  if host.isEmpty || host == "<no host>" then some (debug h ++ " has no host")
  else if host == "*" || host == "*." then
    some "binding a secret to every host is not binding it: name the host it goes to".toList
  else if containsAny ['*', '?', '['] rest then
    some (debug h ++ ": a `*` may only be the whole first label (`*.example.com`), and nowhere else")
  else if startsWith "*." host && !rest.contains '.' then
    some (debug h ++ ": `*." ++ rest ++ "` would cover a whole top-level domain; name the domain")
  else none

/-- Does the port of a grant admit the port of a request?  Without one, any port. -/
def portOk (gp rp : Option Text) : Bool := gp.isNone || gp == rp

theorem portOk_trans {p q r : Option Text} (h₁ : portOk p q) (h₂ : portOk q r) :
    portOk p r = true := by
  cases p with
  | none => rfl
  | some p =>
    have hq : some p = q := by simpa [portOk] using h₁
    exact hq ▸ h₂

theorem boundHostOk_iff {ph dh : Text} :
    boundHostOk ph dh ↔ ph = dh ∨ ∃ suf, ph = '*' :: '.' :: suf ∧
      ∃ u, u ≠ [] ∧ dh = u ++ '.' :: suf := by
  simp only [boundHostOk, startsWith, endsWith, Bool.or_eq_true, beq_iff_eq, Bool.and_eq_true,
    isPrefixOf_iff_prefix, decide_eq_true_eq, isSuffixOf_iff_suffix]
  refine or_congr_right ⟨?_, ?_⟩
  · rintro ⟨⟨⟨suf, rfl⟩, hlen⟩, ⟨u, rfl⟩⟩
    refine ⟨suf, rfl, u, ?_, rfl⟩
    rintro rfl
    simp at hlen
  · rintro ⟨suf, rfl, u, hu, rfl⟩
    refine ⟨⟨⟨suf, rfl⟩, ?_⟩, ⟨u, rfl⟩⟩
    have := length_pos_iff.mpr hu
    simp only [length_cons, length_append]
    omega

theorem boundHostOk_trans {p q r : Text} (h₁ : boundHostOk p q)
    (h₂ : boundHostOk q r) : boundHostOk p r = true := by
  rw [boundHostOk_iff] at h₁ h₂ ⊢
  rcases h₁ with rfl | ⟨suf, rfl, u, hu, rfl⟩
  · exact h₂
  · rcases h₂ with rfl | ⟨suf', hq, v, hv, rfl⟩
    · exact .inr ⟨suf, rfl, u, hu, rfl⟩
    · -- the middle host is `*.` and a name that ends in `.suf`
      refine .inr ⟨suf, rfl, ?_⟩
      cases u with
      | nil => exact absurd rfl hu
      | cons c u =>
        obtain ⟨-, hq⟩ := cons.inj hq
        exact ⟨v ++ u, by simp [hv], by rw [← hq]; simp⟩

theorem boundHostCovers_trans {p q r : Text} (h₁ : boundHostCovers p q)
    (h₂ : boundHostCovers q r) : boundHostCovers p r = true := by
  simp only [boundHostCovers, Bool.and_eq_true] at h₁ h₂ ⊢
  exact ⟨boundHostOk_trans h₁.1 h₂.1, portOk_trans h₁.2 h₂.2⟩

end Synsema.Capscope
