import Synsema.Eip712.TypeParser

/-!
# How deep the types of a text nest

`parse_signature` of `synsema-stdlib/src/blockchain_abi.rs`, and the depth of the types that it and
`parse_single_type` accept.

The parser counts its levels where it enters a tuple; the suffixes of arrays are read in a loop,
which counts nothing.  So the depth of a type is bounded by the levels and by the brackets that
stand in one stretch of the text, that is without a parenthesis or a comma between them.
-/

namespace Synsema.Abi

open Text List
open Except (bind_eq_ok)
open Blockchain (Stop)
open Eip712

/-! ## Signatures -/

section Parse

variable (debug : Text → Text) (fname : Text)

/-- The loop of `parse_signature`; each type takes a character at least. -/
def signatureItems (sig : Text) (item : Text → Except Stop (AbiType × Text)) :
    Nat → List AbiType → Text → Except Stop (List AbiType)
  | 0, _, _ => fail (fname ++ ": expected \",\" between parameter types in " ++ debug sig)
  | fuel + 1, ts, s => do
    let (t, s) ← item s
    match s with
    | ',' :: s => signatureItems sig item fuel (ts ++ [t]) s
    | [] => .ok (ts ++ [t])
    | _ => fail (fname ++ ": expected \",\" between parameter types in " ++ debug sig)

/-- What `parse_signature` makes of the name of a function and of what stands behind the first
parenthesis. -/
def signatureParts (sig name rest : Text) : Except Stop (Text × List AbiType) := do
  if name = [] ∨ (name.headD ' ').isDigit ∨ name.all isIdent = false then
    fail (fname ++ ": invalid function name " ++ debug name ++ " in the signature")
  else if endsWith ")" sig = false then
    fail (fname ++ ": the signature must end with \")\" (got " ++ debug sig ++ ")")
  else
    let inner := rest.dropLast
    let item := parseType debug false fname inner (maxDepth + 1)
    let types ←
      if inner = [] then .ok [] else signatureItems debug fname sig item inner.length [] inner
    return (name ++ ['('] ++ join [','] (types.map AbiType.display) ++ [')'], types)

def parseSignature (sig : Text) : Except Stop (Text × List AbiType) := do
  checkNoSpaces debug fname sig
  match splitOnce '(' sig with
  | none => fail (fname ++ (": the signature must look like \"transfer(address,uint256)\" (got "
      ).toList ++ debug sig ++ ")")
  | some (name, rest) => signatureParts debug fname sig name rest

/-- The types that a text is accepted as: a type, which stands for its items when it is a tuple, or
the parameters of a signature. -/
inductive Accepted (s : Text) : List AbiType → Prop where
  | single {structsOk : Bool} {t : AbiType} (h : parseSingleType debug structsOk fname s = .ok t) :
      Accepted s [t]
  | items {structsOk : Bool} {ts : List AbiType}
      (h : parseSingleType debug structsOk fname s = .ok (.tuple ts)) : Accepted s ts
  | signature {canonical : Text} {ts : List AbiType}
      (h : parseSignature debug fname s = .ok (canonical, ts)) : Accepted s ts

end Parse

/-! ## Depth -/

namespace AbiType

mutual

/-- How deep tuples and arrays are nested. -/
def depth : AbiType → Nat
  | array t | fixedArray t _ => depth t + 1
  | tuple ts => maxDepth ts + 1
  | _ => 0

/-- The greatest depth. -/
def maxDepth : List AbiType → Nat
  | [] => 0
  | t :: ts => max (depth t) (maxDepth ts)

end

/-- A type that is no tuple and no array. -/
def IsLeaf : AbiType → Prop
  | array _ | fixedArray .. | tuple _ => False
  | _ => True

/-- The arrays around a type. -/
def layers : AbiType → Nat
  | array t | fixedArray t _ => layers t + 1
  | _ => 0

mutual

/-- No fixed array and no tuple is without elements. -/
def Formed : AbiType → Prop
  | array t => Formed t
  | fixedArray t k => Formed t ∧ 0 < k
  | tuple ts => ts ≠ [] ∧ AllFormed ts
  | _ => True

/-- `Formed`, of each type. -/
def AllFormed : List AbiType → Prop
  | [] => True
  | t :: ts => Formed t ∧ AllFormed ts

end

theorem allFormed_iff {ts : List AbiType} : AllFormed ts ↔ ∀ t ∈ ts, Formed t := by
  induction ts with
  | nil => exact ⟨fun _ => forall_mem_nil _, fun _ => trivial⟩
  | cons t ts ih => rw [AllFormed, ih, forall_mem_cons]

theorem maxDepth_le_iff {ts : List AbiType} {n : Nat} :
    maxDepth ts ≤ n ↔ ∀ t ∈ ts, depth t ≤ n := by
  induction ts with
  | nil => exact ⟨fun _ => forall_mem_nil _, fun _ => n.zero_le⟩
  | cons t ts ih => rw [maxDepth, Nat.max_le, ih, forall_mem_cons]

theorem IsLeaf.depth_eq {t : AbiType} (h : IsLeaf t) : depth t = 0 := by
  cases t <;> first | exact h.elim | rfl

theorem IsLeaf.layers_eq {t : AbiType} (h : IsLeaf t) : layers t = 0 := by
  cases t <;> first | exact h.elim | rfl

theorem IsLeaf.formed {t : AbiType} (h : IsLeaf t) : Formed t := by
  cases t <;> first | exact h.elim | trivial

theorem layers_le_depth (t : AbiType) : layers t ≤ depth t := by
  induction t using layers.induct with
  | case1 t ih | case2 t k ih => exact Nat.succ_le_succ ih
  | case3 t h₁ h₂ =>
    rw [layers]
    · exact Nat.zero_le _
    all_goals assumption

end AbiType

/-! ## What an accepted text looks like -/

/-- A type of this many levels is written like this. -/
inductive Spelled : Nat → Text → AbiType → Prop where
  | name {n : Nat} {w : Text} {t : AbiType} (hw : ∀ c ∈ w, isIdent c = true) (ht : t.IsLeaf) :
      Spelled (n + 1) w t
  | array {n : Nat} {w : Text} {t : AbiType} (h : Spelled n w t) :
      Spelled n (w ++ ['[', ']']) (.array t)
  | fixedArray {n k : Nat} {w ds : Text} {t : AbiType} (hds : ∀ c ∈ ds, c.isDigit = true)
      (hk : 0 < k) (h : Spelled n w t) : Spelled n (w ++ '[' :: (ds ++ [']'])) (.fixedArray t k)
  | tuple {n : Nat} {items : List (Text × AbiType)} (hne : items ≠ [])
      (h : ∀ x ∈ items, Spelled n x.1 x.2) :
      Spelled (n + 1) ('(' :: (join [','] (items.map Prod.fst) ++ [')']))
        (.tuple (items.map Prod.snd))

theorem Spelled.formed {n : Nat} {w : Text} {t : AbiType} (h : Spelled n w t) : t.Formed := by
  induction h with
  | name hw ht => exact ht.formed
  | array _ ih => exact ih
  | fixedArray _ hk _ ih => exact ⟨ih, hk⟩
  | tuple hne _ ih =>
    refine ⟨fun h => hne (map_eq_nil_iff.mp h), AbiType.allFormed_iff.mpr fun t ht => ?_⟩
    obtain ⟨x, hx, rfl⟩ := mem_map.mp ht
    exact ih x hx

/-! ## Brackets -/

/-- A character between two types. -/
def IsBreak (c : Char) : Prop := c = '(' ∨ c = ',' ∨ c = ')'

/-- No stretch of the text, without a parenthesis or a comma in it, has more opening brackets than
this. -/
def Within (n : Nat) (w : Text) : Prop :=
  ∀ v, v <:+: w → (∀ c ∈ v, ¬ IsBreak c) → v.count '[' ≤ n

section Within

variable {n m : Nat} {v w s : Text}

theorem Within.mono (h : Within n w) (hnm : n ≤ m) : Within m w :=
  fun v hv hc => (h v hv hc).trans hnm

theorem Within.of_infix (h : Within n w) (hvw : v <:+: w) : Within n v :=
  fun u hu hc => h u (hu.trans hvw) hc

theorem within_of_count (h : w.count '[' ≤ n) : Within n w :=
  fun _ hv _ => (hv.sublist.count_le _).trans h

theorem within_break {c : Char} (hc : IsBreak c) :
    Within n (v ++ c :: w) ↔ Within n v ∧ Within n w := by
  refine ⟨fun h => ⟨h.of_infix (prefix_append _ _).isInfix,
    h.of_infix ((suffix_cons c w).trans (suffix_append _ _)).isInfix⟩, ?_⟩
  rintro ⟨hv, hw⟩ u ⟨a, b, hab⟩ hu
  rw [append_assoc] at hab
  rcases append_eq_append_iff.mp hab with ⟨a', rfl, ha'⟩ | ⟨a', rfl, ha'⟩
  · -- the stretch starts before the break
    rcases append_eq_append_iff.mp ha' with ⟨b', rfl, -⟩ | ⟨b', rfl, hb'⟩
    · exact hv u ⟨a, b', append_assoc _ _ _⟩ hu
    · rcases b' with _ | ⟨d, b'⟩
      · rw [append_nil]
        exact hv a' (suffix_append a a').isInfix fun d hd => hu d (mem_append_left _ hd)
      · obtain ⟨rfl, -⟩ := cons.inj hb'
        exact absurd hc (hu c (mem_append_right _ mem_cons_self))
  · rcases a' with _ | ⟨d, a'⟩
    · rcases u with _ | ⟨d, u⟩
      · exact Nat.zero_le _
      · obtain ⟨rfl, -⟩ := cons.inj ha'
        exact absurd hc (hu c mem_cons_self)
    · obtain ⟨rfl, rfl⟩ := cons.inj ha'
      exact hw u ⟨a', b, append_assoc _ _ _⟩ hu

theorem within_nil : Within n [] := within_of_count (Nat.zero_le _)

theorem within_join {ws : List Text} : Within n (join [','] ws) ↔ ∀ w ∈ ws, Within n w := by
  induction ws with
  | nil => exact ⟨fun _ => forall_mem_nil _, fun _ => within_nil⟩
  | cons w ws ih =>
    rw [forall_mem_cons]
    cases ws with
    | nil =>
      rw [join, intercalate_singleton]
      exact (and_iff_left (forall_mem_nil _)).symm
    | cons w' ws =>
      rw [← ih, join, intercalate_cons_cons, append_assoc]
      exact within_break (.inr (.inl rfl))

theorem suffix_append_cases (h : v <:+ w ++ s) : v <:+ s ∨ ∃ u, u <:+ w ∧ v = u ++ s := by
  obtain ⟨a, ha⟩ := h
  rcases append_eq_append_iff.mp ha with ⟨a', rfl, hv⟩ | ⟨a', -, hs⟩
  · exact .inr ⟨a', suffix_append a a', hv⟩
  · exact .inl ⟨a', hs.symm⟩

theorem within_append (hw : Within n w) (hnm : n ≤ m)
    (hend : ∀ v, v <:+ w → (∀ c ∈ v, ¬ IsBreak c) → v.count '[' + s.count '[' ≤ m) :
    Within m (w ++ s) := by
  rintro u ⟨a, b, hab⟩ hu
  rw [append_assoc] at hab
  rcases append_eq_append_iff.mp hab with ⟨a', rfl, ha'⟩ | ⟨a', rfl, rfl⟩
  · rcases append_eq_append_iff.mp ha' with ⟨b', rfl, -⟩ | ⟨b', rfl, rfl⟩
    · exact (hw u ⟨a, b', append_assoc _ _ _⟩ hu).trans hnm
    · have hb : (b' ++ b).count '[' = b'.count '[' + b.count '[' := count_append
      have hle := hend a' (suffix_append a a') fun c hc => hu c (mem_append_left _ hc)
      rw [count_append]
      omega
  · have hle := hend [] nil_suffix (forall_mem_nil _)
    simp only [count_append, count_nil] at hle
    omega

end Within

/-! ## Depth and brackets -/

section Depth

variable {n N k : Nat} {w ds : Text} {t : AbiType}

variable {c : Char}

theorem not_isBreak_of_isDigit (h : c.isDigit) : ¬ IsBreak c := by
  rintro (rfl | rfl | rfl) <;> cases h

theorem ne_bracket_of_isDigit (h : c.isDigit) : c ≠ '[' := by
  rintro rfl
  cases h

theorem ne_bracket_of_isIdent (h : isIdent c) : c ≠ '[' := by
  rintro rfl
  cases h

theorem count_suffix (hds : ∀ c ∈ ds, c.isDigit) : ('[' :: (ds ++ [']'])).count '[' = 1 := by
  have hnot : '[' ∉ ds := fun h => ne_bracket_of_isDigit (hds _ h) rfl
  rw [count_cons_self, count_append, count_eq_zero.mpr hnot]
  rfl

theorem not_isBreak_suffix (hds : ∀ c ∈ ds, c.isDigit) :
    ∀ c ∈ '[' :: (ds ++ [']']), ¬ IsBreak c := by
  intro c hc
  rcases List.mem_cons.mp hc with rfl | hc
  · rintro (h | h | h) <;> cases h
  · rcases mem_append.mp hc with hc | hc
    · exact not_isBreak_of_isDigit (hds c hc)
    · obtain rfl := mem_singleton.mp hc
      rintro (h | h | h) <;> cases h

theorem Spelled.exists_suffix (h : Spelled n w t) : ∃ pre suf, w = pre ++ suf ∧
    (∀ c ∈ suf, ¬ IsBreak c) ∧ suf.count '[' = t.layers := by
  have hmore {w s : Text} {m : Nat} (hs : ∀ c ∈ s, ¬ IsBreak c) (hcount : s.count '[' = 1)
      (h : ∃ pre suf, w = pre ++ suf ∧ (∀ c ∈ suf, ¬ IsBreak c) ∧ suf.count '[' = m) :
      ∃ pre suf, w ++ s = pre ++ suf ∧ (∀ c ∈ suf, ¬ IsBreak c) ∧ suf.count '[' = m + 1 := by
    obtain ⟨pre, suf, rfl, hsuf, rfl⟩ := h
    refine ⟨pre, suf ++ s, append_assoc _ _ _, ?_, by rw [count_append, hcount]⟩
    exact forall_mem_append.mpr ⟨hsuf, hs⟩
  induction h with
  | name hw ht => exact ⟨_, [], (append_nil _).symm, forall_mem_nil _, ht.layers_eq.symm⟩
  | array _ ih => exact hmore (not_isBreak_suffix (forall_mem_nil _)) rfl ih
  | fixedArray hds _ _ ih => exact hmore (not_isBreak_suffix hds) (count_suffix hds) ih
  | tuple => exact ⟨_, [], (append_nil _).symm, forall_mem_nil _, rfl⟩

theorem Spelled.layers_le (h : Spelled n w t) (hw : Within N w) : t.layers ≤ N := by
  obtain ⟨pre, suf, rfl, hsuf, hcount⟩ := h.exists_suffix
  exact hcount ▸ hw suf (suffix_append pre suf).isInfix hsuf

theorem Spelled.depth_le (h : Spelled n w t) (hw : Within N w) :
    t.depth + (N + 1) ≤ n * (N + 1) + t.layers := by
  induction h with
  | @name n w t hident ht =>
    rw [ht.depth_eq, ht.layers_eq, Nat.zero_add, Nat.add_zero]
    exact Nat.le_mul_of_pos_left _ n.succ_pos
  | @array n w t h ih | @fixedArray n k w ds t hds hk h ih =>
    have := ih (hw.of_infix (prefix_append w _).isInfix)
    rw [AbiType.depth, AbiType.layers]
    omega
  | @tuple n items hne h ih =>
    have hjoin : Within N (join [','] (items.map Prod.fst)) :=
      hw.of_infix ⟨['('], [')'], rfl⟩
    have hitems : AbiType.maxDepth (items.map Prod.snd) + 1 ≤ n * (N + 1) := by
      have hpos : 0 < n * (N + 1) := by
        obtain ⟨x, hx⟩ := exists_mem_of_ne_nil items hne
        have hx' := within_join.mp hjoin x.1 (mem_map_of_mem hx)
        have := ih x hx hx'
        have := (h x hx).layers_le hx'
        omega
      refine Nat.succ_le_of_lt (Nat.lt_of_le_pred hpos ?_)
      refine AbiType.maxDepth_le_iff.mpr fun t ht => ?_
      obtain ⟨x, hx, rfl⟩ := mem_map.mp ht
      have hx' := within_join.mp hjoin x.1 (mem_map_of_mem hx)
      have := ih x hx hx'
      have := (h x hx).layers_le hx'
      exact Nat.le_pred_of_lt (by omega)
    have hlayers : (AbiType.tuple (items.map Prod.snd)).layers = 0 := rfl
    rw [AbiType.depth, hlayers, Nat.succ_mul]
    omega

theorem Spelled.depth_lt (h : Spelled n w t) (hw : Within N w) : t.depth < n * (N + 1) := by
  have := h.depth_le hw
  have := h.layers_le hw
  omega

theorem Spelled.within_depth (h : Spelled n w t) : Within t.depth w ∧
    ∀ v, v <:+ w → (∀ c ∈ v, ¬ IsBreak c) → v.count '[' ≤ t.layers := by
  have hmore {w s : Text} {t : AbiType} (hs : s.count '[' = 1) (h : Within t.depth w ∧
      ∀ v, v <:+ w → (∀ c ∈ v, ¬ IsBreak c) → v.count '[' ≤ t.layers) :
      Within (t.depth + 1) (w ++ s) ∧
        ∀ v, v <:+ w ++ s → (∀ c ∈ v, ¬ IsBreak c) → v.count '[' ≤ t.layers + 1 := by
    obtain ⟨hw, hend⟩ := h
    refine ⟨within_append hw (Nat.le_succ _) fun v hv hc => ?_, fun v hv hc => ?_⟩
    · rw [hs]
      exact Nat.succ_le_succ ((hend v hv hc).trans t.layers_le_depth)
    · rcases suffix_append_cases hv with hv | ⟨u, hu, rfl⟩
      · exact (hv.sublist.count_le _).trans (hs.trans_le (Nat.le_add_left 1 _))
      · rw [count_append, hs]
        exact Nat.succ_le_succ (hend u hu fun c hc' => hc c (mem_append_left _ hc'))
  induction h with
  | @name n w t hw ht =>
    have hzero : w.count '[' = 0 :=
      count_eq_zero.mpr fun h => ne_bracket_of_isIdent (hw _ h) rfl
    refine ⟨within_of_count (hzero.trans_le (Nat.zero_le _)), fun v hv _ => ?_⟩
    exact (hv.sublist.count_le _).trans (hzero.trans_le (Nat.zero_le _))
  | array _ ih => exact hmore rfl ih
  | fixedArray hds _ _ ih => exact hmore (count_suffix hds) ih
  | @tuple n items hne h ih =>
    refine ⟨?_, fun v hv hc => ?_⟩
    · refine (within_break (v := []) (.inl rfl)).mpr ⟨within_nil,
        (within_break (w := []) (.inr (.inr rfl))).mpr
          ⟨within_join.mpr fun w hw => ?_, within_nil⟩⟩
      obtain ⟨x, hx, rfl⟩ := mem_map.mp hw
      refine (ih x hx).1.mono (Nat.le_succ_of_le ?_)
      exact AbiType.maxDepth_le_iff.mp le_rfl x.2 (mem_map_of_mem hx)
    · -- the text ends with a parenthesis
      rw [← cons_append] at hv
      rcases suffix_append_cases hv with hv | ⟨u, -, rfl⟩
      · refine (hv.sublist.count_le _).trans (Nat.le_of_eq rfl)
      · have hlast := hc ')' (mem_append_right u (mem_singleton_self _))
        exact absurd (.inr (.inr rfl)) hlast

end Depth

/-! ## What is parsed -/

section Parsed

variable {debug : Text → Text} {structsOk : Bool} {fname full sig : Text} {t : AbiType}
variable {s rest w : Text} {n fuel : Nat}

theorem isLeaf_of_baseType {ident : Text} (h : baseType debug structsOk fname ident = .ok t) :
    t.IsLeaf := by
  have hsized (h : sizedType debug structsOk fname ident = .ok t) : t.IsLeaf := by
    rw [sizedType, structType] at h
    repeat' split at h
    all_goals cases h
    all_goals trivial
  rw [baseType] at h
  split_ifs at h
  · cases h; trivial
  · cases h; trivial
  · cases h; trivial
  · cases h; trivial
  · cases h; trivial
  · cases h; trivial
  · exact (fail_ne_ok h).elim
  · exact (fail_ne_ok h).elim
  · exact hsized h

theorem spelled_of_arraySuffixes {b : AbiType}
    (h : arraySuffixes debug fname full fuel b s = .ok (t, rest)) (hb : Spelled n w b) :
    ∃ u, s = u ++ rest ∧ Spelled n (w ++ u) t := by
  induction fuel generalizing b s w with
  | zero =>
    rw [arraySuffixes] at h
    · obtain ⟨rfl, rfl⟩ := Prod.mk.inj (Except.ok.inj h)
      exact ⟨[], rfl, (append_nil w).symm ▸ hb⟩
    · rintro n s' ⟨⟩
  | succ fuel ih =>
    by_cases hs : ∃ s', s = '[' :: s'
    · obtain ⟨s, rfl⟩ := hs
      rw [arraySuffixes] at h
      have hdigits : ∀ c ∈ s.takeWhile Char.isDigit, c.isDigit :=
        fun c hc => mem_takeWhile_imp hc
      have hsplit := @List.takeWhile_append_dropWhile _ Char.isDigit s
      split at h
      next rest' hdrop =>
        rw [hdrop] at hsplit
        split_ifs at h with hd
        · rw [hd, nil_append] at hsplit
          obtain ⟨u, rfl, hu⟩ := ih h (.array hb)
          refine ⟨'[' :: ']' :: u, by rw [← hsplit]; rfl, ?_⟩
          rwa [append_assoc] at hu
        · cases hk : parseUnsigned usizeMax (s.takeWhile Char.isDigit) with
          | none =>
            rw [hk] at h
            exact (fail_ne_ok h).elim
          | some k =>
            rw [hk] at h
            dsimp only at h
            obtain ⟨hzero, h⟩ := if_fail_ok.mp h
            obtain ⟨u, rfl, hu⟩ := ih h (.fixedArray hdigits (Nat.pos_of_ne_zero hzero) hb)
            generalize s.takeWhile Char.isDigit = ds at hsplit hu
            refine ⟨'[' :: (ds ++ [']']) ++ u, ?_, append_assoc w _ u ▸ hu⟩
            rw [← hsplit]
            simp only [cons_append, append_assoc, nil_append]
      next => exact (fail_ne_ok h).elim
    · rw [arraySuffixes] at h
      · obtain ⟨rfl, rfl⟩ := Prod.mk.inj (Except.ok.inj h)
        exact ⟨[], rfl, (append_nil w).symm ▸ hb⟩
      · rintro n s' - rfl
        exact hs ⟨s', rfl⟩

variable {ts : List AbiType}

variable {item : Text → Except Stop (AbiType × Text)}

theorem spelled_of_tupleItems
    (hitem : ∀ s t rest, item s = .ok (t, rest) → ∃ u, s = u ++ rest ∧ Spelled n u t)
    (h : tupleItems debug fname full item fuel ts s = .ok (t, rest)) :
    ∃ items : List (Text × AbiType), items ≠ [] ∧ (∀ x ∈ items, Spelled n x.1 x.2) ∧
      t = .tuple (ts ++ items.map Prod.snd) ∧
      s = join [','] (items.map Prod.fst) ++ ')' :: rest := by
  induction fuel generalizing ts s with
  | zero => exact (fail_ne_ok h).elim
  | succ fuel ih =>
    rw [tupleItems] at h
    obtain ⟨⟨t', s'⟩, ht', hloop⟩ := bind_eq_ok.mp h
    obtain ⟨u, hu, hsp⟩ := hitem s t' s' ht'
    dsimp only at hloop
    split at hloop
    next s' =>
      obtain ⟨items, hne, hitems, rfl, rfl⟩ := ih hloop
      refine ⟨(u, t') :: items, cons_ne_nil _ _, forall_mem_cons.mpr ⟨hsp, hitems⟩,
        ?_, ?_⟩
      · rw [append_assoc]
        rfl
      · obtain ⟨x, items, rfl⟩ := exists_cons_of_ne_nil hne
        change s = [','].intercalate (u :: x.1 :: items.map Prod.fst) ++ ')' :: rest
        rw [hu, intercalate_cons_cons, append_assoc, append_assoc]
        rfl
    next s' =>
      obtain ⟨rfl, rfl⟩ := Prod.mk.inj (Except.ok.inj hloop)
      exact ⟨[(u, t')], cons_ne_nil _ _, forall_mem_singleton.mpr hsp, rfl,
        by rw [hu, map_singleton, join, intercalate_singleton]⟩
    next => exact (fail_ne_ok hloop).elim

theorem spelled_of_parseType (h : parseType debug structsOk fname full n s = .ok (t, rest)) :
    ∃ u, s = u ++ rest ∧ Spelled n u t := by
  induction n generalizing s t rest with
  | zero => exact (fail_ne_ok h).elim
  | succ n ih =>
    rw [parseType] at h
    by_cases hparen : s.head? = some '('
    · obtain ⟨s, rfl⟩ : ∃ s', s = '(' :: s' := ⟨s.tail, (cons_head?_tail hparen).symm⟩
      rw [if_pos hparen, tail_cons] at h
      by_cases hempty : s.head? = some ')'
      · rw [if_pos hempty] at h
        exact (fail_ne_ok h).elim
      · rw [if_neg hempty] at h
        obtain ⟨⟨b, s'⟩, hb, hsuffix⟩ := bind_eq_ok.mp h
        obtain ⟨items, hne, hitems, rfl, rfl⟩ := spelled_of_tupleItems (fun _ _ _ => ih) hb
        obtain ⟨u, rfl, hu⟩ := spelled_of_arraySuffixes hsuffix (.tuple hne hitems)
        refine ⟨_, ?_, hu⟩
        simp only [cons_append, append_assoc, nil_append]
    · rw [if_neg hparen] at h
      dsimp only at h
      split_ifs at h with hnil
      · exact (fail_ne_ok h).elim
      · obtain ⟨b, hleaf, hsuffix⟩ := bind_eq_ok.mp h
        have hident : ∀ c ∈ s.takeWhile isIdent, isIdent c :=
          fun c hc => mem_takeWhile_imp hc
        obtain ⟨u, hrest, hu⟩ := spelled_of_arraySuffixes hsuffix
          (.name hident (isLeaf_of_baseType hleaf))
        refine ⟨_, ?_, hu⟩
        rw [append_assoc, ← hrest, takeWhile_append_dropWhile]

theorem spelled_of_signatureItems {ts' : List AbiType}
    (hitem : ∀ s t rest, item s = .ok (t, rest) → ∃ u, s = u ++ rest ∧ Spelled n u t)
    (h : signatureItems debug fname sig item fuel ts s = .ok ts') :
    ∃ items : List (Text × AbiType), items ≠ [] ∧ (∀ x ∈ items, Spelled n x.1 x.2) ∧
      ts' = ts ++ items.map Prod.snd ∧ s = join [','] (items.map Prod.fst) := by
  induction fuel generalizing ts s with
  | zero => exact (fail_ne_ok h).elim
  | succ fuel ih =>
    rw [signatureItems] at h
    obtain ⟨⟨t', s'⟩, ht', hloop⟩ := bind_eq_ok.mp h
    obtain ⟨u, hu, hsp⟩ := hitem s t' s' ht'
    dsimp only at hloop
    split at hloop
    next s' =>
      obtain ⟨items, hne, hitems, rfl, rfl⟩ := ih hloop
      refine ⟨(u, t') :: items, cons_ne_nil _ _, forall_mem_cons.mpr ⟨hsp, hitems⟩,
        ?_, ?_⟩
      · rw [append_assoc]
        rfl
      · obtain ⟨x, items, rfl⟩ := exists_cons_of_ne_nil hne
        change s = [','].intercalate (u :: x.1 :: items.map Prod.fst)
        rw [hu, intercalate_cons_cons, append_assoc]
        rfl
    next s' =>
      obtain rfl := Except.ok.inj hloop
      exact ⟨[(u, t')], cons_ne_nil _ _, forall_mem_singleton.mpr hsp, rfl,
        by rw [hu, append_nil, map_singleton, join, intercalate_singleton]⟩
    next => exact (fail_ne_ok hloop).elim

theorem spelled_of_parseSingleType (h : parseSingleType debug structsOk fname s = .ok t) :
    Spelled (Eip712.maxDepth + 1) s t := by
  obtain ⟨-, -, h⟩ := bind_eq_ok.mp h
  obtain ⟨⟨t', rest⟩, hparse, h⟩ := bind_eq_ok.mp h
  obtain ⟨hrest, h⟩ := if_fail_ok.mp h
  obtain rfl := Except.ok.inj h
  obtain ⟨u, rfl, hu⟩ := spelled_of_parseType hparse
  rwa [not_not.mp hrest, append_nil]

theorem spelled_of_parseSignature {canonical : Text}
    (h : parseSignature debug fname s = .ok (canonical, ts)) :
    ∃ (name : Text) (items : List (Text × AbiType)), (∀ c ∈ name, isIdent c) ∧
      (∀ x ∈ items, Spelled (Eip712.maxDepth + 1) x.1 x.2) ∧ ts = items.map Prod.snd ∧
      s = name ++ '(' :: (join [','] (items.map Prod.fst) ++ [')']) := by
  obtain ⟨-, -, h⟩ := bind_eq_ok.mp h
  split at h
  · exact (fail_ne_ok h).elim
  next name rest hsplit =>
    obtain ⟨hname, h⟩ := if_fail_ok.mp h
    obtain ⟨hend, h⟩ := if_fail_ok.mp h
    rw [not_or, not_or, Bool.not_eq_false] at hname
    obtain rfl := splitOnce_eq_some hsplit
    -- the text ends with a parenthesis, which stands behind the first one
    obtain ⟨rest, rfl⟩ : ∃ r, rest = r ++ [')'] := by
      rw [Bool.not_eq_false, endsWith, isSuffixOf_iff_suffix, append_cons] at hend
      have hend : [')'] <:+ (name ++ ['(']) ++ rest := hend
      rcases suffix_append_cases hend with ⟨r, hr⟩ | ⟨u, hu, hr⟩
      · exact ⟨r, hr.symm⟩
      · rcases u with _ | ⟨c, u⟩
        · exact ⟨[], hr.symm⟩
        · obtain ⟨rfl, hnone⟩ := cons.inj hr
          obtain ⟨rfl, -⟩ := append_eq_nil_iff.mp hnone.symm
          have := singleton_suffix_iff_getLast?_eq_some.mp hu
          rw [getLast?_concat] at this
          cases this
    dsimp only at h
    rw [dropLast_concat] at h
    have hident := all_eq_true.mp hname.2.2
    by_cases hnil : rest = []
    · subst hnil
      rw [if_pos rfl] at h
      obtain ⟨types, htypes, h⟩ := bind_eq_ok.mp h
      obtain rfl := Except.ok.inj htypes
      obtain ⟨-, rfl⟩ := Prod.mk.inj (Except.ok.inj h)
      exact ⟨name, [], hident, forall_mem_nil _, rfl, rfl⟩
    · rw [if_neg hnil] at h
      obtain ⟨types, htypes, h⟩ := bind_eq_ok.mp h
      obtain ⟨-, rfl⟩ := Prod.mk.inj (Except.ok.inj h)
      obtain ⟨items, -, hitems, rfl, rfl⟩ := spelled_of_signatureItems
        (fun _ _ _ => spelled_of_parseType) htypes
      exact ⟨name, items, hident, hitems, rfl, rfl⟩

theorem Accepted.depth_lt {N : Nat} (h : Accepted debug fname s ts) (hs : Within N s) :
    ∀ t ∈ ts, t.depth < (Eip712.maxDepth + 1) * (N + 1) := by
  cases h with
  | single h => exact forall_mem_singleton.mpr ((spelled_of_parseSingleType h).depth_lt hs)
  | items h =>
    intro t ht
    have hdepth := (spelled_of_parseSingleType h).depth_lt hs
    have hle := AbiType.maxDepth_le_iff.mp le_rfl t ht
    rw [AbiType.depth] at hdepth
    omega
  | signature h =>
    obtain ⟨name, items, -, hitems, rfl, rfl⟩ := spelled_of_parseSignature h
    have hjoin := ((within_break (.inr (.inr rfl))).mp ((within_break (.inl rfl)).mp hs).2).1
    intro t ht
    obtain ⟨x, hx, rfl⟩ := mem_map.mp ht
    exact (hitems x hx).depth_lt (within_join.mp hjoin x.1 (mem_map_of_mem hx))

theorem Accepted.within {D : Nat} (h : Accepted debug fname s ts) (hts : ∀ t ∈ ts, t.depth ≤ D) :
    Within (D + 1) s := by
  cases h with
  | single h =>
    exact (spelled_of_parseSingleType h).within_depth.1.mono
      (Nat.le_succ_of_le (hts _ (mem_singleton_self _)))
  | items h =>
    refine (spelled_of_parseSingleType h).within_depth.1.mono ?_
    exact Nat.succ_le_succ (AbiType.maxDepth_le_iff.mpr hts)
  | signature h =>
    obtain ⟨name, items, hname, hitems, rfl, rfl⟩ := spelled_of_parseSignature h
    have hzero : name.count '[' = 0 :=
      count_eq_zero.mpr fun h => ne_bracket_of_isIdent (hname _ h) rfl
    refine (within_break (.inl rfl)).mpr ⟨within_of_count (hzero.trans_le (Nat.zero_le _)),
      (within_break (.inr (.inr rfl))).mpr ⟨within_join.mpr fun w hw => ?_, within_nil⟩⟩
    obtain ⟨x, hx, rfl⟩ := mem_map.mp hw
    exact (hitems x hx).within_depth.1.mono
      (Nat.le_succ_of_le (hts x.2 (mem_map_of_mem hx)))

theorem Accepted.formed (h : Accepted debug fname s ts) : AbiType.AllFormed ts := by
  cases h with
  | single h => exact ⟨(spelled_of_parseSingleType h).formed, trivial⟩
  | items h => exact (spelled_of_parseSingleType h).formed.2
  | signature h =>
    obtain ⟨name, items, -, hitems, rfl, -⟩ := spelled_of_parseSignature h
    refine AbiType.allFormed_iff.mpr fun t ht => ?_
    obtain ⟨x, hx, rfl⟩ := mem_map.mp ht
    exact (hitems x hx).formed

theorem exists_depth_iff {K : Set Text} :
    (∃ D, ∀ s ∈ K, ∀ ts, Accepted debug fname s ts → ∀ t ∈ ts, t.depth ≤ D) ↔
      ∃ N, ∀ s ∈ K, ∀ ts, Accepted debug fname s ts → Within N s := by
  constructor
  · rintro ⟨D, h⟩
    exact ⟨D + 1, fun s hs ts hr => hr.within (h s hs ts hr)⟩
  · rintro ⟨N, h⟩
    exact ⟨_, fun s hs ts hr t ht => (hr.depth_lt (h s hs ts hr) t ht).le⟩

end Parsed

end Synsema.Abi
