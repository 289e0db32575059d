import Synsema.Abi.Signature
import Synsema.Abi.Roundtrip

/-!
# Sizes of types and lists of types

What types from an accepted text cost: whether `static_size` and `head_size` stay in a `usize`, and
how long the lists are that `Dec::elem` builds, with a type for each element of an array, before it
looks at the elements (`blockchain_abi.rs`).

An array says its length in the data, which is checked against what is left of the data.  A fixed
array says it in its type: of static elements the heads are checked where the list around it is
read, of dynamic ones nothing is checked before the list is built.
-/

namespace Synsema.Abi

open Text Bytesutil List
open Except (bind_eq_ok)
open Blockchain (Stop Slice At usizeAdd usizeAdd_eq)

/-! ## Sizes -/

namespace AbiType

theorem induction {P : AbiType → Prop} (leaf : ∀ t, IsLeaf t → P t)
    (array : ∀ t, P t → P (.array t)) (fixedArray : ∀ t k, P t → P (.fixedArray t k))
    (tuple : ∀ ts, (∀ t ∈ ts, P t) → P (.tuple ts)) (t : AbiType) : P t := by
  refine @AbiType.rec P (fun ts => ∀ t ∈ ts, P t) ?_ ?_ ?_ ?_ ?_ ?_ ?_
    array (fun t k => fixedArray t k) tuple ?_ (forall_mem_nil _)
    (fun t ts ht hts => forall_mem_cons.mpr ⟨ht, hts⟩) t
  all_goals intros
  all_goals exact leaf _ trivial

mutual

/-- The words of a value, were no type dynamic, and were there no end of numbers. -/
@[grind] def words : AbiType → Nat
  | fixedArray t k => words t * k
  | tuple ts => sumWords ts
  | _ => 1

/-- The words of values. -/
def sumWords : List AbiType → Nat
  | [] => 0
  | t :: ts => words t + sumWords ts

end

mutual

/-- `static_size`, none where a product or a sum does not fit. -/
def checkedStaticSize : AbiType → Option Nat
  | fixedArray t k => do
    let n ← checkedStaticSize t
    if n * k < 2 ^ 64 then some (n * k) else none
  | tuple ts => checkedSum 0 ts
  | _ => some 32

/-- `map(static_size).sum()`, from a sum on. -/
def checkedSum : Nat → List AbiType → Option Nat
  | acc, [] => some acc
  | acc, t :: ts => do
    let n ← checkedStaticSize t
    if acc + n < 2 ^ 64 then checkedSum (acc + n) ts else none

end

/-- `head_size`, none where `static_size` does not fit. -/
def checkedHeadSize (t : AbiType) : Option Nat :=
  if t.isDynamic then some 32 else checkedStaticSize t

variable {t : AbiType} {ts : List AbiType}

theorem words_of_isLeaf (h : IsLeaf t) : words t = 1 := by
  cases t <;> first | exact h.elim | rfl

theorem checkedStaticSize_of_isLeaf (h : IsLeaf t) : checkedStaticSize t = some 32 := by
  cases t <;> first | exact h.elim | rfl

theorem staticSize_of_isLeaf (h : IsLeaf t) : staticSize t = 32 := by
  cases t <;> first | exact h.elim | rfl

theorem words_pos (h : Formed t) : 0 < words t := by
  induction t using AbiType.induction with
  | leaf t ht => exact words_of_isLeaf ht ▸ Nat.one_pos
  | array t ih => exact Nat.one_pos
  | fixedArray t k ih => exact Nat.mul_pos (ih h.1) h.2
  | tuple ts ih =>
    obtain ⟨hne, hall⟩ := h
    obtain ⟨t, ts, rfl⟩ := exists_cons_of_ne_nil hne
    exact Nat.add_pos_left (ih t mem_cons_self hall.1) _

theorem checkedStaticSize_eq (h : Formed t) :
    checkedStaticSize t = if 32 * words t < 2 ^ 64 then some (32 * words t) else none := by
  induction t using AbiType.induction with
  | leaf t ht => rw [checkedStaticSize_of_isLeaf ht, words_of_isLeaf ht]; rfl
  | array t ih => rfl
  | fixedArray t k ih =>
    rw [checkedStaticSize, ih h.1, words]
    have hle : words t ≤ words t * k := Nat.le_mul_of_pos_right _ h.2
    by_cases ht : 32 * words t < 2 ^ 64
    · rw [if_pos ht, Option.bind_eq_bind, Option.bind_some, Nat.mul_assoc]
    · rw [if_neg ht, if_neg (by omega)]
      rfl
  | tuple ts ih =>
    have hsum : ∀ acc, acc < 2 ^ 64 → checkedSum acc ts =
        if acc + 32 * sumWords ts < 2 ^ 64 then some (acc + 32 * sumWords ts) else none := by
      have hall := allFormed_iff.mp h.2
      clear h
      induction ts with
      | nil =>
        intro acc hacc
        rw [checkedSum, sumWords, Nat.mul_zero, Nat.add_zero, if_pos hacc]
      | cons t ts ihs =>
        intro acc hacc
        obtain ⟨ht, hts⟩ := forall_mem_cons.mp hall
        rw [checkedSum, ih t mem_cons_self ht, sumWords, Nat.mul_add]
        by_cases hw : 32 * words t < 2 ^ 64
        · rw [if_pos hw, Option.bind_eq_bind, Option.bind_some]
          by_cases hfit : acc + 32 * words t < 2 ^ 64
          · rw [if_pos hfit, ihs (fun u hu => ih u (mem_cons_of_mem t hu)) hts _ hfit,
              Nat.add_assoc]
          · rw [if_neg hfit, if_neg (by omega)]
        · rw [if_neg hw, if_neg (by omega)]
          rfl
    rw [checkedStaticSize, hsum 0 (Nat.two_pow_pos 64), words, Nat.zero_add]

theorem checked_iff (h : Formed t) :
    checkedStaticSize t ≠ none ∧ checkedHeadSize t ≠ none ↔ words t < 2 ^ 59 := by
  have hiff : checkedStaticSize t ≠ none ↔ words t < 2 ^ 59 := by
    rw [checkedStaticSize_eq h]
    by_cases hw : 32 * words t < 2 ^ 64
    · rw [if_pos hw]
      exact iff_of_true (Option.some_ne_none _) (by omega)
    · rw [if_neg hw]
      exact iff_of_false (fun hn => hn rfl) (by omega)
  rw [← hiff]
  refine and_iff_left_of_imp fun hs => ?_
  rw [checkedHeadSize]
  split_ifs
  · exact Option.some_ne_none _
  · exact hs

theorem staticSize_eq (t : AbiType) : staticSize t = 32 * words t % 2 ^ 64 := by
  induction t using AbiType.induction with
  | leaf t ht =>
    rw [staticSize_of_isLeaf ht, words_of_isLeaf ht]
    rfl
  | array t ih => rfl
  | fixedArray t k ih =>
    rw [staticSize, words, ih, usizeMul, Nat.mod_mul_mod, Nat.mul_assoc]
  | tuple ts ih =>
    rw [staticSize, words]
    induction ts with
    | nil => rfl
    | cons t ts ihs =>
      rw [sumStaticSize, sumWords, ih t mem_cons_self,
        ihs fun u hu => ih u (mem_cons_of_mem t hu), usizeAdd, ← Nat.add_mod, Nat.mul_add]

/-- The words of a type in a head. -/
@[grind] def headWords (t : AbiType) : Nat := if t.isDynamic then 1 else words t

/-- The words of a head. -/
@[grind] def sumHeadWords : List AbiType → Nat
  | [] => 0
  | t :: ts => headWords t + sumHeadWords ts

theorem sumHeadSize_eq (ts : List AbiType) : sumHeadSize ts = 32 * sumHeadWords ts % 2 ^ 64 := by
  induction ts with
  | nil => rfl
  | cons t ts ih =>
    have hhead : headSize t = 32 * headWords t % 2 ^ 64 := by
      rw [headSize, headWords]
      split_ifs
      · rfl
      · exact staticSize_eq t
    rw [sumHeadSize, sumHeadWords, ih, hhead, usizeAdd, ← Nat.add_mod, Nat.mul_add]

theorem sumHeadWords_replicate (k : Nat) : sumHeadWords (replicate k t) = k * headWords t := by
  induction k with
  | zero => rw [replicate_zero, sumHeadWords, Nat.zero_mul]
  | succ k ih => rw [replicate_succ, sumHeadWords, ih, Nat.succ_mul, Nat.add_comm]

theorem sumHeadWords_of_static (h : anyDynamic ts = false) : sumHeadWords ts = sumWords ts := by
  induction ts with
  | nil => rfl
  | cons t ts ih =>
    obtain ⟨ht, hts⟩ := Bool.or_eq_false_iff.mp h
    rw [sumHeadWords, sumWords, ih hts, headWords, if_neg (Bool.eq_false_iff.mp ht)]

mutual

/-- The words that a value takes at least. -/
def least : AbiType → Nat
  | fixedArray t k => k * if t.isDynamic then 1 + least t else words t
  | tuple ts => sumLeast ts
  | _ => 1

/-- The words that values take at least, those of their head among them. -/
def sumLeast : List AbiType → Nat
  | [] => 0
  | t :: ts => (if t.isDynamic then 1 + least t else words t) + sumLeast ts

end

theorem sumLeast_replicate (k : Nat) :
    sumLeast (replicate k t) = k * if t.isDynamic then 1 + least t else words t := by
  induction k with
  | zero => rw [replicate_zero, sumLeast, Nat.zero_mul]
  | succ k ih => rw [replicate_succ, sumLeast, ih, Nat.succ_mul, Nat.add_comm]

/-- The elements of an array, of a static type, cannot make its head wrap in data that is shorter
than the list of types of one element. -/
structure Fits (t : AbiType) : Prop where
  words_le : words t ≤ 2 ^ 58
  count_le : ∀ u k, t = fixedArray u k → k * words t ≤ 2 ^ 59

mutual

/-- Behind this many words, no fixed array of dynamic elements in a value has more elements than
there are words before it. -/
def Roomy : AbiType → Nat → Prop
  | array t, w => if t.isDynamic then Roomy t (w + 2) else Fits t
  | fixedArray t k, w => t.isDynamic → k ≤ w ∧ Roomy t (w + k)
  | tuple ts, w => anyDynamic ts → sumHeadWords ts ≤ 2 ^ 58 ∧ AllRoomy ts (w + sumHeadWords ts)
  | _, _ => True

/-- `Roomy`, of the values of dynamic types, which stand behind one another. -/
def AllRoomy : List AbiType → Nat → Prop
  | [], _ => True
  | t :: ts, w => if t.isDynamic then Roomy t w ∧ AllRoomy ts (w + least t) else AllRoomy ts w

end

variable {w : Nat}

theorem Roomy.mono {w' : Nat} (h : Roomy t w) (hw : w ≤ w') : Roomy t w' := by
  induction t using AbiType.induction generalizing w w' with
  | leaf t ht => cases t <;> first | exact ht.elim | trivial
  | array t ih =>
    rw [Roomy] at h ⊢
    split_ifs at h ⊢
    · exact ih h (Nat.add_le_add_right hw 2)
    · exact h
  | fixedArray t k ih =>
    intro ht
    obtain ⟨hk, h⟩ := h ht
    exact ⟨hk.trans hw, ih h (Nat.add_le_add_right hw k)⟩
  | tuple ts ih =>
    have hall : ∀ w w', AllRoomy ts w → w ≤ w' → AllRoomy ts w' := by
      clear h
      induction ts with
      | nil => exact fun _ _ _ _ => trivial
      | cons t ts ihs =>
        intro w w' h hw
        have ihs := ihs (fun u hu => ih u (mem_cons_of_mem t hu))
        rw [AllRoomy] at h ⊢
        split_ifs at h ⊢
        · exact ⟨ih t mem_cons_self h.1 hw, ihs _ _ h.2 (Nat.add_le_add_right hw _)⟩
        · exact ihs _ _ h hw
    intro ht
    obtain ⟨hs, h⟩ := h ht
    exact ⟨hs, hall _ _ h (Nat.add_le_add_right hw _)⟩

theorem allRoomy_replicate {k : Nat} (h : 0 < k → t.isDynamic → Roomy t w) :
    AllRoomy (replicate k t) w := by
  induction k generalizing w with
  | zero => trivial
  | succ k ih =>
    rw [replicate_succ, AllRoomy]
    split_ifs with ht
    · have := h k.succ_pos ht
      exact ⟨this, ih fun _ _ => this.mono (Nat.le_add_right _ _)⟩
    · exact ih fun _ hdyn => absurd hdyn ht

theorem allRoomy_of_static (h : anyDynamic ts = false) : AllRoomy ts w := by
  induction ts with
  | nil => trivial
  | cons t ts ih =>
    obtain ⟨ht, hts⟩ := Bool.or_eq_false_iff.mp h
    rw [AllRoomy, if_neg (Bool.eq_false_iff.mp ht)]
    exact ih hts

end AbiType

/-! ## The lists that are built -/

section Trace

variable (keccak : Bytes → Bytes) (data : Bytes) (fname : Text)

/-- The lengths of the lists of types that decoding at a position builds, as they come. -/
abbrev Trace := Nat → List Nat

/-- What the loop of `Dec::scope` builds: it goes on as long as the elements are decoded. -/
def scopeLoopTrace (base : Nat) : List (AbiType × Decoder × Trace) → Nat → Nat → List Nat
  | [], _, _ => []
  | (t, elem, trace) :: types, hp, tailPos =>
    if t.isDynamic then
      match usizeWord data fname (usizeAdd base hp) "a dynamic-data offset" with
      | .error _ => []
      | .ok off =>
        if off ≠ tailPos then []
        else
          trace (usizeAdd base off) ++
            match elem (usizeAdd base off) with
            | .error _ => []
            | .ok r => scopeLoopTrace base types (usizeAdd hp 32) (usizeAdd tailPos r.2)
    else
      trace (usizeAdd base hp) ++
        match elem (usizeAdd base hp) with
        | .error _ => []
        | .ok r => scopeLoopTrace base types (usizeAdd hp r.2) tailPos

/-- What `Dec::scope` builds. -/
def scopeTrace (types : List (AbiType × Decoder × Trace)) (base : Nat) : List Nat :=
  let headSize := AbiType.sumHeadSize (types.map Prod.fst)
  if data.length < usizeAdd base headSize then []
  else scopeLoopTrace data fname base types 0 headSize

mutual

/-- What `Dec::elem` builds: `vec![inner; k]` for each array, and what its elements build. -/
@[grind] def trace : AbiType → Trace
  | .array inner, pos =>
    match usizeWord data fname pos "an array length" with
    | .error _ => []
    | .ok k =>
      if data.length - usizeAdd pos 32 < k * 32 then []
      else k :: scopeTrace data fname
        (replicate k (inner, elem keccak data fname inner, trace inner)) (usizeAdd pos 32)
  | .fixedArray inner k, pos =>
    k :: scopeTrace data fname
      (replicate k (inner, elem keccak data fname inner, trace inner)) pos
  | .tuple ts, pos => scopeTrace data fname (traces ts) pos
  | _, _ => []

/-- The types of a list, with the decoder of each and what it builds. -/
@[grind] def traces : List AbiType → List (AbiType × Decoder × Trace)
  | [] => []
  | t :: ts => (t, elem keccak data fname t, trace t) :: traces ts

end

/-- What `abi_decode` builds. -/
def decodeTrace (ts : List AbiType) : List Nat :=
  scopeTrace data fname (traces keccak data fname ts) 0

end Trace

/-! ## Lists no longer than the data -/

section Bounded

open AbiType

variable {keccak : Bytes → Bytes} {data : Bytes} {fname : Text}

/-- No list has more types than the data has words. -/
def Short (data : Bytes) (l : List Nat) : Prop := ∀ c ∈ l, 32 * c ≤ data.length

/-- What is known of the decoder of a type, and of what it builds: a value of a static type has the
size of its type, one of a dynamic type has its least size or more, and the value ends in the data.
-/
structure Tame (data : Bytes) (t : AbiType) (dec : Decoder) (tr : Trace) : Prop where
  listed : ∀ u k, t = .fixedArray u k → t.isDynamic = false → k ≤ words t
  static : t.isDynamic = false → words t ≤ 2 ^ 58 →
    (∀ u k, t = .fixedArray u k → 32 * k ≤ data.length) → ∀ p ≤ data.length,
      Short data (tr p) ∧ ∀ r, dec p = .ok r → r.2 = 32 * words t ∧ p + 32 * words t ≤ data.length
  dynamic : t.isDynamic = true → ∀ w, Roomy t w → ∀ p ≤ data.length, 32 * w ≤ p →
    Short data (tr p) ∧ ∀ r, dec p = .ok r → 32 * least t ≤ r.2 ∧ p + r.2 ≤ data.length

theorem short_nil : Short data [] := forall_mem_nil _

section Steps

variable {t : AbiType} {dec : Decoder} {tr : Trace} {types : List (AbiType × Decoder × Trace)}
variable {base hp tailPos c : Nat} {r : List SynValue × Nat}

/-- The decoders of a list. -/
def decoders (types : List (AbiType × Decoder × Trace)) : List (AbiType × Decoder) :=
  types.map fun x => (x.1, x.2.1)

theorem mem_trace_dynamic (ht : t.isDynamic)
    (h : c ∈ scopeLoopTrace data fname base ((t, dec, tr) :: types) hp tailPos) :
    c ∈ tr (usizeAdd base tailPos) ∨ ∃ r, dec (usizeAdd base tailPos) = .ok r ∧
      c ∈ scopeLoopTrace data fname base types (usizeAdd hp 32) (usizeAdd tailPos r.2) := by
  rw [scopeLoopTrace, if_pos ht] at h
  split at h
  · cases h
  · split_ifs at h with hoff
    · cases h
    · rw [not_not] at hoff
      subst hoff
      refine (mem_append.mp h).imp_right fun h => ?_
      split at h
      · cases h
      · exact ⟨_, ‹_›, h⟩

theorem mem_trace_static (ht : t.isDynamic = false)
    (h : c ∈ scopeLoopTrace data fname base ((t, dec, tr) :: types) hp tailPos) :
    c ∈ tr (usizeAdd base hp) ∨ ∃ r, dec (usizeAdd base hp) = .ok r ∧
      c ∈ scopeLoopTrace data fname base types (usizeAdd hp r.2) tailPos := by
  rw [scopeLoopTrace, if_neg (Bool.eq_false_iff.mp ht)] at h
  refine (mem_append.mp h).imp_right fun h => ?_
  split at h
  · cases h
  · exact ⟨_, ‹_›, h⟩

theorem scopeLoop_dynamic (ht : t.isDynamic)
    (h : scopeLoop data fname base (decoders ((t, dec, tr) :: types)) hp tailPos = .ok r) :
    ∃ v rest, dec (usizeAdd base tailPos) = .ok v ∧
      scopeLoop data fname base (decoders types) (usizeAdd hp 32) (usizeAdd tailPos v.2) =
        .ok rest ∧ r.2 = rest.2 := by
  rw [decoders, map_cons, scopeLoop, if_pos ht, bind_eq_ok] at h
  obtain ⟨off, -, h⟩ := h
  obtain ⟨hoff, h⟩ := if_fail_ok.mp h
  rw [not_not] at hoff
  subst hoff
  obtain ⟨v, hv, h⟩ := bind_eq_ok.mp h
  obtain ⟨rest, hrest, h⟩ := bind_eq_ok.mp h
  obtain rfl := Except.ok.inj h
  exact ⟨v, rest, hv, hrest, rfl⟩

theorem scopeLoop_static (ht : t.isDynamic = false)
    (h : scopeLoop data fname base (decoders ((t, dec, tr) :: types)) hp tailPos = .ok r) :
    ∃ v rest, dec (usizeAdd base hp) = .ok v ∧
      scopeLoop data fname base (decoders types) (usizeAdd hp v.2) tailPos = .ok rest ∧
        r.2 = rest.2 := by
  rw [decoders, map_cons, scopeLoop, if_neg (Bool.eq_false_iff.mp ht), bind_eq_ok] at h
  obtain ⟨v, hv, h⟩ := h
  obtain ⟨rest, hrest, h⟩ := bind_eq_ok.mp h
  obtain rfl := Except.ok.inj h
  exact ⟨v, rest, hv, hrest, rfl⟩

end Steps

/-- The loop builds no list with more types than the data has words, and where it comes to its end
it has read the least sizes or more, and nothing but the data. -/
def Laid (data : Bytes) (fname : Text) (types : List (AbiType × Decoder × Trace))
    (base hp tailPos : Nat) : Prop :=
  Short data (scopeLoopTrace data fname base types hp tailPos) ∧
    ∀ r, scopeLoop data fname base (decoders types) hp tailPos = .ok r →
      tailPos + 32 * sumLeast (types.map Prod.fst) ≤
        r.2 + 32 * sumHeadWords (types.map Prod.fst) ∧ base + r.2 ≤ data.length ∧
      (anyDynamic (types.map Prod.fst) = false → r.2 = tailPos)

variable {k w p : Nat}

theorem map_fst_replicate {t : AbiType} {dec : Decoder} {tr : Trace} :
    (replicate k (t, dec, tr)).map Prod.fst = replicate k t := map_replicate

theorem decoders_replicate {t : AbiType} {dec : Decoder} {tr : Trace} :
    decoders (replicate k (t, dec, tr)) = replicate k (t, dec) := map_replicate

theorem map_fst_traces {ts : List AbiType} : (traces keccak data fname ts).map Prod.fst = ts := by
  induction ts with
  | nil => rfl
  | cons t ts ih => rw [traces, map_cons, ih]

theorem decoders_traces {ts : List AbiType} :
    decoders (traces keccak data fname ts) = elems keccak data fname ts := by
  induction ts with
  | nil => rfl
  | cons t ts ih =>
    rw [traces, elems, ← ih]
    rfl

theorem mem_traces {ts : List AbiType} {x : AbiType × Decoder × Trace}
    (h : x ∈ traces keccak data fname ts) :
    x.1 ∈ ts ∧ x.2 = (elem keccak data fname x.1, trace keccak data fname x.1) := by
  induction ts with
  | nil => cases h
  | cons t ts ih =>
    rw [traces] at h
    rcases List.mem_cons.mp h with rfl | h
    · exact ⟨mem_cons_self, rfl⟩
    · exact (ih h).imp_left (mem_cons_of_mem t)

theorem word_tame {t : AbiType} {dec : Decoder} (ht : t.isDynamic = false) (hw : words t = 1)
    (hlist : ∀ u k, t ≠ .fixedArray u k)
    (h : ∀ p r, dec p = .ok r → r.2 = 32 ∧ p + 32 ≤ data.length) :
    Tame data t dec (fun _ => []) where
  listed u k hu := absurd hu (hlist u k)
  static _ _ _ p _ := ⟨short_nil, fun r hr => by rw [hw]; exact h p r hr⟩
  dynamic hdyn := by rw [ht] at hdyn; cases hdyn

theorem content_tame {t : AbiType} {dec : Decoder} (ht : t.isDynamic) (hleast : least t = 1)
    (hlist : ∀ u k, t ≠ .fixedArray u k)
    (h : ∀ p r, dec p = .ok r → 32 ≤ r.2 ∧ p + r.2 ≤ data.length) :
    Tame data t dec (fun _ => []) where
  listed u k hu := absurd hu (hlist u k)
  static hstatic := by rw [ht] at hstatic; cases hstatic
  dynamic _ w _ p _ _ := ⟨short_nil, fun r hr => by rw [hleast]; exact h p r hr⟩

variable (hdata : data.length < 2 ^ 63)
include hdata

theorem scopeLoop_tame {types : List (AbiType × Decoder × Trace)} {base hp tailPos : Nat}
    (hall : ∀ x ∈ types, Tame data x.1 x.2.1 x.2.2) (hroomy : AllRoomy (types.map Prod.fst) w)
    (hhead : base + hp + 32 * sumHeadWords (types.map Prod.fst) ≤ data.length)
    (htail : base + tailPos ≤ data.length) (hw : 32 * w ≤ base + tailPos) :
    Laid data fname types base hp tailPos := by
  induction types generalizing hp tailPos w with
  | nil =>
    refine ⟨short_nil, fun r hr => ?_⟩
    obtain rfl := Except.ok.inj hr
    exact ⟨le_rfl, htail, fun _ => rfl⟩
  | cons x types ih =>
    obtain ⟨t, dec, tr⟩ := x
    obtain ⟨hx, hall⟩ := forall_mem_cons.mp hall
    rw [map_cons, AllRoomy] at hroomy
    rw [map_cons, sumHeadWords, headWords] at hhead
    dsimp only at hx hroomy hhead
    rw [Laid, map_cons, sumHeadWords, headWords, sumLeast, anyDynamic]
    dsimp only
    cases ht : t.isDynamic with
    | true =>
      rw [if_pos ht] at hroomy hhead
      have hpos : usizeAdd base tailPos = base + tailPos := usizeAdd_eq (by omega)
      have hhp : usizeAdd hp 32 = hp + 32 := usizeAdd_eq (by omega)
      obtain ⟨hshort, hdec⟩ := hx.dynamic ht w hroomy.1 (base + tailPos) htail hw
      -- the next value stands behind this one
      have hnext {v : SynValue × Nat} (hv : dec (base + tailPos) = .ok v) :
          usizeAdd tailPos v.2 = tailPos + v.2 ∧ 32 * least t ≤ v.2 ∧
            Laid data fname types base (hp + 32) (tailPos + v.2) := by
        obtain ⟨hleast, hfits⟩ := hdec v hv
        exact ⟨usizeAdd_eq (by omega), hleast,
          ih hall hroomy.2 (by omega) (by omega) (by omega)⟩
      refine ⟨fun c hc => ?_, fun r hr => ?_⟩
      · rcases mem_trace_dynamic ht hc with hc | ⟨v, hv, hc⟩
        · exact hshort c (hpos ▸ hc)
        · rw [hpos] at hv
          obtain ⟨htp, -, hrest, -⟩ := hnext hv
          rw [hhp, htp] at hc
          exact hrest c hc
      · obtain ⟨v, rest, hv, hloop, hr⟩ := scopeLoop_dynamic ht hr
        rw [hpos] at hv
        obtain ⟨htp, hleast, -, hrest⟩ := hnext hv
        rw [hhp, htp] at hloop
        obtain ⟨hle, hfits, -⟩ := hrest rest hloop
        rw [if_pos rfl, if_pos rfl]
        exact ⟨by omega, by omega, by rintro ⟨⟩⟩
    | false =>
      rw [if_neg (Bool.eq_false_iff.mp ht)] at hroomy hhead
      have hpos : usizeAdd base hp = base + hp := usizeAdd_eq (by omega)
      have hlisted : ∀ u k, t = .fixedArray u k → 32 * k ≤ data.length := by
        intro u k h
        have := hx.listed u k h ht
        omega
      obtain ⟨hshort, hdec⟩ := hx.static ht (by omega) hlisted (base + hp) (by omega)
      have hnext {v : SynValue × Nat} (hv : dec (base + hp) = .ok v) :
          usizeAdd hp v.2 = hp + 32 * words t ∧
            Laid data fname types base (hp + 32 * words t) tailPos := by
        obtain ⟨hsize, hfits⟩ := hdec v hv
        exact ⟨hsize ▸ usizeAdd_eq (by omega), ih hall hroomy (by omega) htail hw⟩
      refine ⟨fun c hc => ?_, fun r hr => ?_⟩
      · rcases mem_trace_static ht hc with hc | ⟨v, hv, hc⟩
        · exact hshort c (hpos ▸ hc)
        · rw [hpos] at hv
          obtain ⟨hhp, hrest, -⟩ := hnext hv
          rw [hhp] at hc
          exact hrest c hc
      · obtain ⟨v, rest, hv, hloop, hr⟩ := scopeLoop_static ht hr
        rw [hpos] at hv
        obtain ⟨hhp, -, hrest⟩ := hnext hv
        rw [hhp] at hloop
        obtain ⟨hle, hfits, hsame⟩ := hrest rest hloop
        rw [if_neg Bool.false_ne_true, if_neg Bool.false_ne_true]
        exact ⟨by omega, by omega, fun h => hr.trans (hsame h)⟩

theorem scope_tame (fname : Text) {types : List (AbiType × Decoder × Trace)} (base : Nat)
    (hall : ∀ x ∈ types, Tame data x.1 x.2.1 x.2.2) (hroomy : AllRoomy (types.map Prod.fst) w)
    (hbase : base ≤ data.length) (hfit : base + 32 * sumHeadWords (types.map Prod.fst) < 2 ^ 64)
    (hw : 32 * w ≤ base + 32 * sumHeadWords (types.map Prod.fst)) :
    Short data (scopeTrace data fname types base) ∧
      ∀ r, scope data fname (decoders types) base = .ok r →
        32 * sumLeast (types.map Prod.fst) ≤ r.2 ∧ base + r.2 ≤ data.length ∧
        (anyDynamic (types.map Prod.fst) = false →
          r.2 = 32 * sumHeadWords (types.map Prod.fst)) := by
  have hhead : sumHeadSize (types.map Prod.fst) = 32 * sumHeadWords (types.map Prod.fst) := by
    rw [sumHeadSize_eq]
    exact Nat.mod_eq_of_lt (by omega)
  have hmap : (decoders types).map Prod.fst = types.map Prod.fst := by
    rw [decoders, map_map]
    rfl
  have hadd := usizeAdd_eq hfit
  by_cases hle : base + 32 * sumHeadWords (types.map Prod.fst) ≤ data.length
  · obtain ⟨hshort, hloop⟩ : Laid data fname types base 0
        (32 * sumHeadWords (types.map Prod.fst)) :=
      scopeLoop_tame hdata hall hroomy (by omega) hle hw
    refine ⟨?_, fun r hr => ?_⟩
    · rw [scopeTrace, hhead, hadd, if_neg (by omega)]
      exact hshort
    · rw [scope, hmap, hhead, hadd, if_fail_ok] at hr
      obtain ⟨hmin, hfits, hsame⟩ := hloop r hr.2
      exact ⟨by omega, hfits, hsame⟩
  · refine ⟨?_, fun r hr => ?_⟩
    · rw [scopeTrace, hhead, hadd, if_pos (by omega)]
      exact short_nil
    · rw [scope, hmap, hhead, hadd, if_fail_ok] at hr
      omega

theorem scopeLoop_replicate (fname : Text) {t : AbiType} {dec : Decoder} {tr : Trace}
    (h : Tame data t dec tr) (ht : t.isDynamic = false) (hwords : words t ≤ 2 ^ 58)
    (hlisted : ∀ u k, t = .fixedArray u k → 32 * k ≤ data.length) (k base hp tailPos : Nat)
    (hpos : base + hp ≤ data.length) :
    Short data (scopeLoopTrace data fname base (replicate k (t, dec, tr)) hp tailPos) ∧
      ∀ r, scopeLoop data fname base (decoders (replicate k (t, dec, tr))) hp tailPos = .ok r →
        r.2 = tailPos ∧ base + hp + 32 * (k * words t) ≤ data.length := by
  induction k generalizing hp with
  | zero =>
    refine ⟨short_nil, fun r hr => ?_⟩
    obtain rfl := Except.ok.inj hr
    rw [Nat.zero_mul]
    exact ⟨rfl, hpos⟩
  | succ k ih =>
    have hadd : usizeAdd base hp = base + hp := usizeAdd_eq (by omega)
    obtain ⟨hshort, hdec⟩ := h.static ht hwords hlisted (base + hp) hpos
    rw [replicate_succ]
    have hnext {v : SynValue × Nat} (hv : dec (base + hp) = .ok v) :
        usizeAdd hp v.2 = hp + 32 * words t ∧ base + (hp + 32 * words t) ≤ data.length := by
      obtain ⟨hsize, hfits⟩ := hdec v hv
      exact ⟨hsize ▸ usizeAdd_eq (by omega), by omega⟩
    refine ⟨fun c hc => ?_, fun r hr => ?_⟩
    · rcases mem_trace_static ht hc with hc | ⟨v, hv, hc⟩
      · exact hshort c (hadd ▸ hc)
      · rw [hadd] at hv
        obtain ⟨hhp, hfits⟩ := hnext hv
        rw [hhp] at hc
        exact (ih _ hfits).1 c hc
    · obtain ⟨v, rest, hv, hloop, hr⟩ := scopeLoop_static ht hr
      rw [hadd] at hv
      obtain ⟨hhp, hfits⟩ := hnext hv
      rw [hhp] at hloop
      obtain ⟨hsame, hle⟩ := (ih _ hfits).2 rest hloop
      exact ⟨hr.trans hsame, by rw [Nat.add_one_mul k]; omega⟩

theorem word_le {w : Bytes} (h : word data fname p = .ok w) : p + 32 ≤ data.length := by
  obtain ⟨hlen, hat⟩ := (word_ok hdata).mp h
  exact hlen ▸ hat.le

theorem usizeWord_le {n : Nat} {what : Text} (h : usizeWord data fname p what = .ok n) :
    p + 32 ≤ data.length := by
  obtain ⟨-, hat⟩ := (usizeWord_ok hdata).mp h
  have := hat.le
  rwa [length_u256Word] at this

theorem arrayScope_tame (fname : Text) {t : AbiType} {dec : Decoder} {tr : Trace} (k base : Nat)
    (h : Tame data t dec tr) (hroomy : if t.isDynamic then Roomy t (w + 2) else Fits t)
    (hbase : base ≤ data.length) (hk : base + 32 * k ≤ data.length) (hw : 32 * (w + 1) ≤ base) :
    Short data (scopeTrace data fname (replicate k (t, dec, tr)) base) ∧
      ∀ r, scope data fname (replicate k (t, dec)) base = .ok r →
        base + r.2 ≤ data.length := by
  have hhead : sumHeadWords (replicate k t) = k * headWords t := sumHeadWords_replicate k
  cases ht : t.isDynamic with
  | true =>
    rw [if_pos ht] at hroomy
    have hone : headWords t = 1 := if_pos ht
    rw [hone, Nat.mul_one] at hhead
    have hall : ∀ x ∈ replicate k (t, dec, tr), Tame data x.1 x.2.1 x.2.2 :=
      fun x hx => eq_of_mem_replicate hx ▸ h
    have hlist : AllRoomy ((replicate k (t, dec, tr)).map Prod.fst) (w + 1 + k) :=
      map_fst_replicate ▸ allRoomy_replicate fun hpos _ => hroomy.mono (by omega)
    obtain ⟨hshort, hscope⟩ := scope_tame hdata fname base hall hlist hbase
      (by rw [map_fst_replicate, hhead]; omega) (by rw [map_fst_replicate, hhead]; omega)
    rw [decoders_replicate] at hscope
    exact ⟨hshort, fun r hr => (hscope r hr).2.1⟩
  | false =>
    rw [if_neg (Bool.eq_false_iff.mp ht)] at hroomy
    have hsame : headWords t = words t := if_neg (Bool.eq_false_iff.mp ht)
    rw [hsame] at hhead
    have hsize : sumHeadSize (replicate k t) = 32 * (k * words t) % 2 ^ 64 := by
      rw [sumHeadSize_eq, hhead]
    rw [scopeTrace, scope, map_fst_replicate, map_replicate, hsize]
    by_cases hle : data.length < usizeAdd base (32 * (k * words t) % 2 ^ 64)
    · rw [if_pos hle, if_pos hle]
      exact ⟨short_nil, fun r hr => (fail_ne_ok hr).elim⟩
    · rw [if_neg hle, if_neg hle]
      cases k with
      | zero =>
        refine ⟨short_nil, fun r hr => ?_⟩
        obtain rfl := Except.ok.inj hr
        rw [Nat.zero_mul]
        exact hbase
      | succ k =>
        -- were the list of one element longer than the data, no head would wrap
        have hlisted : ∀ u n, t = .fixedArray u n → 32 * n ≤ data.length := by
          intro u n hu
          by_contra hlong
          have hn := h.listed u n hu ht
          have hcount := hroomy.count_le u n hu
          have hmul : (k + 1 + 1) * words t ≤ n * words t :=
            Nat.mul_le_mul_right _ (by omega)
          rw [Nat.add_one_mul (k + 1)] at hmul
          have hone : words t ≤ (k + 1) * words t := Nat.le_mul_of_pos_left _ k.succ_pos
          have hfit : usizeAdd base (32 * ((k + 1) * words t) % 2 ^ 64) =
              base + 32 * ((k + 1) * words t) := by
            rw [Nat.mod_eq_of_lt (by omega)]
            exact usizeAdd_eq (by omega)
          rw [hfit] at hle
          omega
        obtain ⟨hshort, hloop⟩ := scopeLoop_replicate hdata fname h ht hroomy.words_le
          hlisted (k + 1) base 0 (32 * ((k + 1) * words t) % 2 ^ 64) hbase
        rw [decoders_replicate] at hloop
        refine ⟨hshort, fun r hr => ?_⟩
        obtain ⟨hr, hfits⟩ := hloop r hr
        rw [hr]
        have := Nat.mod_le (32 * ((k + 1) * words t)) (2 ^ 64)
        omega

theorem array_tame {t : AbiType}
    (h : Tame data t (elem keccak data fname t) (trace keccak data fname t)) :
    Tame data (.array t) (elem keccak data fname (.array t))
      (trace keccak data fname (.array t)) where
  listed _ _ := nofun
  static := nofun
  dynamic _ w hroomy p hp hw := by
    rw [trace, elem]
    cases hlen : usizeWord data fname p "an array length" with
    | error e => exact ⟨short_nil, nofun⟩
    | ok k =>
      have hword := usizeWord_le hdata hlen
      have hadd : usizeAdd p 32 = p + 32 := usizeAdd_eq (by omega)
      dsimp only
      rw [hadd]
      by_cases hk : data.length - (p + 32) < k * 32
      · rw [if_pos hk]
        refine ⟨short_nil, fun r hr => ?_⟩
        obtain ⟨n, hn, hr⟩ := bind_eq_ok.mp hr
        cases hn
        rw [if_pos hk] at hr
        exact (fail_ne_ok hr).elim
      · rw [if_neg hk]
        obtain ⟨hshort, hscope⟩ := arrayScope_tame hdata fname k (p + 32) h hroomy hword
          (by omega) (by omega)
        refine ⟨forall_mem_cons.mpr ⟨by omega, hshort⟩, fun r hr => ?_⟩
        obtain ⟨n, hn, hr⟩ := bind_eq_ok.mp hr
        cases hn
        obtain ⟨v, hv, hr⟩ := bind_eq_ok.mp (if_fail_ok.mp hr).2
        obtain rfl := Except.ok.inj hr
        have hend := hscope v hv
        have hsum : usizeAdd 32 v.2 = 32 + v.2 := usizeAdd_eq (by omega)
        have hleast : least (.array t) = 1 := rfl
        dsimp only
        rw [hsum, hleast]
        omega

theorem fixedArray_tame {t : AbiType} (hpos : 0 < words t)
    (h : Tame data t (elem keccak data fname t) (trace keccak data fname t)) :
    Tame data (.fixedArray t k) (elem keccak data fname (.fixedArray t k))
      (trace keccak data fname (.fixedArray t k)) where
  listed u n heq _ := by
    cases heq
    exact Nat.le_mul_of_pos_left k hpos
  static hstatic hwords hlisted p hp := by
    have ht : t.isDynamic = false := hstatic
    have hall : ∀ x ∈ replicate k (t, elem keccak data fname t, trace keccak data fname t),
        Tame data x.1 x.2.1 x.2.2 := fun x hx => eq_of_mem_replicate hx ▸ h
    have hdyn := anyDynamic_replicate ht k
    have hhead : sumHeadWords (replicate k t) = words (.fixedArray t k) := by
      rw [sumHeadWords_replicate, headWords, if_neg (Bool.eq_false_iff.mp ht), words, Nat.mul_comm]
    obtain ⟨hshort, hscope⟩ := scope_tame hdata fname p (w := 0) hall
      (map_fst_replicate ▸ allRoomy_of_static hdyn) hp
      (by rw [map_fst_replicate, hhead]; omega) (by omega)
    rw [decoders_replicate, map_fst_replicate, hhead] at hscope
    rw [trace, elem]
    refine ⟨forall_mem_cons.mpr ⟨hlisted t k rfl, hshort⟩, fun r hr => ?_⟩
    obtain ⟨v, hv, hr⟩ := bind_eq_ok.mp hr
    obtain rfl := Except.ok.inj hr
    obtain ⟨-, hfits, hsize⟩ := hscope v hv
    exact ⟨hsize hdyn, hsize hdyn ▸ hfits⟩
  dynamic hdyn w hroomy p hp hw := by
    have ht : t.isDynamic := hdyn
    obtain ⟨hroom, hroomy⟩ := hroomy ht
    have hall : ∀ x ∈ replicate k (t, elem keccak data fname t, trace keccak data fname t),
        Tame data x.1 x.2.1 x.2.2 := fun x hx => eq_of_mem_replicate hx ▸ h
    have hhead : sumHeadWords (replicate k t) = k := by
      rw [sumHeadWords_replicate, headWords, if_pos ht, Nat.mul_one]
    obtain ⟨hshort, hscope⟩ := scope_tame hdata fname p (w := w + k) hall
      (map_fst_replicate ▸ allRoomy_replicate fun _ _ => hroomy) hp
      (by rw [map_fst_replicate, hhead]; omega) (by rw [map_fst_replicate, hhead]; omega)
    rw [decoders_replicate, map_fst_replicate, sumLeast_replicate] at hscope
    rw [trace, elem]
    refine ⟨forall_mem_cons.mpr ⟨by omega, hshort⟩, fun r hr => ?_⟩
    obtain ⟨v, hv, hr⟩ := bind_eq_ok.mp hr
    obtain rfl := Except.ok.inj hr
    obtain ⟨hleast, hfits, -⟩ := hscope v hv
    exact ⟨hleast, hfits⟩

theorem tuple_tame {ts : List AbiType}
    (h : ∀ t ∈ ts, Tame data t (elem keccak data fname t) (trace keccak data fname t)) :
    Tame data (.tuple ts) (elem keccak data fname (.tuple ts))
      (trace keccak data fname (.tuple ts)) := by
  have hall : ∀ x ∈ traces keccak data fname ts, Tame data x.1 x.2.1 x.2.2 := by
    intro x hx
    obtain ⟨hmem, heq⟩ := mem_traces hx
    rw [heq]
    exact h x.1 hmem
  constructor
  case listed => exact fun _ _ => nofun
  case static =>
    intro hstatic hwords _ p hp
    have hdyn : anyDynamic ts = false := hstatic
    have hhead : sumHeadWords ts = words (.tuple ts) := sumHeadWords_of_static hdyn
    obtain ⟨hshort, hscope⟩ := scope_tame hdata fname p (w := 0) hall
      (map_fst_traces ▸ allRoomy_of_static hdyn) hp
      (by rw [map_fst_traces, hhead]; omega) (by omega)
    rw [decoders_traces, map_fst_traces, hhead] at hscope
    rw [trace, elem]
    refine ⟨hshort, fun r hr => ?_⟩
    obtain ⟨v, hv, hr⟩ := bind_eq_ok.mp hr
    obtain rfl := Except.ok.inj hr
    obtain ⟨-, hfits, hsize⟩ := hscope v hv
    exact ⟨hsize hdyn, hsize hdyn ▸ hfits⟩
  case dynamic =>
    intro hdyn w hroomy p hp hw
    obtain ⟨hheads, hroomy⟩ := hroomy hdyn
    obtain ⟨hshort, hscope⟩ := scope_tame hdata fname p (w := w + sumHeadWords ts)
      hall (map_fst_traces ▸ hroomy) hp
      (by rw [map_fst_traces]; omega) (by rw [map_fst_traces]; omega)
    rw [decoders_traces, map_fst_traces] at hscope
    rw [trace, elem]
    refine ⟨hshort, fun r hr => ?_⟩
    obtain ⟨v, hv, hr⟩ := bind_eq_ok.mp hr
    obtain rfl := Except.ok.inj hr
    obtain ⟨hleast, hfits, -⟩ := hscope v hv
    exact ⟨hleast, hfits⟩

theorem checkedWord_ok {P : Bytes → Prop} [DecidablePred P] {message : Bytes → Text}
    {val : Bytes → SynValue} {r : SynValue × Nat}
    (h : (do
      let w ← word data fname p
      if P w then fail (message w) else return (val w, 32)) = .ok r) :
    r.2 = 32 ∧ p + 32 ≤ data.length := by
  obtain ⟨w, hw, h⟩ := bind_eq_ok.mp h
  obtain ⟨-, h⟩ := if_fail_ok.mp h
  obtain rfl := Except.ok.inj h
  exact ⟨rfl, word_le hdata hw⟩

theorem content_le {t : AbiType} {b : Bytes} {n : Nat} (h : content data fname t p = .ok (b, n)) :
    32 ≤ n ∧ p + n ≤ data.length := by
  obtain ⟨hat, rfl⟩ := (content_ok hdata).mp h
  refine ⟨?_, hat.le⟩
  rw [length_padded]
  exact Nat.le_add_right _ _

theorem tame {t : AbiType} (h : t.Formed) :
    Tame data t (elem keccak data fname t) (trace keccak data fname t) := by
  induction t using AbiType.induction with
  | leaf t ht =>
    cases t with
    | uint n | int n | address
    | bool => exact word_tame rfl rfl (fun _ _ => nofun) fun p r hr => checkedWord_ok hdata hr
    | fixedBytes k =>
      exact word_tame rfl rfl (fun _ _ => nofun) fun p r hr => checkedWord_ok hdata hr
    | struct name => exact word_tame rfl rfl (fun _ _ => nofun) fun p r hr => (fail_ne_ok hr).elim
    | bytes =>
      refine content_tame rfl rfl (fun _ _ => nofun) fun p r hr => ?_
      obtain ⟨v, hv, hr⟩ := bind_eq_ok.mp hr
      obtain rfl := Except.ok.inj hr
      exact content_le hdata hv
    | string =>
      refine content_tame rfl rfl (fun _ _ => nofun) fun p r hr => ?_
      obtain ⟨v, hv, hr⟩ := bind_eq_ok.mp hr
      split at hr
      · obtain rfl := Except.ok.inj hr
        exact content_le hdata hv
      · exact (fail_ne_ok hr).elim
    | array t | fixedArray t k | tuple ts => exact ht.elim
  | array t ih => exact array_tame hdata (ih h)
  | fixedArray t k ih => exact fixedArray_tame hdata (words_pos h.1) (ih h.1)
  | tuple ts ih =>
    exact tuple_tame hdata fun t ht => ih t ht (allFormed_iff.mp h.2 t ht)

theorem short_decodeTrace {ts : List AbiType} (h : AllFormed ts) (hhead : sumHeadWords ts < 2 ^ 59)
    (hroomy : AllRoomy ts (sumHeadWords ts)) : Short data (decodeTrace keccak data fname ts) := by
  have hall : ∀ x ∈ traces keccak data fname ts, Tame data x.1 x.2.1 x.2.2 := by
    intro x hx
    obtain ⟨hmem, heq⟩ := mem_traces hx
    rw [heq]
    exact tame hdata (allFormed_iff.mp h x.1 hmem)
  refine (scope_tame hdata fname 0 (w := sumHeadWords ts) hall ?_ (Nat.zero_le _) ?_ ?_).1
  · rw [map_fst_traces]
    exact hroomy
  · rw [map_fst_traces]
    omega
  · rw [map_fst_traces]
    omega

end Bounded

/-! ## The bounds of types from texts -/

section Bounds

variable (debug : Text → Text) (fname : Text) (K : Set Text)

/-- The types of the accepted texts of a class stay within bounds: the depths have one bound, no
size wraps, and no data makes decoding build a list with more types than it has words. -/
structure StaysBounded : Prop where
  depth : ∃ D, ∀ s ∈ K, ∀ ts, Accepted debug fname s ts → ∀ t ∈ ts, t.depth ≤ D
  sizes : ∀ s ∈ K, ∀ ts, Accepted debug fname s ts → ∀ t ∈ ts,
    t.checkedStaticSize ≠ none ∧ t.checkedHeadSize ≠ none
  lists : ∀ s ∈ K, ∀ ts, Accepted debug fname s ts → ∀ keccak (data : Slice) dname,
    Short data.1 (decodeTrace keccak data.1 dname ts)

/-- The brackets of the stretches of the accepted texts have a bound. -/
def BoundedBrackets : Prop :=
  ∃ N, ∀ s ∈ K, ∀ ts, Accepted debug fname s ts → Within N s

/-- The types of the accepted texts have fewer than `2 ^ 59` words. -/
def BoundedWords : Prop :=
  ∀ s ∈ K, ∀ ts, Accepted debug fname s ts → ∀ t ∈ ts, t.words < 2 ^ 59

/-- The heads of the accepted texts fit, and behind them no fixed array of dynamic elements has more
elements than there are words before it. -/
def RoomyLists : Prop :=
  ∀ s ∈ K, ∀ ts, Accepted debug fname s ts →
    AbiType.sumHeadWords ts < 2 ^ 59 ∧ AbiType.AllRoomy ts (AbiType.sumHeadWords ts)

/-- The types of a class of texts stay within bounds when the brackets of its stretches do, the
sizes of its types fit, and its fixed arrays of dynamic elements have the words before them for
their elements.  The first two conditions are necessary too. -/
theorem staysBounded_of_modest :
    (BoundedBrackets debug fname K ∧ BoundedWords debug fname K ∧ RoomyLists debug fname K →
      StaysBounded debug fname K) ∧
    (StaysBounded debug fname K → BoundedBrackets debug fname K ∧ BoundedWords debug fname K) := by
  have hsizes {s : Text} {ts : List AbiType} (h : Accepted debug fname s ts) {t : AbiType}
      (ht : t ∈ ts) := AbiType.checked_iff (AbiType.allFormed_iff.mp h.formed t ht)
  constructor
  · rintro ⟨hbrackets, hwords, hroomy⟩
    refine ⟨exists_depth_iff.mpr hbrackets, fun s hs ts hr t ht => ?_, ?_⟩
    · exact (hsizes hr ht).mpr (hwords s hs ts hr t ht)
    · intro s hs ts hr keccak data dname
      obtain ⟨hhead, hlist⟩ := hroomy s hs ts hr
      exact short_decodeTrace data.2 hr.formed hhead hlist
  · rintro ⟨hdepth, hchecked, -⟩
    exact ⟨exists_depth_iff.mp hdepth,
      fun s hs ts hr t ht => (hsizes hr ht).mp (hchecked s hs ts hr t ht)⟩

end Bounds

/-- `(uint256,string)`. -/
def pairType : AbiType := .tuple [.uint 256, .string]

theorem accepted_pairType {ts : List AbiType}
    (h : Accepted id "abi_decode" "(uint256,string)" ts) :
    ts = [pairType] ∨ ts = [.uint 256, .string] := by
  have hparse (structsOk : Bool) :
      Eip712.parseSingleType id structsOk "abi_decode" "(uint256,string)" =
        .ok pairType := by
    cases structsOk <;> rfl
  cases h with
  | single h =>
    rw [hparse] at h
    exact .inl (Except.ok.inj h ▸ rfl)
  | items h =>
    rw [hparse] at h
    exact .inr (AbiType.tuple.inj (Except.ok.inj h) ▸ rfl)
  | @signature canonical ts h =>
    have hnone :
        (parseSignature id "abi_decode" "(uint256,string)").isOk = false := by
      decide
    rw [h] at hnone
    cases hnone

theorem staysBounded_of_modest_sample :
    StaysBounded id "abi_decode".toList {"(uint256,string)".toList} := by
  refine (staysBounded_of_modest id "abi_decode".toList {"(uint256,string)".toList}).1
    ⟨⟨0, ?_⟩, ?_, ?_⟩
  · rintro s rfl ts -
    exact within_of_count (by decide)
  · rintro s rfl ts h t ht
    rcases accepted_pairType h with rfl | rfl
    · rw [mem_singleton.mp ht]
      decide
    · rcases mem_pair.mp ht with rfl | rfl <;> decide
  · rintro s rfl ts h
    rcases accepted_pairType h with rfl | rfl
    · exact ⟨by decide, ⟨fun _ => ⟨by decide, trivial, trivial⟩, trivial⟩⟩
    · exact ⟨by decide, trivial, trivial⟩

/-- Arrays of arrays. -/
def nestedArrays : Nat → AbiType
  | 0 => .uint 8
  | n + 1 => .array (nestedArrays n)

/-- Two dimensions whose product does not fit. -/
def squareType : AbiType := .fixedArray (.fixedArray (.uint 256) 4294967296) 4294967296

/-- One word, the offset of what should stand behind it. -/
def loneOffset : Slice := ⟨u256Word 32, by decide⟩

/-- None of the bounds holds of every text: arrays nest as deep as the text is long, the size of
`uint256[4294967296][4294967296]` wraps to nothing, and for `string[3]` a list of three types is
built over one word of data. -/
theorem types_unbounded :
    (∀ D, ∃ s ts, Accepted id "abi_decode" s ts ∧ ∃ t ∈ ts, D < t.depth) ∧
      (Accepted id "abi_decode" "uint256[4294967296][4294967296]" [squareType] ∧
        squareType.checkedStaticSize = none ∧ squareType.staticSize = 0) ∧
      (Accepted id "abi_decode" "string[3]" [.fixedArray .string 3] ∧
        ¬ Short loneOffset.1
          (decodeTrace id loneOffset.1 "abi_decode" [.fixedArray .string 3])) ∧
      ¬ StaysBounded id "abi_decode" Set.univ := by
  have hnested : ∀ D, Accepted id "abi_decode" (nestedArrays D).display [nestedArrays D] ∧
      (nestedArrays D).depth = D := by
    intro D
    have hok : Eip712.TypeOk id "abi_decode" (nestedArrays D) := by
      induction D with
      | zero => exact ⟨by decide, by decide, rfl⟩
      | succ D ih => exact ih
    refine ⟨.single (Eip712.parseSingleType_display hok), ?_⟩
    clear hok
    induction D with
    | zero => rfl
    | succ D ih => rw [nestedArrays, AbiType.depth, ih]
  have hdeep : ∀ D, ∃ s ts, Accepted id "abi_decode" s ts ∧ ∃ t ∈ ts, D < t.depth := by
    intro D
    obtain ⟨hread, hdepth⟩ := hnested (D + 1)
    exact ⟨_, _, hread, _, mem_singleton_self _, (Nat.lt_succ_self D).trans_eq hdepth.symm⟩
  refine ⟨hdeep, ⟨@Accepted.single _ _ _ false _ rfl, by decide, by decide⟩,
    ⟨@Accepted.single _ _ _ false _ rfl, ?_⟩, ?_⟩
  · have htrace :
        decodeTrace id loneOffset.1 "abi_decode" [.fixedArray .string 3] = [3] := by
      decide
    have hlen : loneOffset.1.length = 32 := by decide
    intro hshort
    have := hshort 3 (htrace ▸ mem_singleton_self 3)
    rw [hlen] at this
    exact absurd this (by decide)
  · rintro ⟨⟨D, h⟩, -, -⟩
    obtain ⟨s, ts, hread, t, ht, hlt⟩ := hdeep D
    exact absurd (h s (Set.mem_univ s) ts hread t ht) (Nat.not_le.mpr hlt)

end Synsema.Abi
