import Synsema.Vm.Built
import Mathlib.Algebra.Order.BigOperators.Group.List
import Mathlib.Tactic.Ring

/-!
# Steps in blocks are exact

The code that `finish` gives runs as the body does in which each instruction counts its own steps
(`assemble_simulates`): what is seen of a run is the same, and with it the counter where control is
given to others and where the body ends (`finish_exact`).

The states of the two match at the start of a block, where the counters are the same, and inside of
one, where the code has counted the rest of the block already (`Matches`).
-/

namespace Synsema.Vm

open Compiler Simulation List

namespace WellFormed

variable {c : Compiler}

/-! ## Weights -/

variable {i k l pc : Nat} {p : Placed} {ins : Ins} {ran : Bool} {s t : Count}

theorem weight_drop (hi : i < c.size) :
    ((c.slots.drop i).map Slot.weight).sum =
      c.weight i + ((c.slots.drop (i + 1)).map Slot.weight).sum := by
  obtain ⟨s, -, hs, -, hw, -⟩ := getElem?_slots hi
  obtain ⟨hi', rfl⟩ := List.getElem?_eq_some_iff.mp hs
  rw [drop_eq_getElem_cons hi', map_cons, sum_cons, hw]

theorem sum_drop_le (i : Nat) : ((c.slots.drop i).map Slot.weight).sum ≤ c.sumWeights := by
  have hsub := (drop_sublist i c.slots).map Slot.weight
  exact hsub.sum_le_sum fun _ _ => Nat.zero_le _

theorem acc_le (m : Nat) (hm : m ≤ c.size) :
    c.acc m ≤ ((c.slots.drop (c.size - m)).map Slot.weight).sum := by
  induction m with
  | zero => exact Nat.zero_le _
  | succ m ih =>
    have hi : c.size - (m + 1) < c.size := by omega
    have hsub : c.size - (m + 1) + 1 = c.size - m := by omega
    rw [weight_drop hi, hsub, Compiler.acc]
    split_ifs
    · exact Nat.zero_le _
    · have hmod := Nat.mod_le (c.acc m + c.weight (c.size - (m + 1))) (2 ^ 32)
      have := ih (by omega)
      omega

theorem rest_eq (h : WellFormed c) (hk : k + 1 < c.size) :
    c.rest k = if c.leader (k + 1) then 0 else c.weight (k + 1) + c.rest (k + 1) := by
  have hm : c.size - (k + 1) = c.size - (k + 1 + 1) + 1 := by omega
  have hi : c.size - (c.size - (k + 1 + 1) + 1) = k + 1 := by omega
  have hle := acc_le (c := c) (c.size - (k + 1 + 1)) (by omega)
  have hdrop : c.size - (c.size - (k + 1 + 1)) = k + 1 + 1 := by omega
  have hsum := sum_drop_le (c := c) (k + 1)
  rw [weight_drop hk] at hsum
  rw [hdrop] at hle
  have hsmall := h.small
  rw [Compiler.rest, hm, Compiler.acc, hi, Compiler.rest]
  split_ifs
  · rfl
  · rw [Nat.mod_eq_of_lt (by omega), Nat.add_comm]

theorem rest_last (hk : k + 1 = c.size) : c.rest k = 0 := by
  rw [Compiler.rest, hk, Nat.sub_self, Compiler.acc]

/-! ## Blocks -/

theorem blockEnd_spec (hi : i < c.size) :
    i < c.blockEnd i ∧ c.blockEnd i ≤ c.size ∧
      (∀ m, i < m → m < c.blockEnd i → c.leader m = false) ∧
      (c.blockEnd i < c.size → c.leader (c.blockEnd i)) := by
  unfold Compiler.blockEnd
  cases hfind : (List.range c.size).find? fun j => decide (i < j) && c.leader j with
  | none =>
    rw [find?_range_eq_none] at hfind
    refine ⟨hi, le_rfl, fun m him hm => ?_, fun hlt => absurd hlt (lt_irrefl _)⟩
    have := hfind m hm
    simpa [him] using this
  | some j =>
    obtain ⟨hj, hmem, hbefore⟩ := find?_range_eq_some.mp hfind
    rw [Bool.and_eq_true, decide_eq_true_eq] at hj
    refine ⟨hj.1, (List.mem_range.mp hmem).le, fun m him hm => ?_, fun _ => hj.2⟩
    have := hbefore m hm
    simpa [him] using this

theorem sum_block (h : WellFormed c) (hi : i < c.size) (hik : i ≤ k) (hk : k < c.blockEnd i) :
    ((List.range' k (c.blockEnd i - k)).map c.weight).sum = c.weight k + c.rest k := by
  obtain ⟨-, hle, hinside, hend⟩ := blockEnd_spec hi
  obtain ⟨d, hd⟩ : ∃ d, c.blockEnd i - k = d + 1 := ⟨c.blockEnd i - k - 1, by omega⟩
  induction d generalizing k with
  | zero =>
    rw [hd, range'_one, map_singleton, sum_singleton]
    by_cases hlast : k + 1 = c.size
    · rw [rest_last hlast, Nat.add_zero]
    · have hlead : c.leader (k + 1) := by
        have hk' : c.blockEnd i = k + 1 := by omega
        rw [← hk']
        exact hend (by omega)
      rw [h.rest_eq (by omega), if_pos hlead, Nat.add_zero]
  | succ d ih =>
    have hd' : c.blockEnd i - (k + 1) = d + 1 := by omega
    have hsum := ih (k := k + 1) (hik.trans (Nat.le_succ k)) (by omega) hd'
    have hlead := hinside (k + 1) (by omega) (by omega)
    rw [hd, range'_succ, map_cons, sum_cons, ← hd', hsum,
      h.rest_eq (k := k) (by omega), if_neg (by simp [hlead])]

theorem total_eq (h : WellFormed c) (hi : i < c.size) : c.total i = c.weight i + c.rest i := by
  have hsum := h.sum_block hi le_rfl (blockEnd_spec hi).1
  have hbound : c.weight i + c.rest i < 2 ^ 32 := by
    have hdrop := sum_drop_le (c := c) i
    have hacc := acc_le (c := c) (c.size - (i + 1)) (by omega)
    have hsub : c.size - (c.size - (i + 1)) = i + 1 := by omega
    rw [hsub] at hacc
    rw [weight_drop hi] at hdrop
    have hsmall := h.small
    unfold Compiler.rest
    omega
  rw [Compiler.total, Compiler.block, hsum, Nat.mod_eq_of_lt hbound]

theorem blockStart_of_leader (hk : c.leader k) : c.blockStart k = k := by
  cases k with
  | zero => rfl
  | succ k => rw [Compiler.blockStart, if_pos hk]

theorem blockStart_succ (hk : c.leader (k + 1) = false) :
    c.blockStart (k + 1) = c.blockStart k := by
  rw [Compiler.blockStart, if_neg (by simp [hk])]

theorem blockStart_eq (hi : c.leader i) (hik : i ≤ k)
    (hk : ∀ m, i < m → m ≤ k → c.leader m = false) : c.blockStart k = i := by
  induction k, hik using Nat.le_induction with
  | base => exact blockStart_of_leader hi
  | succ k hik ih =>
    rw [blockStart_succ (hk (k + 1) (by omega) le_rfl)]
    exact ih fun m hm hmk => hk m hm (hmk.trans (Nat.le_succ k))

theorem fused_spec (hi : i < c.size) (hf : c.fused i = some k) :
    i ≤ k ∧ k < c.size ∧ c.ins k = .checkCancel ∧ (∀ m, i ≤ m → m < k → c.ins m = .nop) ∧
      ∀ m, i < m → m ≤ k → c.leader m = false := by
  obtain ⟨hlt, hle, hinside, -⟩ := blockEnd_spec hi
  obtain ⟨hfind, hp⟩ := Option.filter_eq_some_iff.mp hf
  obtain ⟨-, hmem, hbefore⟩ := find?_range'_eq_some.mp hfind
  rw [decide_eq_true_eq] at hp
  rw [mem_range'_1] at hmem
  refine ⟨hmem.1, by omega, hp.2, fun m him hmk => ?_, fun m him hmk => hinside m him (by omega)⟩
  have := hbefore m him hmk
  simpa using this

/-! ## Places in the new code -/

theorem getElem?_flatMap_range {α : Type} (f : Nat → List α) {n j : Nat} (hk : k < n)
    (hj : j < (f k).length) :
    ((List.range n).flatMap f)[((List.range k).flatMap f).length + j]? = (f k)[j]? := by
  obtain ⟨m, rfl⟩ : ∃ m, n = k + (1 + m) := ⟨n - k - 1, by omega⟩
  rw [range_add, flatMap_append, getElem?_append_right (Nat.le_add_right _ _),
    Nat.add_sub_cancel_left, range_add, map_append, flatMap_append, getElem?_append_left]
  · simp
  · simpa using hj

theorem newIndex_succ (k : Nat) : c.newIndex (k + 1) = c.newIndex k + (c.out k).length := by
  rw [Compiler.newIndex, range_succ, flatMap_append, length_append, flatMap_singleton,
    Compiler.newIndex]

/-- An entry of the new code, with its targets put in place. -/
def placed (c : Compiler) (p : Placed) : Placed :=
  { ins := p.ins.retarget c.map, rest := p.rest, stopTo := p.stopTo.map c.map }

theorem getElem?_assemble {j : Nat} (hk : k < c.size) (hj : j < (c.out k).length) :
    c.assemble.code[c.newIndex k + j]? = ((c.out k)[j]?).map (placed c) := by
  show (((List.range c.size).flatMap c.out).map (placed c))[c.newIndex k + j]? = _
  rw [getElem?_map]
  exact congrArg _ (getElem?_flatMap_range c.out hk hj)

/-- Where an instruction is, behind what counts the steps of its block. -/
def inner (c : Compiler) (k : Nat) : Nat :=
  c.newIndex k + (if c.leader k then c.header k else []).length

theorem inner_of_not_leader (hk : c.leader k = false) : inner c k = c.newIndex k := by
  rw [inner, if_neg (by simp [hk])]
  rfl

/-- The steps of its block have been counted, with the check or not. -/
def Past (c : Compiler) (k : Nat) : Prop := ∀ j, c.fused (c.blockStart k) = some j → j < k

theorem newIndex_succ_inner (k : Nat) : c.newIndex (k + 1) = inner c k + (c.body k).length := by
  rw [newIndex_succ, Compiler.out, length_append, inner, Nat.add_assoc]

theorem body_of_nop (hk : c.ins k = .nop) : c.body k = [] := by
  rw [Compiler.body, if_pos (.inl hk)]

theorem getElem?_inner (hk : k < c.size) (hpast : Past c k) (hins : c.ins k ≠ .nop) :
    c.assemble.code[inner c k]? = some
      (placed c { ins := c.ins k, rest := c.rest k, stopTo := c.stopOf k }) ∧
      c.newIndex (k + 1) = inner c k + 1 := by
  have hbody : c.body k = [{ ins := c.ins k, rest := c.rest k, stopTo := c.stopOf k }] := by
    rw [Compiler.body, if_neg]
    rintro (h | h)
    · exact hins h
    · exact absurd (hpast k h) (lt_irrefl k)
  constructor
  · rw [inner, getElem?_assemble hk]
    · rw [Compiler.out, getElem?_append_right le_rfl, Nat.sub_self, hbody]
      rfl
    · rw [Compiler.out, hbody, length_append]
      exact Nat.lt_succ_self _
  · rw [newIndex_succ_inner, hbody]
    rfl

theorem getElem?_header (hi : i < c.size) (hlead : c.leader i) (hp : c.header i = [p]) :
    c.assemble.code[c.newIndex i]? = some (placed c p) ∧ inner c i = c.newIndex i + 1 := by
  constructor
  · have hget := getElem?_assemble (j := 0) hi (by rw [Compiler.out, if_pos hlead, hp]; simp)
    rw [Nat.add_zero] at hget
    rw [hget, Compiler.out, if_pos hlead, hp]
    rfl
  · rw [inner, if_pos hlead, hp]
    rfl

theorem newIndex_fused (hi : i < c.size) (hlead : c.leader i) (hf : c.fused i = some k) :
    c.newIndex (k + 1) = c.newIndex i + 1 := by
  obtain ⟨hik, hk, hcheck, hnops, hinside⟩ := fused_spec hi hf
  have hheader : (c.header i).length = 1 := by
    rw [Compiler.header, hf]
    rfl
  have hbody (m : Nat) (him : i ≤ m) (hmk : m ≤ k) : c.body m = [] := by
    rcases hmk.lt_or_eq with hlt | rfl
    · exact body_of_nop (hnops m him hlt)
    · have hstart := blockStart_eq hlead him hinside
      rw [Compiler.body, if_pos (.inr (hstart ▸ hf))]
  have key (m : Nat) (him : i ≤ m) (hmk : m ≤ k) : c.newIndex (m + 1) = c.newIndex i + 1 := by
    induction m, him using Nat.le_induction with
    | base =>
      rw [newIndex_succ_inner, hbody i le_rfl hik, inner, if_pos hlead, hheader]
      rfl
    | succ m him ih =>
      rw [newIndex_succ_inner, hbody (m + 1) (by omega) hmk,
        inner_of_not_leader (hinside (m + 1) (by omega) hmk)]
      exact ih (by omega)
  exact key k hik le_rfl

/-! ## Targets -/

theorem leader_target (h : WellFormed c) (hk : k < c.size) (hl : c.target (c.ins k) = some l) :
    c.labelAt l < c.size ∧ c.leader (c.labelAt l) = true := by
  refine ⟨h.bound k hk l hl, ?_⟩
  obtain ⟨s, hs, -, hins, -⟩ := getElem?_slots hk
  generalize hp : c.labelAt l = p
  cases p with
  | zero => rfl
  | succ p =>
    rw [Compiler.leader, Bool.or_eq_true]
    left
    refine any_eq_true.mpr ⟨s, hs, ?_⟩
    rw [hins, hl]
    exact beq_iff_eq.mpr hp

theorem leader_stop (h : WellFormed c) (hk : k < c.size) (hl : c.stopOf k = some l) :
    c.labelAt l < c.size ∧ c.leader (c.labelAt l) = true := by
  obtain ⟨j, hj, hl⟩ := h.stops k hk l hl
  exact h.leader_target hj hl

theorem rest_of_endsBlock (h : WellFormed c) (hk : k < c.size) (hend : (c.ins k).endsBlock) :
    c.rest k = 0 := by
  rcases Nat.lt_or_ge (k + 1) c.size with hlt | hge
  · obtain ⟨s, -, hs, hins, -⟩ := getElem?_slots hk
    have hlead : c.leader (k + 1) := by
      rw [Compiler.leader, hs, Bool.or_eq_true]
      right
      show s.ins.endsBlock = true
      rw [hins, hend]
    rw [h.rest_eq hlt, if_pos hlead]
  · exact rest_last (by omega)

/-! ## How instructions end -/

theorem target_of_jump {paths : List Nat} (h : ins.May .jump ran) (hins : ins.Emitted paths) :
    ∃ l, ins.target paths = some l := by
  cases ins with
  | pathRoot desc => exact ⟨_, getElem?_eq_getElem hins⟩
  | steps w | nop => exact h.elim
  | stepsCancel w | checkCancel | plain => exact absurd rfl h.1
  | setPath | eachInit | exec | call | callBuiltin | callNative | define => exact absurd rfl h
  | give | stopOut | end_ => exact nomatch h.1
  | _ => exact ⟨_, rfl⟩

theorem discounts_or_endsBlock_of_run {o : Outcome} (h : ins.May o true) :
    ins.discounts ∨ ins.endsBlock = true := by
  cases ins with
  | tryInPlace done | pathRoot desc => exact .inl rfl
  | steps w | nop => exact h.elim
  | stepsCancel w | checkCancel | plain => exact nomatch h.2
  | _ => exact .inr rfl

theorem endsBlock_of_jump (h : ins.May .jump false) : ins.endsBlock = true := by
  cases ins with
  | tryInPlace done => exact nomatch h rfl
  | pathRoot desc => exact nomatch h.mpr rfl
  | steps w | nop => exact h.elim
  | stepsCancel w | checkCancel | plain => exact absurd rfl h.1
  | _ => rfl

theorem ne_end_of_next (h : ins.May .next ran) : ins ≠ .end_ := by
  rintro rfl
  exact nomatch h.1

theorem may_retarget (f : Nat → Nat) (ins : Ins) : (ins.retarget f).May = ins.May := by
  cases ins <;> rfl

theorem discounts_retarget (f : Nat → Nat) (ins : Ins) :
    (ins.retarget f).discounts = ins.discounts := by
  cases ins <;> rfl

theorem target_retarget (f : Nat → Nat) (paths : List Nat) (ins : Ins) :
    (ins.retarget f).target (paths.map f) = (ins.target paths).map f := by
  cases ins with
  | pathRoot desc => exact getElem?_map
  | _ => rfl

/-! ## The simulation -/

/-- The states of the code and of the body match: at the start of a block, or inside of one with
what is left of it counted already. -/
def Matches (c : Compiler) : State → State → Prop
  | .left a s, .left b t => a = b ∧ s = t
  | .before pc s, .before k t =>
    k < c.size ∧
      (c.leader k = true ∧ pc = c.newIndex k ∧ s = t ∨
        Past c k ∧ pc = inner c k ∧ s = t + (c.weight k : Count) + (c.rest k : Count))
  | _, _ => False

theorem matches_start (hl : c.labelAt l < c.size ∧ c.leader (c.labelAt l)) (t : Count) :
    Matches c (.before (c.map l) t) (.before (c.labelAt l) t) :=
  ⟨hl.1, .inl ⟨hl.2, rfl, rfl⟩⟩

theorem matches_next (h : WellFormed c) (hk : k + 1 < c.size) (hpc : pc = c.newIndex (k + 1))
    (hpast : ∀ j, c.fused (c.blockStart k) = some j → j ≤ k) (t : Count) :
    Matches c (.before pc (t + c.rest k)) (.before (k + 1) t) := by
  refine ⟨hk, ?_⟩
  rw [h.rest_eq hk]
  cases hlead : c.leader (k + 1) with
  | true =>
    rw [if_pos rfl]
    exact .inl ⟨rfl, hpc, by simp⟩
  | false =>
    rw [if_neg Bool.false_ne_true]
    refine .inr ⟨fun j hj => ?_, by rw [inner_of_not_leader hlead, hpc], by push_cast; ring⟩
    rw [blockStart_succ hlead] at hj
    exact Nat.lt_succ_of_le (hpast j hj)

theorem step_nop (h : WellFormed c) (hk : k < c.size) (hins : c.ins k = .nop) (t : Count) :
    k + 1 < c.size ∧
      Compiler.Step c (.before k t) none (.before (k + 1) (t + c.weight k)) := by
  obtain ⟨s, -, hs, hsins, hweight, -⟩ := getElem?_slots hk
  obtain ⟨i, hsize, hend⟩ := h.last
  constructor
  · rcases Nat.lt_or_ge (k + 1) c.size with hlt | hge
    · exact hlt
    · obtain rfl : k = i := by omega
      rw [hins] at hend
      exact nomatch hend
  · rw [← hweight]
    exact .nop hs (hsins.trans hins)

theorem run_nops (h : WellFormed c) (hik : i ≤ k) (hk : k < c.size)
    (hnops : ∀ m, i ≤ m → m < k → c.ins m = .nop)
    (hinside : ∀ m, i < m → m ≤ k → c.leader m = false) (t : Count) :
    ∃ t', Run (Compiler.Step c) (.before i t) [] (.before k t') ∧
      t + (c.weight i : Count) + (c.rest i : Count) =
        t' + (c.weight k : Count) + (c.rest k : Count) := by
  induction k, hik using Nat.le_induction with
  | base => exact ⟨t, .refl _, rfl⟩
  | succ k hik ih =>
    obtain ⟨t', hrun, heq⟩ := ih (by omega) (fun m him hm => hnops m him (by omega))
      (fun m him hm => hinside m him (by omega))
    obtain ⟨-, hstep⟩ := h.step_nop (by omega) (hnops k hik (Nat.lt_succ_self k)) t'
    refine ⟨_, hrun.snoc hstep, ?_⟩
    rw [heq, h.rest_eq hk, if_neg (by simp [hinside (k + 1) (by omega) le_rfl])]
    push_cast
    ring

theorem header_eq_nil (h : c.header k = []) : c.fused k = none ∧ c.total k = 0 := by
  unfold Compiler.header at h
  cases hf : c.fused k with
  | some j =>
    rw [hf] at h
    exact nomatch h
  | none =>
    rw [hf] at h
    refine ⟨rfl, ?_⟩
    by_contra htotal
    rw [if_pos (Nat.pos_of_ne_zero htotal)] at h
    exact nomatch h

/-- The code is at the header of a block of the body that has one, or at what is put for an
instruction of the body that does something. -/
def AtPlaced (c : Compiler) (pc k : Nat) (s t : Count) : Prop :=
  c.leader k = true ∧ pc = c.newIndex k ∧ s = t ∧ c.header k ≠ [] ∨
    Past c k ∧ c.ins k ≠ .nop ∧ pc = inner c k ∧
      s = t + (c.weight k : Count) + (c.rest k : Count)

theorem exists_normal (h : WellFormed c) (hm : Matches c (.before pc s) (.before k t)) :
    ∃ k' t', Run (Compiler.Step c) (.before k t) [] (.before k' t') ∧ k' < c.size ∧
      AtPlaced c pc k' s t' := by
  induction hd : c.size - k using Nat.strong_induction_on generalizing k t with
  | _ d ih =>
    subst hd
    obtain ⟨hk, hm⟩ := hm
    have hinside (hpast : Past c k) (hpc : pc = inner c k)
        (hs : s = t + (c.weight k : Count) + (c.rest k : Count)) :
        ∃ k' t', Run (Compiler.Step c) (.before k t) [] (.before k' t') ∧ k' < c.size ∧
          AtPlaced c pc k' s t' := by
      by_cases hins : c.ins k = .nop
      · obtain ⟨hk', hstep⟩ := h.step_nop hk hins t
        have hpc' : pc = c.newIndex (k + 1) := by
          rw [newIndex_succ_inner, body_of_nop hins]
          exact hpc
        have hm' := h.matches_next hk' hpc' (fun j hj => (hpast j hj).le) (t + c.weight k)
        rw [← hs] at hm'
        obtain ⟨k', t', hrun, hrest⟩ := ih (c.size - (k + 1)) (by omega) hm' rfl
        exact ⟨k', t', .silent hstep hrun, hrest⟩
      · exact ⟨k, t, .refl _, hk, .inr ⟨hpast, hins, hpc, hs⟩⟩
    rcases hm with ⟨hlead, hpc, hs⟩ | ⟨hpast, hpc, hs⟩
    · by_cases hheader : c.header k = []
      · -- nothing is counted for this block
        obtain ⟨hfused, htotal⟩ := header_eq_nil hheader
        rw [h.total_eq hk] at htotal
        obtain ⟨hw, hr⟩ := Nat.add_eq_zero_iff.mp htotal
        refine hinside (fun j hj => ?_) ?_ ?_
        · rw [blockStart_of_leader hlead, hfused] at hj
          exact nomatch hj
        · rw [inner, if_pos hlead, hheader]
          exact hpc
        · rw [hw, hr, hs]
          simp
      · exact ⟨k, t, .refl _, hk, .inl ⟨hlead, hpc, hs, hheader⟩⟩
    · exact hinside hpast hpc hs

theorem matches_goto (h : WellFormed c) {e : Slot} {o : Outcome} {v : Count} (hk : k < c.size)
    (hmay : (c.ins k).May o ran) (heins : e.ins = c.ins k) (hestop : e.stopOf = c.stopOf k)
    (hjump : o = .jump → p.ins.target c.assemble.paths = (c.target (c.ins k)).map c.map)
    (hstop : p.stopTo = (c.stopOf k).map c.map) (hpc : pc + 1 = c.newIndex (k + 1))
    (hpast : ∀ j, c.fused (c.blockStart k) = some j → j ≤ k) (hnext : o = .next → v = t + c.rest k)
    (hother : o ≠ .next → v = t) : Matches c (c.assemble.goto pc p v o) (c.goto k e t o) := by
  obtain ⟨i, hsize, hend⟩ := h.last
  cases o with
  | next =>
    rw [hnext rfl]
    refine h.matches_next ?_ hpc hpast t
    by_contra hlast
    obtain rfl : k = i := by omega
    exact ne_end_of_next hmay hend
  | jump =>
    obtain ⟨l, hl⟩ := target_of_jump hmay (h.emitted k hk)
    have hl' : c.target (c.ins k) = some l := hl
    rw [hother nofun]
    unfold Chunk.goto Compiler.goto
    dsimp only
    rw [hjump rfl, heins, hl']
    exact matches_start (h.leader_target hk hl') t
  | leave r =>
    rw [hother nofun]
    unfold Chunk.goto Compiler.goto
    dsimp only
    rw [hstop, hestop]
    cases hs : c.stopOf k with
    | none => cases r <;> exact ⟨rfl, rfl⟩
    | some l =>
      cases r with
      | stop => exact matches_start (h.leader_stop hk hs) t
      | give | error => exact ⟨rfl, rfl⟩

theorem simulates_inner (h : WellFormed c) {o : Option Event} {σ : State} (hk : k < c.size)
    (hpast : Past c k) (hins : c.ins k ≠ .nop) (hpc : pc = inner c k)
    (hs : s = t + (c.weight k : Count) + (c.rest k : Count))
    (hstep : Chunk.Step c.assemble (.before pc s) o σ) :
    ∃ τ, Compiler.Step c (.before k t) o τ ∧ Matches c σ τ := by
  obtain ⟨e, -, he, heins, hweight, hestop⟩ := getElem?_slots hk
  obtain ⟨hcode, hnew⟩ := getElem?_inner hk hpast hins
  rw [← hpc] at hcode hnew
  have hemitted := h.emitted k hk
  have hentry (s : Count) : Chunk.entry (placed c
      { ins := c.ins k, rest := c.rest k, stopTo := c.stopOf k }) s = s := by
    generalize c.ins k = ins at hemitted
    cases ins with
    | stepsCancel w => exact hemitted.elim
    | _ => rfl
  cases hstep with
  | @steps _ _ p w hp hsteps =>
    obtain rfl := Option.some.inj (hcode.symm.trans hp)
    change (c.ins k).retarget c.map = _ at hsteps
    generalize c.ins k = ins at hemitted hsteps
    cases ins with
    | steps w => exact hemitted.elim
    | _ => cases hsteps
  | @nop _ _ p hp hnop =>
    obtain rfl := Option.some.inj (hcode.symm.trans hp)
    change (c.ins k).retarget c.map = _ at hnop
    generalize c.ins k = ins at hins hnop
    cases ins with
    | nop => exact absurd rfl hins
    | _ => cases hnop
  | @ins _ _ p o hp hmay =>
    obtain rfl := Option.some.inj (hcode.symm.trans hp)
    change ((c.ins k).retarget c.map).May o false at hmay
    rw [may_retarget] at hmay
    refine ⟨_, .ins he (heins ▸ hmay), ?_⟩
    rw [hentry, hweight]
    refine h.matches_goto hk hmay heins hestop (fun _ => target_retarget _ _ _) rfl hnew.symm
      (fun j hj => (hpast j hj).le) ?_ ?_
    · rintro rfl
      exact hs
    · intro ho
      cases o with
      | next => exact absurd rfl ho
      | jump =>
        show s = _
        rw [hs, h.rest_of_endsBlock hk (endsBlock_of_jump hmay)]
        simp
      | leave r =>
        show s - c.rest k = _
        rw [hs]
        ring
  | @run _ _ p o hp hmay r =>
    obtain rfl := Option.some.inj (hcode.symm.trans hp)
    change ((c.ins k).retarget c.map).May o true at hmay
    rw [may_retarget] at hmay
    -- what is taken back is what is left of the block
    have hpending : Chunk.pending (placed c
        { ins := c.ins k, rest := c.rest k, stopTo := c.stopOf k }) = (c.rest k : Count) := by
      show (if ((c.ins k).retarget c.map).discounts then (c.rest k : Count) else 0) = _
      rw [discounts_retarget]
      rcases discounts_or_endsBlock_of_run hmay with hd | hend
      · rw [if_pos hd]
      · rw [h.rest_of_endsBlock hk hend]
        simp
    have hseen : s - (c.rest k : Count) = t + (c.weight k : Count) := by
      rw [hs]
      ring
    refine ⟨c.goto k e (t + e.weight + r) o, ?_, ?_⟩
    · rw [hpending, hseen, ← hweight]
      exact .run he (heins ▸ hmay) r
    · rw [hweight]
      refine h.matches_goto hk hmay heins hestop (fun _ => target_retarget _ _ _) rfl hnew.symm
        (fun j hj => (hpast j hj).le) ?_ ?_
      · rintro rfl
        show s - Chunk.pending _ + r + Chunk.pending _ = _
        rw [hpending, hseen]
      · intro ho
        cases o with
        | next => exact absurd rfl ho
        | jump =>
          show s - Chunk.pending _ + r = _
          rw [hpending, hseen]
        | leave a =>
          show s - Chunk.pending _ + r + Chunk.pending _ - (c.rest k : Count) = _
          rw [hpending, hseen]
          ring

theorem simulates_header (h : WellFormed c) {o : Option Event} {σ : State} (hk : k < c.size)
    (hlead : c.leader k) (hheader : c.header k ≠ []) (hpc : pc = c.newIndex k)
    (hstep : Chunk.Step c.assemble (.before pc s) o σ) :
    ∃ τ, Run (Compiler.Step c) (.before k s) o.toList τ ∧ Matches c σ τ := by
  have htotal : (c.total k : Count) = (c.weight k : Count) + (c.rest k : Count) := by
    rw [h.total_eq hk]
    push_cast
    rfl
  cases hf : c.fused k with
  | none =>
    have hpos : 0 < c.total k := by
      by_contra hzero
      apply hheader
      rw [Compiler.header, hf]
      exact if_neg hzero
    have hp : c.header k = [{ ins := .steps (c.total k), rest := 0, stopTo := none }] := by
      rw [Compiler.header, hf]
      exact if_pos hpos
    obtain ⟨hcode, hinner⟩ := getElem?_header hk hlead hp
    rw [← hpc] at hcode hinner
    cases hstep with
    | @steps _ _ p w hp hsteps =>
      obtain rfl := Option.some.inj (hcode.symm.trans hp)
      obtain rfl := Ins.steps.inj hsteps
      refine ⟨.before k s, .refl _, hk, .inr ⟨fun j hj => ?_, hinner.symm, ?_⟩⟩
      · rw [blockStart_of_leader hlead, hf] at hj
        exact nomatch hj
      · rw [htotal]
        ring
    | @nop _ _ p hp hnop =>
      obtain rfl := Option.some.inj (hcode.symm.trans hp)
      exact nomatch hnop
    | @ins _ _ p o hp hmay | @run _ _ p o hp hmay r =>
      obtain rfl := Option.some.inj (hcode.symm.trans hp)
      exact hmay.elim
  | some j =>
    obtain ⟨hkj, hj, hcheck, hnops, hinside⟩ := fused_spec hk hf
    have hp : c.header k =
        [{ ins := .stepsCancel (c.total k), rest := c.rest j, stopTo := c.stopOf j }] := by
      rw [Compiler.header, hf]
    obtain ⟨hcode, -⟩ := getElem?_header hk hlead hp
    rw [← hpc] at hcode
    have hnew := newIndex_fused hk hlead hf
    rw [← hpc] at hnew
    obtain ⟨t, hrun, heq⟩ := h.run_nops hkj hj hnops hinside s
    obtain ⟨e, -, he, heins, hweight, hestop⟩ := getElem?_slots hj
    cases hstep with
    | @steps _ _ p w hp hsteps =>
      obtain rfl := Option.some.inj (hcode.symm.trans hp)
      exact nomatch hsteps
    | @nop _ _ p hp hnop =>
      obtain rfl := Option.some.inj (hcode.symm.trans hp)
      exact nomatch hnop
    | @run _ _ p o hp hmay r =>
      obtain rfl := Option.some.inj (hcode.symm.trans hp)
      exact nomatch hmay.2
    | @ins _ _ p o hp hmay =>
      obtain rfl := Option.some.inj (hcode.symm.trans hp)
      have hmay' : (c.ins j).May o false := by
        rw [hcheck]
        exact hmay
      have hcounted : s + (c.total k : Count) =
          t + (c.weight j : Count) + (c.rest j : Count) := by
        rw [htotal, ← heq]
        ring
      refine ⟨_, hrun.snoc (.ins he (heins ▸ hmay')), ?_⟩
      rw [hweight]
      refine h.matches_goto hj hmay' heins hestop (fun ho => absurd ho hmay.1) rfl hnew.symm
        (fun i hi => ?_) ?_ ?_
      · rw [blockStart_eq hlead hkj hinside, hf] at hi
        exact (Option.some.inj hi).ge
      · rintro rfl
        exact hcounted
      · intro ho
        cases o with
        | next => exact absurd rfl ho
        | jump => exact absurd rfl hmay.1
        | leave a =>
          show s + (c.total k : Count) - (c.rest j : Count) = _
          rw [hcounted]
          ring

theorem assemble_simulates (h : WellFormed c) :
    Simulates (Chunk.Step c.assemble) (Compiler.Step c) (Matches c) := by
  rintro (⟨pc, s⟩ | ⟨a, s⟩) (⟨k, t⟩ | ⟨b, t⟩) o σ hm hstep
  · obtain ⟨k', t', hrun, hk', hnormal⟩ := h.exists_normal hm
    rcases hnormal with ⟨hlead, hpc, rfl, hheader⟩ | ⟨hpast, hins, hpc, hs⟩
    · obtain ⟨τ, hτ, hmatch⟩ := h.simulates_header hk' hlead hheader hpc hstep
      exact ⟨τ, hrun.trans hτ, hmatch⟩
    · obtain ⟨τ, hτ, hmatch⟩ := h.simulates_inner hk' hpast hins hpc hs hstep
      exact ⟨τ, hrun.snoc hτ, hmatch⟩
  · exact hm.elim
  · exact hm.elim
  · cases hstep

theorem exists_label_of_mem_out (h : WellFormed c) (hk : k < c.size) (hp : p ∈ c.out k) {t : Nat}
    (ht : (placed c p).ins.target c.assemble.paths = some t ∨ (placed c p).stopTo = some t) :
    ∃ l, (c.labelAt l < c.size ∧ c.leader (c.labelAt l)) ∧ t = c.map l := by
  have hstop {j : Nat} (hj : j < c.size) (ht : (c.stopOf j).map c.map = some t) :
      ∃ l, (c.labelAt l < c.size ∧ c.leader (c.labelAt l) = true) ∧ t = c.map l := by
    obtain ⟨l, hl, rfl⟩ := Option.map_eq_some_iff.mp ht
    exact ⟨l, h.leader_stop hj hl, rfl⟩
  rcases mem_append.mp hp with hp | hp
  · split_ifs at hp with hlead
    · unfold Compiler.header at hp
      cases hf : c.fused k with
      | none =>
        rw [hf] at hp
        dsimp only at hp
        split_ifs at hp
        · obtain rfl := mem_singleton.mp hp
          rcases ht with ht | ht
          · exact nomatch ht
          · exact nomatch ht
        · exact nomatch hp
      | some j =>
        rw [hf] at hp
        obtain rfl := mem_singleton.mp hp
        rcases ht with ht | ht
        · exact nomatch ht
        · exact hstop (fused_spec hk hf).2.1 ht
    · exact nomatch hp
  · unfold Compiler.body at hp
    split_ifs at hp
    · exact nomatch hp
    · obtain rfl := mem_singleton.mp hp
      rcases ht with ht | ht
      · obtain ⟨l, hl, rfl⟩ := Option.map_eq_some_iff.mp ((target_retarget _ _ _).symm.trans ht)
        exact ⟨l, h.leader_target hk hl, rfl⟩
      · exact hstop hk ht

end WellFormed

/-- A loop with a call in it. -/
def callLoop : Compiler :=
  let c := new.label.label.enter.bind 0
  let c := ((c.enter.emit .plain).emit (.jumpIfFalsy 1)).pushLoop 1
  let c := ((c.emit .checkCancel).enter.emit .call).popLoop
  (c.emit (.jump 0)).bind 1

theorem built_callLoop : Built 3 callLoop := by
  have hcond : Built 2 (((new.label.label.enter.bind 0).enter.emit .plain).emit (.jumpIfFalsy 1)) :=
    .emit (.emit (.enter (.bind (.enter (.label (.label .new))) 0)) (by trivial)) (by trivial)
  have hloop := @Built.pushLoop _ _ hcond 1
    ⟨_, mem_append_right _ (mem_singleton_self _), rfl⟩
  have hcheck := @Built.emit _ _ hloop .checkCancel trivial
  have hcall := @Built.emit _ _ hcheck.enter .call trivial
  exact (@Built.emit _ _ hcall.popLoop (.jump 0) trivial).bind 1

end Synsema.Vm
