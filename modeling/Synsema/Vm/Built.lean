import Synsema.Vm.Blocks

/-!
# What is put in blocks

A body as the compiler gives it to `finish`.  Its nodes are all in the weights of its instructions
(`Built.sum_weights`), its labels are in it, and where a `stop` cuts a loop a block starts: each
loop is left by a jump too.
-/

namespace Synsema.Vm

open Compiler List

/-- An instruction that the compiler emits: those that count steps `finish` puts in. -/
def Ins.Emitted (paths : List Nat) : Ins → Prop
  | .steps _ | .stepsCancel _ => False
  | .pathRoot desc => desc < paths.length
  | _ => True

variable {c : Compiler} {n : Nat}

/-- What the compiler has of a body of which it entered some nodes. -/
inductive Built : Nat → Compiler → Prop
  | new : Built 0 .new
  | enter {n : Nat} {c : Compiler} (h : Built n c) : Built (n + 1) c.enter
  | emit {n : Nat} {c : Compiler} (h : Built n c) {ins : Ins} (hins : ins.Emitted c.paths) :
      Built n (c.emit ins)
  | flush {n : Nat} {c : Compiler} (h : Built n c) : Built n c.flush
  | label {n : Nat} {c : Compiler} (h : Built n c) : Built n c.label
  | bind {n : Nat} {c : Compiler} (h : Built n c) (l : Nat) : Built n (c.bind l)
  | pushPath {n : Nat} {c : Compiler} (h : Built n c) (done : Nat) : Built n (c.pushPath done)
  -- the jump out of a loop is emitted before its body
  | pushLoop {n : Nat} {c : Compiler} (h : Built n c) {exit : Nat}
      (hexit : ∃ s ∈ c.slots, c.target s.ins = some exit) : Built n (c.pushLoop exit)
  | popLoop {n : Nat} {c : Compiler} (h : Built n c) : Built n c.popLoop

/-- Each label that is used has its place. -/
def Compiler.Bound (c : Compiler) : Prop :=
  ∀ s ∈ c.slots, ∀ l ∈ c.target s.ins, c.labels[l]?.join.isSome = true

instance (c : Compiler) : Decidable c.Bound :=
  inferInstanceAs (Decidable (∀ s ∈ c.slots, ∀ l ∈ c.target s.ins, c.labels[l]?.join.isSome = true))

/-! ## Nothing is lost while it is emitted -/

/-- The steps that the instructions carry. -/
def Compiler.sumWeights (c : Compiler) : Nat := (c.slots.map Slot.weight).sum

theorem sumWeights_emit (c : Compiler) (ins : Ins) :
    (c.emit ins).sumWeights = c.sumWeights + c.pending := by
  simp [Compiler.emit, Compiler.sumWeights]

theorem sumWeights_flush (c : Compiler) :
    c.flush.sumWeights + c.flush.pending = c.sumWeights + c.pending := by
  unfold Compiler.flush
  split_ifs
  · rw [sumWeights_emit]
    rfl
  · rfl

theorem Built.sum_weights (h : Built n c) (hn : n < 2 ^ 32) : c.sumWeights + c.pending = n := by
  induction h with
  | new => rfl
  | enter h ih =>
    have := ih (by omega)
    show _ + (_ + 1) % 2 ^ 32 = _
    rw [Nat.mod_eq_of_lt (by omega)]
    exact congrArg (· + 1) this
  | emit h hins ih =>
    rw [sumWeights_emit]
    exact ih hn
  | flush h ih =>
    rw [sumWeights_flush]
    exact ih hn
  | bind h l ih => exact (sumWeights_flush _).trans (ih hn)
  | label h ih | pushPath h done ih | pushLoop h hexit ih | popLoop h ih => exact ih hn

theorem sumWeights_closed (h : Built n c) (hn : n < 2 ^ 32) : c.closed.sumWeights = n := by
  rw [Compiler.closed, sumWeights_emit, sumWeights_flush]
  exact h.sum_weights hn

/-! ## Labels -/

variable {ins : Ins}

theorem target_append {paths : List Nat} (h : ins.Emitted paths) (done : Nat) :
    ins.target (paths ++ [done]) = ins.target paths := by
  cases ins with
  | pathRoot desc => exact getElem?_append_left h
  | _ => rfl

/-- What holds of all that is built. -/
structure Sound (c : Compiler) : Prop where
  emitted : ∀ s ∈ c.slots, s.ins.Emitted c.paths
  labels : ∀ l p : Nat, c.labels[l]? = some (some p) → p ≤ c.slots.length
  stops : ∀ s ∈ c.slots, ∀ l, s.stopOf = some l → ∃ s' ∈ c.slots, c.target s'.ins = some l
  loops : ∀ l ∈ c.loops, ∃ s ∈ c.slots, c.target s.ins = some l

theorem Sound.emit (h : Sound c) (hins : ins.Emitted c.paths) : Sound (c.emit ins) where
  emitted := by
    refine forall_mem_append.mpr ⟨h.emitted, ?_⟩
    exact forall_mem_singleton.mpr hins
  labels l p hl := (h.labels l p hl).trans (by simp [Compiler.emit])
  stops := by
    have hmem {l : Nat} (hl : ∃ s ∈ c.slots, c.target s.ins = some l) :
        ∃ s ∈ (c.emit ins).slots, c.target s.ins = some l := by
      obtain ⟨s, hs, hl⟩ := hl
      exact ⟨s, mem_append_left _ hs, hl⟩
    refine forall_mem_append.mpr ⟨fun s hs l hl => hmem (h.stops s hs l hl), ?_⟩
    refine forall_mem_singleton.mpr fun l hl => hmem (h.loops l ?_)
    exact mem_of_getLast? hl
  loops l hl := by
    obtain ⟨s, hs, hl⟩ := h.loops l hl
    exact ⟨s, mem_append_left _ hs, hl⟩

theorem Sound.flush (h : Sound c) : Sound c.flush := by
  unfold Compiler.flush
  split_ifs
  · exact h.emit trivial
  · exact h

theorem Built.sound (h : Built n c) : Sound c := by
  induction h with
  | new => exact ⟨nofun, nofun, nofun, nofun⟩
  | enter h ih => exact ⟨ih.emitted, ih.labels, ih.stops, ih.loops⟩
  | emit h hins ih => exact ih.emit hins
  | flush h ih => exact ih.flush
  | @label n c h ih =>
    refine ⟨ih.emitted, fun l p hl => ih.labels l p ?_, ih.stops, ih.loops⟩
    change (c.labels ++ [none])[l]? = some (some p) at hl
    rw [getElem?_append] at hl
    split_ifs at hl with hlt
    · exact hl
    · rw [getElem?_singleton] at hl
      split_ifs at hl
      exact absurd (Option.some.inj hl) (Option.some_ne_none p).symm
  | @bind n c h l ih =>
    have ih := ih.flush
    refine ⟨ih.emitted, fun l' p hl => ?_, ih.stops, ih.loops⟩
    change (c.flush.labels.set l (some c.flush.slots.length))[l']? = some (some p) at hl
    rw [getElem?_set] at hl
    split_ifs at hl with heq hlt
    · cases hl
      exact le_rfl
    · exact ih.labels l' p hl
  | @pushPath n c h done ih =>
    have htarget (s : Slot) (hs : s ∈ c.slots) :
        (c.pushPath done).target s.ins = c.target s.ins :=
      target_append (ih.emitted s hs) done
    refine ⟨fun s hs => ?_, ih.labels, fun s hs l hl => ?_, fun l hl => ?_⟩
    · have hins := ih.emitted s hs
      generalize s.ins = ins at hins
      cases ins with
      | pathRoot desc =>
        show desc < (c.paths ++ [done]).length
        rw [length_append]
        exact Nat.lt_add_right _ hins
      | _ => exact hins
    · obtain ⟨s', hs', hl⟩ := ih.stops s hs l hl
      exact ⟨s', hs', (htarget s' hs').trans hl⟩
    · obtain ⟨s', hs', hl⟩ := ih.loops l hl
      exact ⟨s', hs', (htarget s' hs').trans hl⟩
  | pushLoop h hexit ih =>
    refine ⟨ih.emitted, ih.labels, ih.stops, ?_⟩
    refine forall_mem_append.mpr ⟨ih.loops, forall_mem_singleton.mpr hexit⟩
  | popLoop h ih =>
    exact ⟨ih.emitted, ih.labels, ih.stops, fun l hl => ih.loops l (dropLast_subset _ hl)⟩

/-! ## What is put in blocks -/

/-- A body that `finish` has ended. -/
structure WellFormed (c : Compiler) : Prop where
  last : ∃ i, c.size = i + 1 ∧ c.ins i = .end_
  emitted : ∀ i < c.size, (c.ins i).Emitted c.paths
  bound : ∀ i < c.size, ∀ l, c.target (c.ins i) = some l → c.labelAt l < c.size
  stops : ∀ i < c.size, ∀ l, c.stopOf i = some l → ∃ j < c.size, c.target (c.ins j) = some l
  small : c.sumWeights < 2 ^ 32

theorem slots_closed (c : Compiler) :
    ∃ e, c.closed.slots = c.flush.slots ++ [e] ∧ e.ins = .end_ := ⟨_, rfl, rfl⟩

theorem labels_flush (c : Compiler) : c.flush.labels = c.labels := by
  unfold Compiler.flush
  split_ifs <;> rfl

theorem target_flush (c : Compiler) (ins : Ins) : c.flush.target ins = c.target ins := by
  unfold Compiler.flush
  split_ifs <;> rfl

theorem Compiler.Bound.flush (h : c.Bound) : c.flush.Bound := by
  intro s hs l hl
  rw [Option.mem_def, target_flush] at hl
  rw [labels_flush]
  unfold Compiler.flush at hs
  split_ifs at hs
  · rcases mem_append.mp hs with hs | hs
    · exact h s hs l hl
    · obtain rfl := mem_singleton.mp hs
      exact nomatch hl
  · exact h s hs l hl

theorem getElem?_slots {i : Nat} (hi : i < c.size) :
    ∃ s ∈ c.slots, c.slots[i]? = some s ∧ s.ins = c.ins i ∧ s.weight = c.weight i ∧
      s.stopOf = c.stopOf i := by
  have hs : c.slots[i]? = some c.slots[i] := getElem?_eq_getElem hi
  refine ⟨_, getElem_mem hi, hs, ?_, ?_, ?_⟩
  · rw [Compiler.ins, hs]
    rfl
  · rw [Compiler.weight, hs]
    rfl
  · rw [Compiler.stopOf, hs]
    rfl

theorem exists_index {s : Slot} (hs : s ∈ c.slots) : ∃ j < c.size, c.ins j = s.ins := by
  obtain ⟨j, hj, rfl⟩ := mem_iff_getElem.mp hs
  refine ⟨j, hj, ?_⟩
  rw [Compiler.ins, getElem?_eq_getElem hj]
  rfl

theorem Built.wellFormed (h : Built n c) (hb : c.Bound) (hn : n < 2 ^ 32) :
    WellFormed c.closed := by
  have hsound := h.sound.flush
  have hclosed : Sound c.closed := hsound.emit trivial
  obtain ⟨e, hslots, he⟩ := slots_closed c
  have hsize : c.closed.size = c.flush.slots.length + 1 := by
    rw [Compiler.size, hslots, length_append]
    rfl
  refine ⟨⟨_, hsize, ?_⟩, fun i hi => ?_, fun i hi l hl => ?_, fun i hi l hl => ?_, ?_⟩
  · rw [Compiler.ins, hslots, getElem?_concat_length]
    exact he
  · obtain ⟨s, hs, -, hins, -⟩ := getElem?_slots hi
    exact hins ▸ hclosed.emitted s hs
  · obtain ⟨s, hs, -, hins, -⟩ := getElem?_slots hi
    rw [← hins] at hl
    rw [hslots] at hs
    rcases mem_append.mp hs with hs | hs
    · obtain ⟨p, hp⟩ := Option.isSome_iff_exists.mp (hb.flush s hs l hl)
      have hlabel : c.closed.labelAt l = p := by
        rw [Compiler.labelAt, show c.closed.labels = c.flush.labels from rfl, hp]
        rfl
      rw [hlabel, hsize]
      exact Nat.lt_succ_of_le (hsound.labels l p (Option.join_eq_some_iff.mp hp))
    · obtain rfl := mem_singleton.mp hs
      rw [he] at hl
      exact nomatch hl
  · obtain ⟨s, hs, -, -, -, hstop⟩ := getElem?_slots hi
    obtain ⟨s', hs', hl⟩ := hclosed.stops s hs l (hstop.trans hl)
    obtain ⟨j, hj, hins⟩ := exists_index hs'
    exact ⟨j, hj, hins ▸ hl⟩
  · rw [sumWeights_closed h hn]
    exact hn

end Synsema.Vm
