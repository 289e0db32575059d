import Synsema.Labels.Exec

/-!
# The discipline of the labels of the control flow

However a node ends, the stack and the depth of the loops are what they were before it, and the
labels of what follows a jump have only grown (`Disciplined`).  A loop gives the label of the
`stop`s in it up again, and a call those of the task, except for what escapes from its body: the
labels of the jumps with no loop around them (`outside`).
-/

namespace Synsema.Labels

open Run Interp List

/-! ## The history -/

/-- The labels of the jumps that are in no loop of the history, with `d` loops around it. -/
def outsideFrom : Nat → List Mark → Label
  | _, [] => .empty
  | d, .loop :: ms => outsideFrom (d + 1) ms
  | d, .endLoop :: ms => outsideFrom (d - 1) ms
  | 0, .branch l :: ms => l.union (outsideFrom 0 ms)
  | 0, .stop l :: ms => l.union (outsideFrom 0 ms)
  | d + 1, .branch _ :: ms => outsideFrom (d + 1) ms
  | d + 1, .stop _ :: ms => outsideFrom (d + 1) ms

/-- The labels of the jumps that are in no loop. -/
def outside (ms : List Mark) : Label := outsideFrom 0 ms

/-- The loops of the history are left in it. -/
inductive Closed : List Mark → Prop where
  | nil : Closed []
  | branch (l : Label) : Closed [.branch l]
  | stop (l : Label) : Closed [.stop l]
  | append {ms ms' : List Mark} (h : Closed ms) (h' : Closed ms') : Closed (ms ++ ms')
  | loop {ms : List Mark} (h : Closed ms) : Closed (.loop :: (ms ++ [.endLoop]))

variable {ms : List Mark}

theorem Closed.outsideFrom_succ (h : Closed ms) (d : Nat) (ms' : List Mark) :
    outsideFrom (d + 1) (ms ++ ms') = outsideFrom (d + 1) ms' := by
  induction h generalizing d ms' with
  | nil | branch l | stop l => rfl
  | append _ _ ih ih' => rw [append_assoc, ih, ih']
  | loop _ ih =>
    rw [cons_append, append_assoc, outsideFrom, ih]
    rfl

theorem Closed.outside_append (h : Closed ms) (ms' : List Mark) :
    outside (ms ++ ms') = (outside ms).union (outside ms') := by
  induction h generalizing ms' with
  | nil => exact (SortedSet.empty_union _).symm
  | branch l | stop l =>
    change l.union (outside ms') = (l.union .empty).union _
    rw [SortedSet.union_empty]
  | append _ _ ih ih' => rw [append_assoc, ih, ih', ih, SortedSet.union_assoc]
  | loop h _ =>
    have hin : ∀ ms', outside (.loop :: (_ ++ [.endLoop]) ++ ms') = outside ms' := fun ms' => by
      rw [cons_append, append_assoc, outside, outsideFrom, h.outsideFrom_succ]
      rfl
    rw [hin, ← append_nil (Mark.loop :: _), hin]
    exact (SortedSet.empty_union _).symm

variable {ω : Type} {s t u : Interp ω}

/-! ## States -/

/-- The labels have only grown. -/
structure Grows (s t : Interp ω) : Prop where
  control : ∀ p ∈ s.controlTaint, p ∈ t.controlTaint
  loops : ∀ p ∈ s.loopTaint, p ∈ t.loopTaint
  escaping : ∀ p ∈ s.escapingTaint, p ∈ t.escapingTaint

/-- What came to the history between two states, and what escaped. -/
structure Since (s t : Interp ω) (ms : List Mark) : Prop where
  marks : t.marks = s.marks ++ ms
  closed : Closed ms
  off : s.labels = false → ms = []
  escaping : t.escapingTaint =
    if s.loopDepth = 0 then s.escapingTaint.union (outside ms) else s.escapingTaint

/-- What a node, a block or a call leaves of the labels of the control flow. -/
structure Disciplined (s t : Interp ω) : Prop where
  labels : t.labels = s.labels
  pc : t.pc = s.pc
  loopDepth : t.loopDepth = s.loopDepth
  grows : Grows s t
  since : ∃ ms, Since s t ms

theorem Grows.trans (h : Grows s t) (h' : Grows t u) : Grows s u where
  control p hp := h'.control p (h.control p hp)
  loops p hp := h'.loops p (h.loops p hp)
  escaping p hp := h'.escaping p (h.escaping p hp)

theorem Since.of_eq (hm : t.marks = s.marks) (he : t.escapingTaint = s.escapingTaint) :
    Since s t [] where
  marks := by rw [hm, append_nil]
  closed := .nil
  off _ := rfl
  escaping := by
    have hnone : outside [] = .empty := rfl
    rw [he, hnone, SortedSet.union_empty, ite_self]

theorem Since.trans {ms' : List Mark} (h : Since s t ms) (h' : Since t u ms')
    (hl : t.labels = s.labels) (hd : t.loopDepth = s.loopDepth) : Since s u (ms ++ ms') where
  marks := by rw [h'.marks, h.marks, append_assoc]
  closed := h.closed.append h'.closed
  off hoff := by rw [h.off hoff, h'.off (hl.trans hoff), append_nil]
  escaping := by
    rw [h'.escaping, h.escaping, hd]
    by_cases hs : s.loopDepth = 0
    · rw [if_pos hs, if_pos hs, if_pos hs, h.closed.outside_append, SortedSet.union_assoc]
    · rw [if_neg hs, if_neg hs, if_neg hs]

namespace Disciplined

theorem trans (h : Disciplined s t) (h' : Disciplined t u) : Disciplined s u where
  labels := h'.labels.trans h.labels
  pc := h'.pc.trans h.pc
  loopDepth := h'.loopDepth.trans h.loopDepth
  grows := h.grows.trans h'.grows
  since := by
    obtain ⟨ms, hms⟩ := h.since
    obtain ⟨ms', hms'⟩ := h'.since
    exact ⟨ms ++ ms', hms.trans hms' h.labels h.loopDepth⟩

theorem seen_world (s : Interp ω) (l : Label) (d : Nat) (w : ω) :
    Disciplined s { s with seen := l, recursionDepth := d, world := w } :=
  ⟨rfl, rfl, rfl, ⟨fun _ h => h, fun _ h => h, fun _ h => h⟩, [], .of_eq rfl rfl⟩

theorem refl (s : Interp ω) : Disciplined s s := seen_world s s.seen s.recursionDepth s.world

instance : Std.Refl (Disciplined (ω := ω)) := ⟨refl⟩

instance : IsTrans (Interp ω) Disciplined := ⟨fun _ _ _ => trans⟩

theorem noteSeen (l : Label) (s : Interp ω) : Disciplined s (s.noteSeen l) := by
  rw [Interp.noteSeen]
  by_cases hl : l.isEmpty = true
  · rw [if_pos hl]
    exact refl s
  · rw [if_neg hl]
    exact seen_world s _ s.recursionDepth s.world

theorem control (l : Label) (s : Interp ω) :
    Disciplined s { s with controlTaint := s.controlTaint.union l } :=
  ⟨rfl, rfl, rfl, ⟨fun _ h => SortedSet.mem_union.mpr (.inl h), fun _ h => h, fun _ h => h⟩,
    [], .of_eq rfl rfl⟩

theorem jump {m : Mark} {l : Label} (hm : Closed [m]) (hout : outside [m] = l)
    (hs : s.labels) : Disciplined s ((s.record m).taintStop l) := by
  have hoff : s.labels = false → [m] = [] := fun h => nomatch hs.symm.trans h
  rw [taintStop]
  by_cases hd : s.loopDepth > 0
  · rw [if_pos (show (s.record m).loopDepth > 0 from hd)]
    exact {
      labels := rfl
      pc := rfl
      loopDepth := rfl
      grows := ⟨fun _ h => h, fun _ h => SortedSet.mem_union.mpr (.inl h), fun _ h => h⟩
      since := ⟨[m], rfl, hm, hoff, (if_neg hd.ne').symm⟩ }
  · rw [if_neg (show ¬ (s.record m).loopDepth > 0 from hd)]
    have hescaping : s.escapingTaint.union l =
        if s.loopDepth = 0 then s.escapingTaint.union (outside [m]) else s.escapingTaint := by
      rw [if_pos (Nat.eq_zero_of_not_pos hd), hout]
    exact {
      labels := rfl
      pc := rfl
      loopDepth := rfl
      grows := ⟨fun _ h => SortedSet.mem_union.mpr (.inl h), fun _ h => h,
        fun _ h => SortedSet.mem_union.mpr (.inl h)⟩
      since := ⟨[m], rfl, hm, hoff, hescaping⟩ }

theorem taintBranch (l : Label) (escapesTask : Bool) (s : Interp ω) :
    Disciplined s (s.taintBranch l escapesTask) := by
  rw [Interp.taintBranch]
  by_cases hs : s.labels = true
  · by_cases hl : l.isEmpty = true
    · rw [if_pos (by rw [hl, Bool.or_true])]
      exact refl s
    · rw [if_neg (by rw [hs]; exact hl)]
      by_cases he : escapesTask = true
      · rw [if_pos he]
        exact (control l s).trans (noteSeen l _)
      · rw [if_neg he]
        exact (jump (.branch l) (SortedSet.union_empty l) hs).trans (noteSeen l _)
  · rw [if_pos (by rw [Bool.eq_false_of_not_eq_true hs]; rfl)]
    exact refl s

theorem taintAfterGive (s : Interp ω) : Disciplined s s.taintAfterGive := by
  rw [Interp.taintAfterGive]
  by_cases hs : (!s.labels) = true
  · rw [if_pos hs]
    exact refl s
  · rw [if_neg hs]
    by_cases hl : s.pcLabel.isEmpty = true
    · exact (if_pos hl).symm ▸ refl s
    · exact (if_neg hl).symm ▸ (control s.pcLabel s).trans (noteSeen s.pcLabel _)

theorem taintAfterStop (s : Interp ω) : Disciplined s s.taintAfterStop := by
  rw [Interp.taintAfterStop]
  by_cases hs : s.labels = true
  · rw [if_neg (by rw [hs]; exact Bool.false_ne_true)]
    by_cases hl : s.pcLabel.isEmpty = true
    · exact (if_pos hl).symm ▸ refl s
    · have hjump := jump (.stop s.pcLabel) (SortedSet.union_empty s.pcLabel) hs
      exact (if_neg hl).symm ▸ hjump.trans (noteSeen s.pcLabel _)
  · rw [if_pos (by rw [Bool.eq_false_of_not_eq_true hs]; rfl)]
    exact refl s

theorem pcPush_eq (l : Label) (s : Interp ω) :
    ∃ seen joined, s.pcPush l = { s with pc := s.pc ++ [joined], seen := seen } := by
  rw [pcPush, Interp.noteSeen]
  by_cases hl : l.isEmpty = true
  · exact ⟨s.seen, _, by rw [if_pos hl]⟩
  · exact ⟨s.seen.union l, _, by rw [if_neg hl]⟩

theorem pcPop {l : Label} (h : Disciplined (s.pcPush l) t) : Disciplined s t.pcPop := by
  obtain ⟨seen, joined, hpush⟩ := pcPush_eq l s
  rw [hpush] at h
  have hpc : t.pc.dropLast = s.pc := by rw [h.pc, dropLast_concat]
  obtain ⟨ms, hms⟩ := h.since
  exact {
    labels := h.labels
    pc := hpc
    loopDepth := h.loopDepth
    grows := ⟨h.grows.control, h.grows.loops, h.grows.escaping⟩
    since := ⟨ms, hms.marks, hms.closed, hms.off, hms.escaping⟩ }

/-! ### Loops and calls -/

theorem exitLoop (h : Disciplined s.enterLoop t) : Disciplined s (t.exitLoop s.loopTaint) := by
  rw [Interp.enterLoop] at h
  rw [Interp.exitLoop]
  by_cases hs : s.labels = true
  · rw [if_neg (by rw [hs]; exact Bool.false_ne_true)] at h
    have ht : t.labels := h.labels.trans hs
    rw [if_neg (by rw [ht]; exact Bool.false_ne_true)]
    obtain ⟨ms, hmarks, hclosed, -, hescaping⟩ := h.since
    have hsame : t.escapingTaint = s.escapingTaint := hescaping.trans (if_neg (Nat.succ_ne_zero _))
    have hnone : outside (.loop :: (ms ++ [.endLoop])) = .empty := hclosed.outsideFrom_succ 0 _
    exact {
      labels := h.labels
      pc := h.pc
      loopDepth := by rw [h.loopDepth]; rfl
      grows := ⟨h.grows.control, fun _ hp => hp, h.grows.escaping⟩
      since := by
        refine ⟨.loop :: (ms ++ [.endLoop]), ?_, hclosed.loop, ?_, ?_⟩
        · rw [record, hmarks, record, append_assoc, append_assoc]
          rfl
        · exact fun hoff => nomatch hs.symm.trans hoff
        · change t.escapingTaint = _
          rw [hsame, hnone, SortedSet.union_empty, ite_self] }
  · have hoff : s.labels = false := Bool.eq_false_of_not_eq_true hs
    rw [if_pos (by rw [hoff]; rfl)] at h
    rw [if_pos (by rw [h.labels, hoff]; rfl)]
    exact h

end Disciplined

/-- What a call leaves of the labels for the caller: its own, and a label that came out of it. -/
structure Joined (s t : Interp ω) (l : Label) : Prop where
  inLoop : s.loopDepth > 0 → t.controlTaint = s.controlTaint ∧
    t.loopTaint = s.loopTaint.union l ∧ t.escapingTaint = s.escapingTaint
  noLoop : s.loopDepth = 0 → t.controlTaint = s.controlTaint.union l ∧
    t.loopTaint = s.loopTaint ∧ t.escapingTaint = s.escapingTaint.union l

/-- The state with the labels that were saved. -/
def restored (s t : Interp ω) : Interp ω :=
  { t with
    escapingTaint := s.escapingTaint
    loopDepth := s.loopDepth
    controlTaint := s.controlTaint
    loopTaint := s.loopTaint }

theorem taintStop_empty (s : Interp ω) : s.taintStop .empty = s := by
  rw [taintStop, SortedSet.union_empty, SortedSet.union_empty, SortedSet.union_empty, ite_self]

theorem leaveCall_eq (h : Since s.enterCall t ms) (hl : t.labels = s.labels) :
    t.leaveCall s.taintFrame = (restored s t).taintStop (outside ms) := by
  have hescaping : t.escapingTaint = outside ms :=
    h.escaping.trans ((if_pos rfl).trans (SortedSet.empty_union _))
  have hleave : t.leaveCall s.taintFrame = if (!t.labels || t.escapingTaint.isEmpty) = true
      then restored s t else (restored s t).taintStop t.escapingTaint := rfl
  rw [hleave, hescaping]
  by_cases hc : (!t.labels || (outside ms).isEmpty) = true
  · have hnone : outside ms = .empty := by
      rcases (Bool.or_eq_true _ _).mp hc with hoff | hempty
      · rw [h.off (hl.symm.trans ((Bool.not_eq_true' _).mp hoff))]
        rfl
      · exact SortedSet.isEmpty_iff.mp hempty
    rw [if_pos hc, hnone, taintStop_empty]
  · rw [if_neg hc]

theorem taintStop_same (l : Label) (s : Interp ω) : (s.taintStop l).labels = s.labels ∧
    (s.taintStop l).pc = s.pc ∧ (s.taintStop l).loopDepth = s.loopDepth ∧
    (s.taintStop l).marks = s.marks := by
  rw [taintStop]
  split
  · exact ⟨rfl, rfl, rfl, rfl⟩
  · exact ⟨rfl, rfl, rfl, rfl⟩

theorem joined_leaveCall (h : Since s.enterCall t ms) (hl : t.labels = s.labels) :
    Joined s (t.leaveCall s.taintFrame) (outside ms) := by
  rw [leaveCall_eq h hl, taintStop]
  constructor
  · intro hd
    rw [if_pos (show (restored s t).loopDepth > 0 from hd)]
    exact ⟨rfl, rfl, rfl⟩
  · intro hd
    rw [if_neg (show ¬ (restored s t).loopDepth > 0 from hd.not_gt)]
    exact ⟨rfl, rfl, rfl⟩

theorem Joined.grows {l : Label} (h : Joined s t l) : Grows s t := by
  rcases Nat.eq_zero_or_pos s.loopDepth with hd | hd
  · obtain ⟨hcontrol, hloop, hescaping⟩ := h.noLoop hd
    exact ⟨fun _ hp => hcontrol ▸ SortedSet.mem_union.mpr (.inl hp), fun _ hp => hloop ▸ hp,
      fun _ hp => hescaping ▸ SortedSet.mem_union.mpr (.inl hp)⟩
  · obtain ⟨hcontrol, hloop, hescaping⟩ := h.inLoop hd
    exact ⟨fun _ hp => hcontrol ▸ hp, fun _ hp => hloop ▸ SortedSet.mem_union.mpr (.inl hp),
      fun _ hp => hescaping ▸ hp⟩

theorem Disciplined.leaveCall (h : Disciplined s.enterCall t) :
    Disciplined s (t.leaveCall s.taintFrame) := by
  obtain ⟨ms, hms⟩ := h.since
  have hl : t.labels = s.labels := h.labels
  have hjoined := joined_leaveCall hms hl
  obtain ⟨hlabels, hpc, hdepth, hmarks⟩ := taintStop_same (outside ms) (restored s t)
  rw [← leaveCall_eq hms hl] at hlabels hpc hdepth hmarks
  exact {
    labels := hlabels.trans hl
    pc := hpc.trans h.pc
    loopDepth := hdepth
    grows := hjoined.grows
    since := by
      refine ⟨ms, hmarks.trans hms.marks, hms.closed, hms.off, ?_⟩
      rcases Nat.eq_zero_or_pos s.loopDepth with hd | hd
      · rw [if_pos hd]
        exact (hjoined.noLoop hd).2.2
      · rw [if_neg hd.ne']
        exact (hjoined.inLoop hd).2.2 }

end Synsema.Labels
