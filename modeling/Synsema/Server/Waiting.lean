import Mathlib.Data.List.Count

/-!
# The waiting sections of a thread

`waiting`, `resumed` and their guards (`synsema-core/src/waiting.rs`) with `LentPermit`
(`synsema-stdlib/src/server.rs`), as a job opens and closes them.  Each of them may call the hook of
the pool, which has the thread's permit given or taken back.

Sections nest: the hook only sees the first wait that is opened and the last that is closed, and a
resumed section sets the depth aside.  A lent permit has no depth.
-/

namespace Synsema.Server

/-- A guard a job has open. -/
inductive Guard where
  /-- `Waiting`. -/
  | waiting
  /-- `Resumed`, with the depth outside where it was opened in a wait. -/
  | resumed (depth : Option Nat)
  /-- `LentPermit`. -/
  | lent
deriving DecidableEq

/-- The depth that open guards leave, the last one opened first. -/
inductive Nested : Nat → List Guard → Prop where
  | nil : Nested 0 []
  | waiting {d : Nat} {gs : List Guard} (h : Nested d gs) : Nested (d + 1) (.waiting :: gs)
  | resumed {d : Nat} {gs : List Guard} (h : Nested d gs) (hd : 0 < d) :
      Nested 0 (.resumed (some d) :: gs)
  | apart {gs : List Guard} (h : Nested 0 gs) : Nested 0 (.resumed none :: gs)
  | lent {d : Nat} {gs : List Guard} (h : Nested d gs) : Nested d (.lent :: gs)

/-- `DEPTH` of a thread, with the guards its job has open. -/
structure Sections where
  depth : Nat
  guards : List Guard
  nested : Nested depth guards

/-- What opening or closing a guard has the pool do. -/
inductive Hook where
  | quiet
  /-- `on_wait(true)`. -/
  | waits
  /-- `on_wait(false)`. -/
  | back
  /-- `lend_permit`. -/
  | lends
  /-- `LentPermit::drop`. -/
  | unlends
deriving DecidableEq

/-- What it adds to the free permits. -/
def Hook.credit : Hook → Int
  | .quiet => 0
  | .waits | .lends => 1
  | .back | .unlends => -1

/-- What it adds to the threads in a wait. -/
def Hook.waiting : Hook → Int
  | .waits => 1
  | .back => -1
  | .quiet | .lends | .unlends => 0

/-- Does it wake a thread that waits for a permit? -/
def Hook.notifies : Hook → Bool
  | .waits | .lends => true
  | .quiet | .back | .unlends => false

/-- Does it take the permit back, at once and on credit? -/
def Hook.takes : Hook → Bool
  | .back | .unlends => true
  | .quiet | .waits | .lends => false

/-- What a job does with its sections. -/
inductive Act where
  | waiting
  | resumed
  | lendPermit
  /-- The last guard it opened is dropped. -/
  | close
deriving DecidableEq

namespace Sections

/-- Before a job. -/
def none : Sections := ⟨0, [], .nil⟩

def waiting (s : Sections) : Sections × Hook :=
  (⟨s.depth + 1, .waiting :: s.guards, s.nested.waiting⟩, if s.depth = 0 then .waits else .quiet)

def resumed (s : Sections) : Sections × Hook :=
  if h : 0 < s.depth then
    (⟨0, .resumed (some s.depth) :: s.guards, s.nested.resumed h⟩, .back)
  else
    (⟨0, .resumed Option.none :: s.guards, .apart (Nat.eq_zero_of_not_pos h ▸ s.nested)⟩, .quiet)

def lendPermit (s : Sections) : Sections × Hook :=
  (⟨s.depth, .lent :: s.guards, s.nested.lent⟩, .lends)

/-- The drop of the last guard. -/
def close : Sections → Option (Sections × Hook)
  | ⟨_, [], _⟩ => Option.none
  | ⟨d, .waiting :: gs, h⟩ =>
    some (⟨d - 1, gs, by cases h; assumption⟩, if d - 1 = 0 then .back else .quiet)
  | ⟨_, .resumed (some d) :: gs, h⟩ => some (⟨d, gs, by cases h; assumption⟩, .waits)
  | ⟨d, .resumed Option.none :: gs, h⟩ => some (⟨d, gs, by cases h; assumption⟩, .quiet)
  | ⟨d, .lent :: gs, h⟩ => some (⟨d, gs, by cases h; assumption⟩, .unlends)

/-- One act. -/
def act (s : Sections) : Act → Option (Sections × Hook)
  | .waiting => some s.waiting
  | .resumed => some s.resumed
  | .lendPermit => some s.lendPermit
  | .close => s.close

/-! ## How often the permit is given -/

/-- The permit is given for the waits that are open, and for each guard that lends it. -/
def given (s : Sections) : Nat := s.guards.count .lent + (if s.depth = 0 then 0 else 1)

/-- Is it in a wait? -/
def inWait (s : Sections) : Bool := s.depth ≠ 0

@[simp]
theorem given_none : none.given = 0 := rfl

@[simp]
theorem inWait_none : none.inWait = false := rfl

variable {s : Sections}

theorem depth_of_guards_nil (h : s.guards = []) : s.depth = 0 := by
  obtain ⟨d, gs, hn⟩ := s
  cases h
  cases hn
  rfl

theorem given_of_guards_nil (h : s.guards = []) : s.given = 0 := by
  rw [given, h, depth_of_guards_nil h]
  rfl

theorem inWait_of_guards_nil (h : s.guards = []) : s.inWait = false := by
  simp [inWait, depth_of_guards_nil h]

theorem act_spec {s' : Sections} {a : Act} {k : Hook} (h : s.act a = some (s', k)) :
    (s'.given : Int) = s.given + k.credit ∧
      (s'.inWait.toNat : Int) = s.inWait.toNat + k.waiting := by
  obtain ⟨d, gs, hn⟩ := s
  cases a with
  | waiting =>
    cases h
    by_cases hd : d = 0 <;> simp [given, inWait, hd, Hook.credit, Hook.waiting]
  | resumed =>
    by_cases hd : 0 < d
    · have hd' : d ≠ 0 := Nat.ne_of_gt hd
      simp only [act, resumed, dif_pos hd, Option.some.injEq, Prod.mk.injEq] at h
      obtain ⟨rfl, rfl⟩ := h
      simp only [given, inWait, List.count_cons, Hook.credit, Hook.waiting]
      refine ⟨?_, by simp [hd']⟩
      simp only [hd', if_false, beq_iff_eq, reduceCtorEq, if_true]
      omega
    · have hd' : d = 0 := Nat.eq_zero_of_not_pos hd
      simp only [act, resumed, dif_neg hd, Option.some.injEq, Prod.mk.injEq] at h
      obtain ⟨rfl, rfl⟩ := h
      simp [given, inWait, hd', Hook.credit, Hook.waiting]
  | lendPermit =>
    cases h
    refine ⟨?_, (Int.add_zero _).symm⟩
    simp only [given, List.count_cons_self, Hook.credit]
    omega
  | close =>
    cases gs with
    | nil => cases h
    | cons g gs =>
      cases hn with
      | waiting hn =>
        rename_i d
        cases h
        by_cases hd : d = 0
        · simp only [given, inWait, List.count_cons, hd, Hook.credit, Hook.waiting]
          refine ⟨?_, by decide⟩
          simp only [beq_iff_eq, reduceCtorEq, if_true, if_false, Nat.zero_add, Nat.one_ne_zero]
          omega
        · simp [given, inWait, hd, Hook.credit, Hook.waiting]
      | resumed hn hd =>
        cases h
        simp [given, inWait, Nat.ne_of_gt hd, Hook.credit, Hook.waiting]
      | apart hn =>
        cases h
        simp [given, inWait, Hook.credit, Hook.waiting]
      | lent hn =>
        cases h
        refine ⟨?_, (Int.add_zero _).symm⟩
        simp only [given, List.count_cons_self, Hook.credit]
        omega

end Sections

end Synsema.Server
