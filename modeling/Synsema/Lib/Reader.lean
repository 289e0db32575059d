import Mathlib.Data.List.Infix

/-!
# Readers of a list, and what they touch

A reader goes along a list from a place on.  It gives what it has read and the place behind it, or
an error, and with either what it touched of the list and the room it reserved (`Access`).

A reader is exact for a writer where it reads a value from a place just if the value is written
there (`Exact`); it is tame where it touches nothing outside the list and reserves no more than a
bound (`Tame`).  Both are closed under what readers are put together with.
-/

/-- What a reader does to its list: it reads some elements at a place, or reserves room for some. -/
inductive Access where
  | read (place n : Nat)
  | reserve (n : Nat)
  deriving DecidableEq

/-- A reader: from a place, what it touched, and what it has read with the next place. -/
def Reader (τ ε α : Type) :=
  List τ → Nat → List Access × Except ε (α × Nat)

namespace Reader

open List

variable {τ ε α β : Type}

/-- Reads nothing. -/
protected def pure (a : α) : Reader τ ε α := fun _ p => ([], .ok (a, p))

/-- One reader after another. -/
protected def bind (r : Reader τ ε α) (f : α → Reader τ ε β) : Reader τ ε β := fun data p =>
  match r data p with
  | (l, .error e) => (l, .error e)
  | (l, .ok (a, q)) => (l ++ (f a data q).1, (f a data q).2)

instance : Monad (Reader τ ε) where
  pure := Reader.pure
  bind := Reader.bind

/-- Stops. -/
def fail (e : ε) : Reader τ ε α := fun _ _ => ([], .error e)

/-- The next `n` elements. -/
def take (n : Nat) (e : ε) : Reader τ ε (List τ) := fun data p =>
  if p + n ≤ data.length then ([.read p n], .ok ((data.drop p).take n, p + n)) else ([], .error e)

/-- The next `n` elements, as an array. -/
def takeArray (n : Nat) (e : ε) : Reader τ ε { l : List τ // l.length = n } := fun data p =>
  if h : p + n ≤ data.length then
    ([.read p n], .ok (⟨(data.drop p).take n, by
      rw [length_take, length_drop]
      omega⟩, p + n))
  else ([], .error e)

/-- The next element. -/
def next (e : ε) : Reader τ ε τ := fun data p =>
  match data[p]? with
  | some a => ([.read p 1], .ok (a, p + 1))
  | none => ([], .error e)

/-- The element that comes next but `i`, if there is one; it is not read over. -/
def peek (i : Nat) : Reader τ ε (Option τ) := fun data p =>
  (if p + i < data.length then [.read (p + i) 1] else [], .ok (data[p + i]?, p))

/-- The length of the list. -/
def size : Reader τ ε Nat := fun data p => ([], .ok (data.length, p))

/-- Room for `n` elements. -/
def reserve (n : Nat) : Reader τ ε Unit := fun _ p => ([.reserve n], .ok ((), p))

/-- The same, `n` times. -/
def times (r : Reader τ ε α) : Nat → Reader τ ε (List α)
  | 0 => Reader.pure []
  | n + 1 => Reader.bind r fun a => Reader.bind (times r n) fun as => Reader.pure (a :: as)

/-- What depends on nothing that is read. -/
def ofExcept (x : Except ε α) : Reader τ ε α := fun _ p => ([], x.map fun a => (a, p))

variable {p : Nat} {f : α → Reader τ ε β}

theorem ofExcept_eq_ok {x : Except ε α} {data : List τ} {q : Nat} {a : α} :
    (ofExcept x data p).2 = .ok (a, q) ↔ x = .ok a ∧ q = p := by
  cases x with
  | error e => exact ⟨nofun, nofun⟩
  | ok b =>
    constructor
    · rintro ⟨⟩
      exact ⟨rfl, rfl⟩
    · rintro ⟨⟨⟩, rfl⟩
      rfl

theorem bind_eq_ok {r : Reader τ ε α} {data : List τ} {b : β × Nat} : ((r >>= f) data p).2 = .ok b ↔
      ∃ a q, (r data p).2 = .ok (a, q) ∧ (f a data q).2 = .ok b := by
  change (Reader.bind r f data p).2 = _ ↔ _
  rw [Reader.bind]
  obtain ⟨l, o⟩ := r data p
  cases o with
  | error e => simp
  | ok c =>
    obtain ⟨a, q⟩ := c
    constructor
    · exact fun h => ⟨a, q, rfl, h⟩
    · rintro ⟨a', q', he, h⟩
      obtain ⟨rfl, rfl⟩ := Prod.mk.inj (Except.ok.inj he)
      exact h

theorem mem_bind {r : Reader τ ε α} {data : List τ} {c : Access} (h : c ∈ ((r >>= f) data p).1) :
    c ∈ (r data p).1 ∨
      ∃ a q, (r data p).2 = .ok (a, q) ∧ c ∈ (f a data q).1 := by
  change c ∈ (Reader.bind r f data p).1 at h
  rw [Reader.bind] at h
  revert h
  obtain ⟨l, o⟩ := r data p
  cases o with
  | error e => exact .inl
  | ok b =>
    intro h
    rcases mem_append.mp h with h | h
    · exact .inl h
    · exact .inr ⟨b.1, b.2, rfl, h⟩

/-! ## Exact readers -/

/-- On this list the reader reads what is written, and nothing else. -/
def Exact (data : List τ) (r : Reader τ ε α) (write : α → List τ) (P : α → Prop) : Prop :=
  ∀ p ≤ data.length, ∀ a q, (r data p).2 = .ok (a, q) ↔
    P a ∧ write a <+: data.drop p ∧ q = p + (write a).length

namespace Exact

variable {data : List τ} {r : Reader τ ε α} {write : α → List τ} {P : α → Prop}

variable {a : List τ} {p : Nat} {Q : β → Prop} {g : β → α}

theorem append_prefix_drop {b : List τ} :
    a ++ b <+: data.drop p ↔ a <+: data.drop p ∧ b <+: data.drop (p + a.length) := by
  constructor
  · rintro ⟨t, ht⟩
    refine ⟨⟨b ++ t, by rw [← append_assoc, ht]⟩, ⟨t, ?_⟩⟩
    rw [← drop_drop, ← ht, append_assoc, drop_left]
  · rintro ⟨⟨t, ht⟩, t', ht'⟩
    refine ⟨t', ?_⟩
    rw [← drop_drop, ← ht, drop_left] at ht'
    rw [← ht, ← ht', append_assoc]

theorem add_length_le (hp : p ≤ data.length) (h : a <+: data.drop p) :
    p + a.length ≤ data.length := by
  have := h.length_le
  rw [length_drop] at this
  omega

theorem pure (a : α) : Exact data (pure a : Reader τ ε α) (fun _ => []) fun b => b = a := by
  intro p hp b q
  change Except.ok (a, p) = Except.ok (b, q) ↔ _
  simp only [Except.ok.injEq, Prod.mk.injEq, nil_prefix, true_and, length_nil, Nat.add_zero]
  exact and_congr eq_comm eq_comm

theorem bind {f : α → Reader τ ε β} {w : β → List τ} (hr : Exact data r write P)
    (hf : ∀ a, P a → Exact data (f a) w fun b => g b = a ∧ Q b) :
    Exact data (r >>= f) (fun b => write (g b) ++ w b) fun b => P (g b) ∧ Q b := by
  intro p hp b q
  rw [bind_eq_ok]
  constructor
  · rintro ⟨a, q', hra, hfb⟩
    obtain ⟨hP, hwrite, rfl⟩ := (hr p hp a q').mp hra
    obtain ⟨⟨rfl, hQ⟩, hrest, rfl⟩ := (hf a hP _ (add_length_le hp hwrite) b q).mp hfb
    refine ⟨⟨hP, hQ⟩, append_prefix_drop.mpr ⟨hwrite, hrest⟩, ?_⟩
    rw [length_append, Nat.add_assoc]
  · rintro ⟨⟨hP, hQ⟩, hwrite, rfl⟩
    obtain ⟨hfirst, hrest⟩ := append_prefix_drop.mp hwrite
    refine ⟨g b, _, (hr p hp _ _).mpr ⟨hP, hfirst, rfl⟩, ?_⟩
    refine (hf _ hP _ (add_length_le hp hfirst) b _).mpr ⟨⟨rfl, hQ⟩, hrest, ?_⟩
    rw [length_append, Nat.add_assoc]

theorem map {f : α → β} (hr : Exact data r write P) (hleft : ∀ a, P a → g (f a) = a ∧ Q (f a))
    (hright : ∀ b, Q b → P (g b) → f (g b) = b) :
    Exact data (r >>= fun a => Pure.pure (f a)) (fun b => write (g b)) fun b => P (g b) ∧ Q b := by
  intro p hp b q
  rw [bind_eq_ok]
  constructor
  · rintro ⟨a, q', hra, hfb⟩
    obtain ⟨rfl, rfl⟩ := Prod.mk.inj (Except.ok.inj hfb)
    obtain ⟨hP, hwrite, rfl⟩ := (hr p hp a q').mp hra
    dsimp only
    rw [(hleft a hP).1]
    exact ⟨⟨hP, (hleft a hP).2⟩, hwrite, rfl⟩
  · rintro ⟨⟨hP, hQ⟩, hwrite, rfl⟩
    refine ⟨g b, _, (hr p hp _ _).mpr ⟨hP, hwrite, rfl⟩, ?_⟩
    change Except.ok (f (g b), _) = _
    rw [hright b hQ hP]

theorem guard {c : Prop} [Decidable c] {e : ε} (hr : ¬ c → Exact data r write P)
    (hc : c → ∀ a, P a → ∀ p ≤ data.length, ¬ write a <+: data.drop p) :
    Exact data (if c then fail e else r) write P := by
  by_cases h : c
  · rw [if_pos h]
    intro p hp a q
    refine ⟨nofun, ?_⟩
    rintro ⟨hP, hwrite, -⟩
    exact absurd hwrite (hc h a hP p hp)
  · rw [if_neg h]
    exact hr h

theorem reserve {n : Nat} (hr : Exact data r write P) :
    Exact data (Reader.reserve n >>= fun _ => r) write P := by
  intro p hp a q
  rw [bind_eq_ok]
  constructor
  · rintro ⟨⟨⟩, q', hq, h⟩
    obtain rfl := (Prod.mk.inj (Except.ok.inj hq)).2
    exact (hr p hp a q).mp h
  · exact fun h => ⟨(), p, rfl, (hr p hp a q).mpr h⟩

theorem size {f : Nat → Reader τ ε α} (hf : Exact data (f data.length) write P) :
    Exact data (Reader.size >>= f) write P := by
  intro p hp a q
  rw [bind_eq_ok]
  constructor
  · rintro ⟨n, q', hq, h⟩
    obtain ⟨rfl, rfl⟩ := Prod.mk.inj (Except.ok.inj hq)
    exact (hf p hp a q).mp h
  · exact fun h => ⟨_, p, rfl, (hf p hp a q).mpr h⟩

theorem take (n : Nat) (e : ε) : Exact data (Reader.take n e) id fun b => b.length = n := by
  intro p hp b q
  rw [Reader.take]
  by_cases h : p + n ≤ data.length
  · rw [if_pos h]
    have hlen : ((data.drop p).take n).length = n := by
      rw [length_take, length_drop]
      omega
    simp only [Except.ok.injEq, Prod.mk.injEq, id_eq]
    constructor
    · rintro ⟨rfl, rfl⟩
      exact ⟨hlen, take_prefix _ _, by rw [hlen]⟩
    · rintro ⟨hn, hpre, rfl⟩
      rw [hn]
      exact ⟨by rw [← hn]; exact (prefix_iff_eq_take.mp hpre).symm, rfl⟩
  · rw [if_neg h]
    refine ⟨nofun, ?_⟩
    rintro ⟨rfl, hpre, -⟩
    exact absurd (add_length_le hp hpre) h

theorem takeArray (n : Nat) (e : ε) :
    Exact data (Reader.takeArray n e) Subtype.val fun _ => True := by
  intro p hp b q
  rw [Reader.takeArray]
  by_cases h : p + n ≤ data.length
  · rw [dif_pos h]
    simp only [Except.ok.injEq, Prod.mk.injEq, true_and]
    constructor
    · rintro ⟨rfl, rfl⟩
      refine ⟨List.take_prefix _ _, ?_⟩
      rw [length_take, length_drop]
      omega
    · rintro ⟨hpre, rfl⟩
      refine ⟨Subtype.ext ?_, by rw [b.2]⟩
      change (data.drop p).take n = b.1
      rw [prefix_iff_eq_take.mp hpre, b.2]
  · rw [dif_neg h]
    refine ⟨nofun, ?_⟩
    rintro ⟨-, hpre, -⟩
    exact absurd (b.2 ▸ add_length_le hp hpre) h

theorem next (e : ε) : Exact data (Reader.next e : Reader τ ε τ) (fun a => [a]) fun _ => True := by
  intro p hp a q
  rw [Reader.next]
  have hdrop : data[p]? = (data.drop p).head? := by rw [head?_drop]
  rw [hdrop]
  cases hd : data.drop p with
  | nil =>
    refine ⟨nofun, ?_⟩
    rintro ⟨-, hpre, -⟩
    exact absurd (prefix_nil.mp hpre) (cons_ne_nil _ _)
  | cons b rest =>
    simp only [head?_cons, Except.ok.injEq, Prod.mk.injEq, true_and, length_singleton]
    constructor
    · rintro ⟨rfl, rfl⟩
      exact ⟨cons_prefix_cons.mpr ⟨rfl, nil_prefix⟩, rfl⟩
    · rintro ⟨hpre, rfl⟩
      exact ⟨(cons_prefix_cons.mp hpre).1.symm, rfl⟩

theorem times (hr : Exact data r write P) (n : Nat) :
    Exact data (r.times n) (fun l => l.flatMap write) fun l => l.length = n ∧ ∀ a ∈ l, P a := by
  induction n with
  | zero =>
    intro p hp l q
    have hnil : Exact data (Pure.pure [] : Reader τ ε (List α)) (fun _ => []) fun l => l = [] :=
      pure []
    refine (hnil p hp l q).trans ?_
    constructor
    · rintro ⟨rfl, hpre, rfl⟩
      exact ⟨⟨rfl, fun _ h => absurd h not_mem_nil⟩, hpre, rfl⟩
    · rintro ⟨⟨hl, -⟩, hpre, rfl⟩
      obtain rfl := length_eq_zero_iff.mp hl
      exact ⟨rfl, hpre, rfl⟩
  | succ n ih =>
    intro p hp l q
    change ((r >>= fun a => r.times n >>= fun as => Pure.pure (a :: as)) data p).2 = _ ↔ _
    rw [bind_eq_ok]
    constructor
    · rintro ⟨a, q', hra, hrest⟩
      obtain ⟨as, q'', has, hpure⟩ := bind_eq_ok.mp hrest
      obtain ⟨rfl, rfl⟩ := Prod.mk.inj (Except.ok.inj hpure)
      obtain ⟨hP, hpre, rfl⟩ := (hr p hp a q').mp hra
      obtain ⟨⟨hlen, hPs⟩, hpres, rfl⟩ := (ih _ (add_length_le hp hpre) as q'').mp has
      refine ⟨⟨by rw [length_cons, hlen], forall_mem_cons.mpr ⟨hP, hPs⟩⟩, ?_, ?_⟩
      · change (a :: as).flatMap write <+: _
        rw [flatMap_cons]
        exact append_prefix_drop.mpr ⟨hpre, hpres⟩
      · change _ = p + ((a :: as).flatMap write).length
        rw [flatMap_cons, length_append, Nat.add_assoc]
    · rintro ⟨⟨hlen, hPs⟩, hpre, rfl⟩
      obtain ⟨a, as, rfl⟩ := exists_cons_of_length_eq_add_one hlen
      obtain ⟨hP, hPs⟩ := forall_mem_cons.mp hPs
      change (a :: as).flatMap write <+: _ at hpre
      rw [flatMap_cons] at hpre
      obtain ⟨hfirst, hrest⟩ := append_prefix_drop.mp hpre
      refine ⟨a, _, (hr p hp _ _).mpr ⟨hP, hfirst, rfl⟩, ?_⟩
      refine bind_eq_ok.mpr ⟨as, _, (ih _ (add_length_le hp hfirst) _ _).mpr
        ⟨⟨Nat.succ.inj hlen, hPs⟩, hrest, rfl⟩, ?_⟩
      change _ = Except.ok (a :: as, p + ((a :: as).flatMap write).length)
      rw [flatMap_cons, length_append, ← Nat.add_assoc]
      rfl

theorem congr {write' : α → List τ} {P' : α → Prop} (hr : Exact data r write P)
    (hP : ∀ a, P a ↔ P' a) (hwrite : ∀ a, P a → write a = write' a) : Exact data r write' P' := by
  intro p hp a q
  rw [hr p hp a q, ← hP]
  constructor
  · rintro ⟨h, hpre, hq⟩
    rw [hwrite a h] at hpre hq
    exact ⟨h, hpre, hq⟩
  · rintro ⟨h, hpre, hq⟩
    rw [← hwrite a h] at hpre hq
    exact ⟨h, hpre, hq⟩

end Exact

/-! ## Tame readers -/

/-- What is touched lies in the list, and the room is at most the bound. -/
def Within (data : List τ) (bound : Nat) : Access → Prop
  | .read place n => place + n ≤ data.length
  | .reserve n => n ≤ bound

/-- On this list the reader touches nothing outside it, and reserves no more than the bound. -/
def Tame (data : List τ) (bound : Nat) (r : Reader τ ε α) : Prop :=
  ∀ p ≤ data.length, (∀ c ∈ (r data p).1, Within data bound c) ∧
    ∀ a q, (r data p).2 = .ok (a, q) → q ≤ data.length

namespace Tame

variable {data : List τ} {bound : Nat} {r : Reader τ ε α}

theorem pure (a : α) : Tame data bound (pure a : Reader τ ε α) := by
  intro p hp
  refine ⟨fun c hc => absurd hc not_mem_nil, fun b q h => ?_⟩
  obtain ⟨rfl, rfl⟩ := Prod.mk.inj (Except.ok.inj h)
  exact hp

theorem fail (e : ε) : Tame data bound (fail e : Reader τ ε α) := fun _ _ =>
  ⟨fun _ hc => absurd hc not_mem_nil, fun _ _ h => by cases h⟩

theorem bind {f : α → Reader τ ε β} (hr : Tame data bound r) (hf : ∀ a, Tame data bound (f a)) :
    Tame data bound (r >>= f) := by
  intro p hp
  obtain ⟨hlog, hnext⟩ := hr p hp
  constructor
  · intro c hc
    rcases mem_bind hc with hc | ⟨a, q, hra, hc⟩
    · exact hlog c hc
    · exact (hf a q (hnext a q hra)).1 c hc
  · intro b q' h
    obtain ⟨a, q, hra, hfb⟩ := bind_eq_ok.mp h
    exact (hf a q (hnext a q hra)).2 b q' hfb

theorem ite {c : Prop} [Decidable c] {s : Reader τ ε α} (hr : c → Tame data bound r)
    (hs : ¬ c → Tame data bound s) : Tame data bound (if c then r else s) := by
  by_cases h : c
  · rw [if_pos h]
    exact hr h
  · rw [if_neg h]
    exact hs h

theorem take (n : Nat) (e : ε) : Tame data bound (Reader.take n e) := by
  intro p hp
  rw [Reader.take]
  by_cases h : p + n ≤ data.length
  · rw [if_pos h]
    refine ⟨fun c hc => ?_, fun b q hb => ?_⟩
    · obtain rfl := mem_singleton.mp hc
      exact h
    · obtain ⟨-, rfl⟩ := Prod.mk.inj (Except.ok.inj hb)
      exact h
  · rw [if_neg h]
    exact fail e p hp

theorem takeArray (n : Nat) (e : ε) :
    Tame data bound (Reader.takeArray n e : Reader τ ε { l : List τ // l.length = n }) := by
  intro p hp
  rw [Reader.takeArray]
  by_cases h : p + n ≤ data.length
  · rw [dif_pos h]
    refine ⟨fun c hc => ?_, fun b q hb => ?_⟩
    · obtain rfl := mem_singleton.mp hc
      exact h
    · obtain ⟨-, rfl⟩ := Prod.mk.inj (Except.ok.inj hb)
      exact h
  · rw [dif_neg h]
    exact fail e p hp

theorem next (e : ε) : Tame data bound (Reader.next e : Reader τ ε τ) := by
  intro p hp
  rw [Reader.next]
  cases hd : data[p]? with
  | none => exact fail e p hp
  | some a =>
    have hlt : p < data.length := (List.getElem?_eq_some_iff.mp hd).1
    refine ⟨fun c hc => ?_, fun b q hb => ?_⟩
    · obtain rfl := mem_singleton.mp hc
      exact hlt
    · obtain ⟨-, rfl⟩ := Prod.mk.inj (Except.ok.inj hb)
      exact hlt

theorem peek (i : Nat) : Tame data bound (Reader.peek i : Reader τ ε (Option τ)) := by
  intro p hp
  refine ⟨fun c hc => ?_, fun b q hb => ?_⟩
  · rw [Reader.peek] at hc
    by_cases h : p + i < data.length
    · rw [if_pos h] at hc
      obtain rfl := mem_singleton.mp hc
      exact h
    · rw [if_neg h] at hc
      exact absurd hc not_mem_nil
  · obtain ⟨-, rfl⟩ := Prod.mk.inj (Except.ok.inj hb)
    exact hp

theorem size {f : Nat → Reader τ ε α} (hf : Tame data bound (f data.length)) :
    Tame data bound (Reader.size >>= f) := by
  intro p hp
  obtain ⟨hlog, hnext⟩ := hf p hp
  exact ⟨hlog, hnext⟩

theorem reserve {n : Nat} (h : n ≤ bound) :
    Tame data bound (Reader.reserve n : Reader τ ε Unit) := by
  intro p hp
  refine ⟨fun c hc => ?_, fun b q hb => ?_⟩
  · obtain rfl := mem_singleton.mp hc
    exact h
  · obtain ⟨-, rfl⟩ := Prod.mk.inj (Except.ok.inj hb)
    exact hp

theorem times (hr : Tame data bound r) (n : Nat) : Tame data bound (r.times n) := by
  induction n with
  | zero => exact pure []
  | succ n ih => exact hr.bind fun a => ih.bind fun as => pure (a :: as)

end Tame

end Reader
