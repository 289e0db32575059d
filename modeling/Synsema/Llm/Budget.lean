import Mathlib.Algebra.Order.Group.Nat
import Synsema.Llm.Metered

/-!
# Token budgets hold

In every state that is reached, the slots in use are the threads with a capped call in progress, the
process counter is what the calls have used, and that of an identity what those calls have used under
it at whose end a budget of it applied; a provider is called after the counters were below the
budgets when the call looked at them (`metered`).  Until a counter wraps, a call that is charged
after a budget was reached had looked at it before.

What an identity used while it had no budget is in no counter (`not_metered`).
-/

namespace Synsema.Llm

open Text Census List

/-! ## Checks -/

namespace Check

variable (g : Shared) (p : MeteredProvider) (k : Check)

/-- When the call looked at it, the process counter was below the budget. -/
def ProcessOk : Prop :=
  k.process ≤ g.charged.length ∧ ∀ budget, p.budget = some budget →
    tally Charge.tokens (g.charged.take k.process) % counterSize < budget

/-- When the call looked at it, the counter of the identity was below the budget of the host. -/
def HostOk : Prop :=
  k.host ≤ g.billed.length ∧ ∀ id limit, k.identity = some id →
    p.perIdentity.get? id = some limit →
      tally (Charge.toIdentity id) (g.billed.take k.host) % counterSize < limit

/-- When the call looked at it again, that counter was below the delegated budget. -/
def DelegatedOk : Prop :=
  k.delegatedAt ≤ g.billed.length ∧ ∀ id limit, k.identity = some id → k.delegated = some limit →
    tally (Charge.toIdentity id) (g.billed.take k.delegatedAt) % counterSize < limit

/-- When the call looked at them, the counters were below the budgets. -/
structure Ok : Prop where
  process : k.ProcessOk g p
  host : k.HostOk g p
  delegated : k.DelegatedOk g

end Check

/-- What was added stays. -/
structure Grows (g g' : Shared) : Prop where
  charged : g.charged <+: g'.charged
  billed : g.billed <+: g'.billed

theorem Grows.refl (g : Shared) : Grows g g := ⟨prefix_rfl, prefix_rfl⟩

section Growth

variable {g g' : Shared} {p : MeteredProvider} {k : Check}

theorem Check.ProcessOk.grows (h : k.ProcessOk g p) (hg : Grows g g') : k.ProcessOk g' p := by
  refine ⟨h.1.trans hg.charged.length_le, fun budget hb => ?_⟩
  obtain ⟨l, hl⟩ := hg.charged
  rw [← hl, take_append_of_le_length h.1]
  exact h.2 budget hb

theorem Check.HostOk.grows (h : k.HostOk g p) (hg : Grows g g') : k.HostOk g' p := by
  refine ⟨h.1.trans hg.billed.length_le, fun id limit hid hlimit => ?_⟩
  obtain ⟨l, hl⟩ := hg.billed
  rw [← hl, take_append_of_le_length h.1]
  exact h.2 id limit hid hlimit

theorem Check.DelegatedOk.grows (h : k.DelegatedOk g) (hg : Grows g g') : k.DelegatedOk g' := by
  refine ⟨h.1.trans hg.billed.length_le, fun id limit hid hlimit => ?_⟩
  obtain ⟨l, hl⟩ := hg.billed
  rw [← hl, take_append_of_le_length h.1]
  exact h.2 id limit hid hlimit

theorem Check.Ok.grows (h : k.Ok g p) (hg : Grows g g') : k.Ok g' p :=
  ⟨h.process.grows hg, h.host.grows hg, h.delegated.grows hg⟩

end Growth

/-! ## The threads -/

/-- The check is for whom the thread works. -/
def Thread.Agrees (th : Thread) (k : Check) : Prop :=
  k.identity = th.identity ∧ k.delegated = th.delegated

/-- What is kept of a call: how far it has looked. -/
def Call.Ok (g : Shared) (th : Thread) (c : Call) : Prop :=
  match c.stage with
  | .start => c.slot = none
  | .waiting => c.slot = none ∧ th.held = 0
  | .process | .marker => True
  | .host => c.check.ProcessOk g c.provider ∧ th.Agrees c.check
  | .delegated => c.check.ProcessOk g c.provider ∧ c.check.HostOk g c.provider ∧ th.Agrees c.check
  | .calling | .returned _ | .charged _ | .done => c.check.Ok g c.provider

/-- The call has a slot of the process. -/
def Call.outer (c : Call) : Bool := c.slot == some true

/-- A call has a slot of the process if no call under it has one. -/
def Layered : List Call → Prop
  | [] => True
  | c :: rest => (∀ outer, c.slot = some outer → (outer = true ↔ census Call.slotted rest = 0)) ∧
      Layered rest

/-- What is kept of a thread. -/
structure Thread.Ok (g : Shared) (th : Thread) : Prop where
  held : th.held = census Call.slotted th.stack
  layered : Layered th.stack
  calls : ∀ c ∈ th.stack, c.Ok g th
  under : ∀ c ∈ th.stack.tail, c.Open

/-- The thread has a capped call in progress. -/
def Thread.busy (th : Thread) : Bool := th.stack.any Call.slotted

theorem any_eq_false_iff {l : List Call} : l.any Call.slotted = false ↔ census Call.slotted l = 0 := by
  rw [any_eq_false, census_eq_zero]
  exact forall₂_congr fun c _ => iff_of_eq (Bool.not_eq_true _)

theorem census_outer {l : List Call} (h : Layered l) :
    census Call.outer l = (l.any Call.slotted).toNat := by
  induction l with
  | nil => rfl
  | cons c rest ih =>
    have hrest : census Call.outer rest = (rest.any Call.slotted).toNat := ih h.2
    have hcons : census Call.outer (c :: rest) = census Call.outer rest + c.outer.toNat := by
      rw [census, countP_cons, census]
      cases c.outer <;> rfl
    rw [hcons, any_cons, Call.outer, Call.slotted]
    cases hslot : c.slot with
    | none => exact hrest
    | some outer =>
      have houter := h.1 outer hslot
      cases outer with
      | true =>
        rw [hrest, any_eq_false_iff.mpr (houter.mp rfl)]
        rfl
      | false =>
        have hany : rest.any Call.slotted := by
          refine Bool.eq_true_of_not_eq_false fun hany => ?_
          exact Bool.false_ne_true (houter.mpr (any_eq_false_iff.mp hany))
        rw [hrest, hany]
        rfl

/-! ## What a move keeps of a thread -/

section Moves

variable {g g' : Shared} {th : Thread} {c c' : Call} {rest : List Call}

theorem Call.Ok.of_open (h : c.Ok g th) (hopen : c.Open) (hg : Grows g g') (th' : Thread) :
    c.Ok g' th' := by
  rw [Call.Ok] at h ⊢
  rcases hopen with hs | hs
  · rw [hs] at h ⊢
    exact Check.Ok.grows h hg
  · rw [hs]
    trivial

theorem Call.Ok.grows (h : c.Ok g th) (hg : Grows g g') : c.Ok g' th := by
  rw [Call.Ok] at h ⊢
  cases hs : c.stage with
  | start | waiting | process | marker =>
    rw [hs] at h
    exact h
  | host =>
    rw [hs] at h
    exact ⟨h.1.grows hg, h.2⟩
  | delegated =>
    rw [hs] at h
    exact ⟨h.1.grows hg, h.2.1.grows hg, h.2.2⟩
  | calling | returned tokens | charged tokens | done =>
    rw [hs] at h
    exact Check.Ok.grows h hg

theorem Thread.Ok.top (h : th.Ok g) (hstack : th.stack = c :: rest) (hg : Grows g g')
    (hslot : c'.slot = c.slot) (hc' : c'.Ok g' th) : (th.top c' rest).Ok g' := by
  obtain ⟨hheld, hlayered, hcalls, hunder⟩ := h
  rw [hstack] at hheld hlayered hcalls hunder
  have hslotted : c'.slotted = c.slotted := congrArg Option.isSome hslot
  refine ⟨?_, ⟨?_, hlayered.2⟩, ?_, hunder⟩
  · refine hheld.trans ?_
    change census _ (c :: rest) = census _ (c' :: rest)
    rw [census, census, countP_cons, countP_cons, hslotted]
  · rw [hslot]
    exact hlayered.1
  · intro d hd
    rcases List.mem_cons.mp hd with rfl | hd
    · exact hc'
    · exact (hcalls d (mem_cons_of_mem _ hd)).of_open (hunder d hd) hg _

theorem Thread.Ok.takes (h : th.Ok g) (hstack : th.stack = c :: rest) (hnone : c.slot = none)
    (hg : Grows g g') {outer : Bool} (houter : outer ↔ th.held = 0) :
    (th.takes c outer rest).Ok g' := by
  obtain ⟨hheld, hlayered, hcalls, hunder⟩ := h
  rw [hstack] at hheld hlayered hcalls hunder
  have hrest : th.held = census Call.slotted rest := by
    rw [hheld, census, countP_cons, Call.slotted, hnone]
    rfl
  refine ⟨?_, ⟨?_, hlayered.2⟩, ?_, hunder⟩
  · change th.held + 1 = census _ (c.gets outer :: rest)
    rw [hrest, census, census, countP_cons]
    rfl
  · rintro outer' ⟨⟩
    rw [← hrest]
    exact houter
  · intro d hd
    rcases List.mem_cons.mp hd with rfl | hd
    · exact trivial
    · exact (hcalls d (mem_cons_of_mem _ hd)).of_open (hunder d hd) hg _

theorem Thread.Ok.pop (h : th.Ok g) (hstack : th.stack = c :: rest) (hg : Grows g g') :
    (th.pop c rest).Ok g' := by
  obtain ⟨hheld, hlayered, hcalls, hunder⟩ := h
  rw [hstack] at hheld hlayered hcalls hunder
  refine ⟨?_, hlayered.2, ?_, ?_⟩
  · change th.held - c.slotted.toNat = census _ rest
    rw [hheld, census, countP_cons, census]
    cases c.slotted <;> rfl
  · intro d hd
    exact (hcalls d (mem_cons_of_mem _ hd)).of_open (hunder d hd) hg _
  · intro d hd
    exact hunder d (mem_of_mem_tail hd)

theorem Thread.Ok.calls_of_free (h : th.Ok g) (hfree : th.Free) (th' : Thread) :
    ∀ c ∈ th.stack, c.Open ∧ c.Ok g th' := by
  intro c hc
  have hopen : c.Open := by
    cases hstack : th.stack with
    | nil =>
      rw [hstack] at hc
      cases hc
    | cons d rest =>
      rw [hstack] at hc
      rcases List.mem_cons.mp hc with rfl | hc
      · exact hfree c rest hstack
      · have hunder := h.under
        rw [hstack] at hunder
        exact hunder c hc
  exact ⟨hopen, (h.calls c hc).of_open hopen (.refl g) th'⟩

theorem Thread.Ok.scope (h : th.Ok g) (hfree : th.Free) (identity : Option Text)
    (delegated : Option Nat) : Thread.Ok g { th with identity, delegated } :=
  ⟨h.held, h.layered, fun c hc => (h.calls_of_free hfree _ c hc).2, h.under⟩

theorem Thread.Ok.call (h : th.Ok g) (hfree : th.Free) (p : MeteredProvider) :
    (th.top (.new p) th.stack).Ok g := by
  refine ⟨?_, ⟨nofun, h.layered⟩, ?_, fun c hc => (h.calls_of_free hfree th c hc).1⟩
  · refine h.held.trans ?_
    change _ = census _ (Call.new p :: th.stack)
    rw [census, census, countP_cons]
    rfl
  · intro c hc
    rcases List.mem_cons.mp hc with rfl | hc
    · rfl
    · exact (h.calls_of_free hfree _ c hc).2

end Moves

/-! ## The counters -/

/-- What is kept of the counters. -/
structure Books (g : Shared) : Prop where
  process : g.process = tally Charge.tokens g.charged % counterSize
  identity : ∀ id, g.identityUsed id = tally (Charge.toIdentity id) g.billed % counterSize
  charged : ∀ c ∈ g.charged, c.check.Ok g c.provider
  billed : ∀ c ∈ g.billed, c.check.Ok g c.provider

theorem Books.used {g : Shared} (h : Books g) (used : Nat) : Books { g with used } :=
  ⟨h.process, h.identity,
    fun c hc => (h.charged c hc).grows ⟨prefix_rfl, prefix_rfl⟩,
    fun c hc => (h.billed c hc).grows ⟨prefix_rfl, prefix_rfl⟩⟩

theorem grows_charge (g : Shared) (c : Charge) : Grows g (g.charge c) :=
  ⟨prefix_append _ _, prefix_rfl⟩

theorem grows_bill (g : Shared) (c : Charge) : Grows g (g.bill c) :=
  ⟨prefix_rfl, prefix_append _ _⟩

theorem Books.charge {g : Shared} (h : Books g) {c : Charge} (hc : c.check.Ok g c.provider) :
    Books (g.charge c) := by
  refine ⟨?_, h.identity, fun d hd => ?_, fun d hd => (h.billed d hd).grows (grows_charge g c)⟩
  · change (g.process + c.tokens) % counterSize = tally Charge.tokens (g.charged ++ [c]) % counterSize
    rw [h.process, tally_join, Nat.mod_add_mod]
  · refine Check.Ok.grows ?_ (grows_charge g c)
    rcases mem_append.mp hd with hd | hd
    · exact h.charged d hd
    · rw [mem_singleton.mp hd]
      exact hc

theorem Books.bill {g : Shared} (h : Books g) {c : Charge} (hc : c.check.Ok g c.provider) :
    Books (g.bill c) := by
  refine ⟨h.process, fun id ↦ ?_, fun d hd ↦ (h.charged d hd).grows (grows_bill g c), fun d hd ↦ ?_⟩
  · change _ = tally (Charge.toIdentity id) (g.billed ++ [c]) % counterSize
    rw [tally_join, ← Nat.mod_add_mod, ← h.identity id, Charge.toIdentity, Shared.bill]
    have hlt : g.identityUsed id < counterSize := by
      rw [h.identity id]
      exact Nat.mod_lt _ (by decide)
    cases hto : c.billedTo with
    | none => exact (Nat.mod_eq_of_lt hlt).symm
    | some id' =>
      by_cases hid : id' = id
      · subst hid
        rw [if_pos rfl]
        exact Function.update_self _ _ _
      · rw [if_neg (fun he => hid (Option.some.inj he))]
        exact (Function.update_of_ne (Ne.symm hid) _ _).trans (Nat.mod_eq_of_lt hlt).symm
  · refine Check.Ok.grows ?_ (grows_bill g c)
    rcases mem_append.mp hd with hd | hd
    · exact h.billed d hd
    · rw [mem_singleton.mp hd]
      exact hc

/-! ## Moves -/

theorem Thread.Ok.head {g : Shared} {th : Thread} {c : Call} {rest : List Call} (h : th.Ok g)
    (hstack : th.stack = c :: rest) : c.Ok g th :=
  h.calls c (hstack ▸ mem_cons_self)

theorem Move.keeps {g g' : Shared} {th th' : Thread} (h : Move g th g' th') (hth : th.Ok g)
    (hg : Books g) : Grows g g' ∧ th'.Ok g' ∧ Books g' := by
  cases h with
  | scope hfree identity delegated => exact ⟨.refl g, hth.scope hfree _ _, hg⟩
  | call hfree p => exact ⟨.refl g, hth.call hfree p, hg⟩
  | uncapped hstack hs hc => exact ⟨.refl g, hth.top hstack (.refl g) rfl trivial, hg⟩
  | nested hstack hs hc hheld =>
    have hnone := hth.head hstack
    rw [Call.Ok, hs] at hnone
    exact ⟨.refl g, hth.takes hstack hnone (.refl g) (iff_of_false nofun hheld.ne'), hg⟩
  | wait hstack hs hc hheld =>
    have hnone := hth.head hstack
    rw [Call.Ok, hs] at hnone
    exact ⟨.refl g, hth.top hstack (.refl g) rfl ⟨hnone, hheld⟩, hg⟩
  | acquire hstack hs hused =>
    rename_i c rest
    have hcall := hth.head hstack
    rw [Call.Ok, hs] at hcall
    obtain ⟨hnone, hheld⟩ := hcall
    have hthread : { th with held := 0 } = th := by rw [← hheld]
    rw [hthread]
    have hgrows : Grows g { g with used := g.used + 1 } := ⟨prefix_rfl, prefix_rfl⟩
    exact ⟨hgrows, hth.takes hstack hnone hgrows (iff_of_true rfl hheld), hg.used _⟩
  | refuse hstack hs hused
  | cutProcess hstack hs hb hover => exact ⟨.refl g, hth.top hstack (.refl g) rfl trivial, hg⟩
  | passProcess hstack hs hunder =>
    refine ⟨.refl g, hth.top hstack (.refl g) rfl ⟨⟨le_rfl, fun budget hb => ?_⟩, rfl, rfl⟩, hg⟩
    rw [take_length, ← hg.process]
    exact hunder budget hb
  | cutHost hstack hs hid hb hover => exact ⟨.refl g, hth.top hstack (.refl g) rfl trivial, hg⟩
  | passHost hstack hs hunder =>
    have hcall := hth.head hstack
    rw [Call.Ok, hs] at hcall
    obtain ⟨hprocess, hagrees⟩ := hcall
    refine ⟨.refl g, hth.top hstack (.refl g) rfl ⟨hprocess, ⟨le_rfl, fun id limit hid hlimit ↦ ?_⟩,
      hagrees⟩, hg⟩
    rw [take_length, ← hg.identity]
    exact hunder id limit (hagrees.1.symm.trans hid) hlimit
  | cutDelegated hstack hs hid hb hover => exact ⟨.refl g, hth.top hstack (.refl g) rfl trivial, hg⟩
  | passDelegated hstack hs hunder =>
    have hcall := hth.head hstack
    rw [Call.Ok, hs] at hcall
    obtain ⟨hprocess, hhost, hagrees⟩ := hcall
    refine ⟨.refl g, hth.top hstack (.refl g) rfl ⟨hprocess, hhost, le_rfl,
      fun id limit hid hlimit => ?_⟩, hg⟩
    rw [take_length, ← hg.identity]
    exact hunder id limit (hagrees.1.symm.trans hid) (hagrees.2.symm.trans hlimit)
  | returns hstack hs htokens =>
    have hcall := hth.head hstack
    rw [Call.Ok, hs] at hcall
    exact ⟨.refl g, hth.top hstack (.refl g) rfl hcall, hg⟩
  | charge hstack hs =>
    rename_i c rest tokens
    have hcall := hth.head hstack
    rw [Call.Ok, hs] at hcall
    have hgrows := grows_charge g (th.charge c tokens)
    exact ⟨hgrows, hth.top hstack hgrows rfl (Check.Ok.grows hcall hgrows), hg.charge hcall⟩
  | bill hstack hs =>
    rename_i c rest tokens
    have hcall := hth.head hstack
    rw [Call.Ok, hs] at hcall
    have hgrows := grows_bill g (th.charge c tokens)
    exact ⟨hgrows, hth.top hstack hgrows rfl (Check.Ok.grows hcall hgrows), hg.bill hcall⟩
  | pop hstack hs =>
    rename_i c rest
    have hgrows : Grows g (g.drop c) := ⟨prefix_rfl, prefix_rfl⟩
    exact ⟨hgrows, hth.pop hstack hgrows, hg.used _⟩

/-- The slots of a thread. -/
def Thread.slots (th : Thread) : Nat := census Call.outer th.stack

theorem Thread.slots_cons {th : Thread} {c : Call} {rest : List Call} (h : th.stack = c :: rest) :
    th.slots = census Call.outer rest + c.outer.toNat := by
  rw [Thread.slots, h, census, countP_cons, census]
  cases c.outer <;> rfl

theorem Move.slots {g g' : Shared} {th th' : Thread} (h : Move g th g' th') (hth : th.Ok g)
    (hle : th.slots ≤ g.used) (hmax : g.used ≤ g.max) :
    g'.used + th.slots = g.used + th'.slots ∧ g'.used ≤ g'.max ∧ g'.max = g.max := by
  -- the call on top goes on with its slot
  have htop : ∀ {c c' : Call} {rest : List Call}, th.stack = c :: rest → c'.slot = c.slot →
      g.used + th.slots = g.used + (th.top c' rest).slots := by
    intro c c' rest hstack hslot
    have houter : c'.outer = c.outer := congrArg (· == some true) hslot
    have hnew : (th.top c' rest).slots = census Call.outer rest + c'.outer.toNat :=
      Thread.slots_cons rfl
    rw [th.slots_cons hstack, hnew, houter]
  cases h with
  | scope hfree identity delegated | call hfree p => exact ⟨rfl, hmax, rfl⟩
  | uncapped hstack | wait hstack | refuse hstack | cutProcess hstack | passProcess hstack
  | cutHost hstack | passHost hstack | cutDelegated hstack | passDelegated hstack | returns hstack
  | charge hstack | bill hstack => exact ⟨htop hstack rfl, hmax, rfl⟩
  | nested hstack hs =>
    have hcall := hth.head hstack
    rw [Call.Ok, hs] at hcall
    rename_i c rest _ _
    refine ⟨?_, hmax, rfl⟩
    have hnew : (th.takes c false rest).slots =
        census Call.outer rest + (c.gets false).outer.toNat := Thread.slots_cons rfl
    rw [th.slots_cons hstack, hnew, Call.outer, hcall]
    rfl
  | acquire hstack hs hused =>
    have hcall := hth.head hstack
    rw [Call.Ok, hs] at hcall
    rename_i c rest
    refine ⟨?_, hused, rfl⟩
    have hnew : (Thread.takes { th with held := 0 } c true rest).slots =
        census Call.outer rest + (c.gets true).outer.toNat := Thread.slots_cons rfl
    rw [th.slots_cons hstack, hnew, Call.outer, hcall.1]
    exact Nat.add_right_comm _ _ _
  | pop hstack hs =>
    rename_i c rest
    rw [th.slots_cons hstack] at hle ⊢
    refine ⟨?_, (Nat.sub_le _ _).trans hmax, rfl⟩
    change g.used - c.outer.toNat + _ = g.used + census Call.outer rest
    omega

theorem Thread.Ok.grows {g g' : Shared} {th : Thread} (h : th.Ok g) (hg : Grows g g') : th.Ok g' :=
  ⟨h.held, h.layered, fun c hc => (h.calls c hc).grows hg, h.under⟩

/-! ## Whole runs -/

namespace Process

/-- What is kept of the process. -/
structure Kept (max : Nat) (s : Process) : Prop where
  books : Books s.shared
  threads : ∀ th ∈ s.threads, th.Ok s.shared
  slots : s.shared.used = tally Thread.slots s.threads
  bound : s.shared.used ≤ s.shared.max
  max : s.shared.max = max

theorem kept_new (max : Nat) : Kept max (.new max) :=
  ⟨⟨rfl, fun _ => rfl, nofun, nofun⟩, nofun, rfl, Nat.zero_le _, rfl⟩

theorem Kept.step {max : Nat} {s t : Process} (h : Kept max s) (hstep : Step s t) : Kept max t := by
  cases hstep with
  | spawn =>
    refine ⟨h.books, fun th hth => ?_, ?_, h.bound, h.max⟩
    · rcases mem_append.mp hth with hth | hth
      · exact h.threads th hth
      · rw [mem_singleton.mp hth]
        exact ⟨rfl, trivial, nofun, nofun⟩
    · rw [tally_join]
      exact h.slots
  | move hi hmove =>
    rename_i i th th' g'
    have hth := h.threads th (mem_of_getElem? hi)
    have hle : th.slots ≤ s.shared.used := by
      rw [h.slots]
      exact le_sum_of_mem (mem_map.mpr ⟨th, mem_of_getElem? hi, rfl⟩)
    obtain ⟨hgrows, hth', hbooks⟩ := hmove.keeps hth h.books
    obtain ⟨hslots, hbound, hmax⟩ := hmove.slots hth hle h.bound
    refine ⟨hbooks, fun d hd => ?_, ?_, hbound, hmax.trans h.max⟩
    · rcases mem_or_eq_of_mem_set hd with hd | rfl
      · exact (h.threads d hd).grows hgrows
      · exact hth'
    · have hmoved := tally_move Thread.slots hi th'
      rw [h.slots] at hslots
      change g'.used = tally Thread.slots (s.threads.set i th')
      omega

theorem Reached.kept {max : Nat} {s : Process} (h : Reached max s) : Kept max s := by
  induction h with
  | new => exact kept_new max
  | step _ hstep ih => exact ih.step hstep

end Process

/-- What is said of a state.  The slots in use are the threads with a capped call in progress.  The
counters are what was charged, modulo their size; that of an identity is what was under it at whose
end a budget of it applied.  A provider is called if the counters were below the budgets when the call
looked at them.  As long as a counter has not wrapped, a call that is charged after a budget was
reached had looked at it before. -/
structure Metered (s : Process) : Prop where
  slots : s.shared.used = census Thread.busy s.threads
  bound : s.shared.used ≤ s.shared.max
  process : s.shared.process = tally Charge.tokens s.shared.charged % counterSize
  identity : ∀ id,
    s.shared.identityUsed id = tally (Charge.toIdentity id) s.shared.billed % counterSize
  called : ∀ th ∈ s.threads, ∀ c ∈ th.stack, c.stage = .calling → c.check.Ok s.shared c.provider
  processOverrun : tally Charge.tokens s.shared.charged < counterSize → ∀ k budget,
    budget ≤ tally Charge.tokens (s.shared.charged.take k) →
      ∀ c ∈ s.shared.charged, c.provider.budget = some budget → c.check.process < k
  identityOverrun : ∀ id, tally (Charge.toIdentity id) s.shared.billed < counterSize → ∀ k limit,
    limit ≤ tally (Charge.toIdentity id) (s.shared.billed.take k) →
      ∀ c ∈ s.shared.billed, c.check.identity = some id →
        (c.provider.perIdentity.get? id = some limit → c.check.host < k) ∧
          (c.check.delegated = some limit → c.check.delegatedAt < k)

section Overrun

theorem tally_take_mono (w : Charge → Nat) (l : List Charge) {i j : Nat} (h : i ≤ j) :
    tally w (l.take i) ≤ tally w (l.take j) := by
  have htake := (take_append_drop i (l.take j)).symm
  rw [take_take, Nat.min_eq_left h] at htake
  rw [htake, tally_append]
  exact Nat.le_add_right _ _

theorem lt_of_tally_lt {w : Charge → Nat} {l : List Charge} (hsize : tally w l < counterSize)
    {i k budget : Nat} (hi : tally w (l.take i) % counterSize < budget)
    (hk : budget ≤ tally w (l.take k)) : i < k := by
  have hle : tally w (l.take i) ≤ tally w l := by
    have := tally_take_mono w l (Nat.le_add_right i l.length)
    rwa [take_of_length_le (Nat.le_add_left _ _)] at this
  rw [Nat.mod_eq_of_lt (hle.trans_lt hsize)] at hi
  by_contra hki
  exact absurd (hk.trans (tally_take_mono w l (Nat.not_lt.mp hki))) (Nat.not_le.mpr hi)

end Overrun

theorem Process.Kept.toMetered {max : Nat} {s : Process} (h : s.Kept max) : Metered s where
  slots := by
    have hslots : ∀ th ∈ s.threads, th.slots = th.busy.toNat :=
      fun th hth => census_outer (h.threads th hth).layered
    exact h.slots.trans (tally_eq_census hslots)
  bound := h.bound
  process := h.books.process
  identity := h.books.identity
  called th hth c hc hs := by
    have hcall := (h.threads th hth).calls c hc
    rw [Call.Ok, hs] at hcall
    exact hcall
  processOverrun hsize k budget hk c hc hb :=
    lt_of_tally_lt hsize ((h.books.charged c hc).process.2 budget hb) hk
  identityOverrun id hsize k limit hk c hc hid := by
    have hok := h.books.billed c hc
    exact ⟨fun hlimit => lt_of_tally_lt hsize (hok.host.2 id limit hid hlimit) hk,
      fun hlimit => lt_of_tally_lt hsize (hok.delegated.2 id limit hid hlimit) hk⟩

/-- The budgets hold, whatever the threads do and in whatever order. -/
theorem metered {max : Nat} {s : Process} (h : Process.Reached max s) : Metered s := h.kept.toMetered

/-! ## An identity that had no budget -/

/-- A provider without a budget. -/
def noBudget : MeteredProvider := ⟨none, .empty⟩

/-- A thread without a call. -/
def idle (identity : Option Text) (delegated : Option Nat) : Thread := ⟨[], 0, identity, delegated⟩

theorem free_idle (identity : Option Text) (delegated : Option Nat) :
    (idle identity delegated).Free := by
  intro c rest h
  cases h

/-- After a call of a thread without a budget. -/
def Shared.after (g : Shared) (identity : Option Text) (tokens : Nat) : Shared :=
  let c : Charge := ⟨noBudget, ⟨g.charged.length, g.billed.length, g.billed.length, identity, none⟩,
    identity, none, tokens⟩
  (g.charge c).bill c

section Runs

variable {max : Nat} {g g' : Shared} {th th' : Thread}

theorem Process.Reached.move (h : Process.Reached max ⟨g, [th]⟩) (hmove : Move g th g' th') :
    Process.Reached max ⟨g', [th']⟩ :=
  h.step (.move (i := 0) rfl hmove)

theorem Process.Reached.scope {identity : Option Text} {delegated : Option Nat}
    (h : Process.Reached max ⟨g, [idle identity delegated]⟩) (identity' : Option Text)
    (delegated' : Option Nat) : Process.Reached max ⟨g, [idle identity' delegated']⟩ :=
  h.move (.scope (free_idle _ _) identity' delegated')

theorem Process.Reached.call {identity : Option Text}
    (h : Process.Reached max ⟨g, [idle identity none]⟩) (tokens : Nat)
    (htokens : tokens < counterSize) :
    Process.Reached max ⟨g.after identity tokens, [idle identity none]⟩ := by
  have hcall := (h.move (.call (free_idle _ _) noBudget)).move (.uncapped rfl rfl rfl)
  have hprocess := hcall.move (.passProcess rfl rfl fun _ hb => by cases hb)
  have hhost := hprocess.move (.passHost rfl rfl fun _ _ _ hb => by cases hb)
  have hcalling := hhost.move (.passDelegated rfl rfl fun _ _ _ hb => by cases hb)
  have hcharged := (hcalling.move (.returns rfl rfl htokens)).move (.charge rfl rfl)
  have hpopped := (hcharged.move (.bill rfl rfl)).move (.pop rfl (.inl rfl))
  exact hpopped

end Runs

theorem reached_idle (max : Nat) (identity : Option Text) :
    Process.Reached max ⟨(Process.new max).shared, [idle identity none]⟩ := by
  have hspawn : Process.Reached max ⟨(Process.new max).shared, [idle none none]⟩ :=
    .step .new (.spawn _)
  exact hspawn.scope identity none

theorem metered_call :
    Metered ⟨(Process.new 1).shared.after (some ['a']) 100, [idle (some ['a']) none]⟩ :=
  metered ((reached_idle 1 (some ['a'])).call 100 (by decide))

/-- What is under an identity of a call's tokens, with a budget of it or without. -/
def Charge.under (id : Text) (c : Charge) : Nat := if c.identity = some id then c.tokens else 0

/-- An identity uses tokens without a budget and then has one delegated, of less than that: its next
call goes through.  And two calls that use `2 ^ 64` tokens leave the process counter where it was. -/
theorem not_metered :
    (¬ ∀ (max : Nat) (s : Process), Process.Reached max s → ∀ th ∈ s.threads, ∀ c ∈ th.stack,
      c.stage = .calling → ∀ id limit, c.check.identity = some id → c.check.delegated = some limit →
        tally (Charge.under id) (s.shared.billed.take c.check.delegatedAt) < limit) ∧
    ¬ ∀ (max : Nat) (s : Process), Process.Reached max s →
      s.shared.process = tally Charge.tokens s.shared.charged := by
  constructor
  · intro h
    have hused : Process.Reached 1 _ := (reached_idle 1 (some ['a'])).call 100 (by decide)
    have hscope := hused.scope (some ['a']) (some 50)
    have hslot := ((hscope.move (.call (free_idle _ _) noBudget)).move (.wait rfl rfl rfl rfl)).move
      (.acquire rfl rfl (by decide))
    have hprocess := hslot.move (.passProcess rfl rfl fun _ hb => by cases hb)
    have hhost := hprocess.move (.passHost rfl rfl fun _ _ _ hb => by cases hb)
    have hcalling := hhost.move (.passDelegated rfl rfl fun id limit hid hlimit => by
      cases hlimit
      cases hid
      decide)
    have hless := h 1 _ hcalling _ mem_cons_self _ mem_cons_self rfl ['a'] 50 rfl rfl
    exact absurd hless (by decide)
  · intro h
    have hfirst := (reached_idle 1 none).call (2 ^ 64 - 1) (by decide)
    have hsecond := h 1 _ (hfirst.call 1 (by decide))
    exact absurd hsecond (by decide)

end Synsema.Llm
