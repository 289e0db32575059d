import Synsema.Jit.Checkers
import Synsema.Lib.Except

/-!
# What the checkers guarantee

The steps of a run of a checked function are safe as long as each step stays in bounds (`run_safe`):
an address that was loaded from the context was loaded where the context has the address of the
cancellation flag, nothing was written over that address, and the constant offsets do not lead out
of what the address is of.  `check_memory` looks at none of that: it takes an address that was
loaded from the context at any offset.
-/

namespace Synsema.Jit

open List

variable {F : Func} {U : Setting}

/-! ## Values of pointers -/

/-- `ok_vals`, of a function in its setting. -/
def okValsOf (F : Func) (U : Setting) : List Value :=
  okVals F U.helpers U.ptrParams U.execPtrSlots

section OkVals

variable {i : Inst} {k : Nat} {v : Value} {b : Block}

theorem head?_eq_getElem? {l : List Value} (h : l.head? = some v) : l[0]? = some v := by
  rwa [← List.head?_eq_getElem?]

theorem mem_edges {d : Value × Value} : d ∈ edges F ↔ ∃ i ∈ F.allInsts, ∃ args dests,
    F.data i = .branch args dests ∧ ∃ e ∈ dests, d ∈ (F.params e.1).zip (e.2.map F.resolve) := by
  rw [edges, mem_flatMap]
  refine exists_congr fun i => and_congr_right fun _ => ?_
  constructor
  · intro h
    split at h
    next args dests hdata => exact ⟨args, dests, hdata, mem_flatMap.mp h⟩
    next => cases h
  · rintro ⟨args, dests, hdata, h⟩
    rw [hdata]
    exact mem_flatMap.mpr h

theorem mem_selects {d : Value × List Value} : d ∈ selects F ↔ ∃ i ∈ F.allInsts, ∃ c x y,
    F.data i = .select c x y ∧ (F.results i).head? = some d.1 ∧
      d.2 = [F.resolve x, F.resolve y] := by
  rw [selects, mem_filterMap]
  refine exists_congr fun i => and_congr_right fun _ => ?_
  constructor
  · intro h
    split at h
    next c x y hdata =>
      obtain ⟨v, hv, rfl⟩ := Option.map_eq_some_iff.mp h
      exact ⟨c, x, y, hdata, hv, rfl⟩
    next => cases h
  · rintro ⟨c, x, y, hdata, hv, hd⟩
    rw [hdata]
    dsimp only
    rw [hv, ← hd]
    rfl

theorem mem_pointerDefs : v ∈ pointerDefs F U.helpers U.ptrParams U.execPtrSlots ↔
    (∃ k ∈ U.ptrParams, F.entryParams[k]? = some v) ∨ ∃ i ∈ F.allInsts,
      definesPointer F U.helpers U.execPtrSlots (F.data i) ∧ (F.results i).head? = some v := by
  rw [pointerDefs, mem_append, mem_filterMap, mem_filterMap]
  simp only [Option.ite_none_right_eq_some]

theorem incoming_ok (h : v ∈ okValsOf F U)
    (hnot : v ∉ pointerDefs F U.helpers U.ptrParams U.execPtrSlots) :
    v ∈ candidates F ∧ ∀ u ∈ incoming F v, u ∈ okValsOf F U := by
  rw [okValsOf, okVals, mem_append] at h
  have hshrink := h.resolve_left hnot
  refine ⟨Shrink.shrink_sublist.subset hshrink, fun u hu => ?_⟩
  have hkeeps := Shrink.shrink_keeps le_rfl v hshrink
  have := all_eq_true.mp hkeeps u hu
  rw [Bool.or_eq_true, decide_eq_true_iff, decide_eq_true_iff] at this
  exact mem_append.mpr this

theorem entryParams_getElem? (h : F.entryParams[k]? = some v) :
    ∃ b, F.blocks.head? = some b ∧ (F.params b)[k]? = some v := by
  rw [Func.entryParams] at h
  cases hb : F.blocks.head? with
  | none =>
    rw [hb] at h
    cases h
  | some b =>
    rw [hb] at h
    exact ⟨b, rfl, h⟩

theorem mem_candidates (h : v ∈ candidates F) :
    (∃ b ∈ F.blocks.tail, ∃ k : Nat, (F.params b)[k]? = some v) ∨
      ∃ i ∈ F.allInsts, ∃ c x y, F.data i = .select c x y ∧ (F.results i).head? = some v := by
  rw [candidates, mem_dedup, mem_append, mem_map, mem_map] at h
  rcases h with ⟨d, hd, rfl⟩ | ⟨d, hd, rfl⟩
  · obtain ⟨i, -, args, dests, hdata, e, he, hd⟩ := mem_edges.mp hd
    obtain ⟨k, hk⟩ := mem_iff_getElem?.mp (of_mem_zip hd).1
    exact .inl ⟨e.1, F.dest_mem i args dests hdata e he, k, hk⟩
  · obtain ⟨i, hi, c, x, y, hdata, hv, -⟩ := mem_selects.mp hd
    exact .inr ⟨i, hi, c, x, y, hdata, hv⟩

theorem lookup_selects {c x y : Value} (hi : i ∈ F.allInsts) (hdata : F.data i = .select c x y)
    (hv : (F.results i).head? = some v) :
    (selects F).lookup v = some [F.resolve x, F.resolve y] := by
  have hmem : (v, [F.resolve x, F.resolve y]) ∈ selects F :=
    mem_selects.mpr ⟨i, hi, c, x, y, hdata, hv, rfl⟩
  obtain ⟨vs, hvs⟩ := Option.isSome_iff_exists.mp
    (lookup_isSome_iff.mpr ⟨_, hmem, beq_self_eq_true v⟩)
  obtain ⟨l₁, l₂, hl, -⟩ := lookup_eq_some_iff.mp hvs
  obtain ⟨j, -, c', x', y', hj, hhead, rfl⟩ := mem_selects.mp
    (hl ▸ mem_append_right l₁ mem_cons_self : (v, vs) ∈ selects F)
  have heq := (F.valueDef_result i 0 v (head?_eq_getElem? hv)).symm.trans
    (F.valueDef_result j 0 v (head?_eq_getElem? hhead))
  cases heq
  rw [hdata] at hj
  cases hj
  exact hvs

theorem result_ok (hv : (F.results i)[k]? = some v) (h : v ∈ okValsOf F U) :
    (k = 0 ∧ definesPointer F U.helpers U.execPtrSlots (F.data i)) ∨
      ∃ c x y, F.data i = .select c x y ∧ F.resolve x ∈ okValsOf F U ∧
        F.resolve y ∈ okValsOf F U := by
  have hdef := F.valueDef_result i k v hv
  by_cases hmem : v ∈ pointerDefs F U.helpers U.ptrParams U.execPtrSlots
  · rcases mem_pointerDefs.mp hmem with ⟨n, -, hn⟩ | ⟨j, -, hj, hhead⟩
    · obtain ⟨b, -, hb⟩ := entryParams_getElem? hn
      rw [F.valueDef_param b n v hb] at hdef
      cases hdef
    · rw [F.valueDef_result j 0 v (head?_eq_getElem? hhead)] at hdef
      cases hdef
      exact .inl ⟨rfl, hj⟩
  · obtain ⟨hcand, hin⟩ := incoming_ok h hmem
    rcases mem_candidates hcand with ⟨b, -, n, hb⟩ | ⟨j, hj, c, x, y, hdata, hhead⟩
    · rw [F.valueDef_param b n v hb] at hdef
      cases hdef
    · rw [F.valueDef_result j 0 v (head?_eq_getElem? hhead)] at hdef
      cases hdef
      refine .inr ⟨c, x, y, hdata, ?_⟩
      rw [incoming, lookup_selects hj hdata hhead] at hin
      exact ⟨hin _ mem_cons_self, hin _ (mem_cons_of_mem _ (mem_singleton_self _))⟩

theorem not_entryParam {n : Nat} (hb : b ∈ F.blocks.tail) (hv : (F.params b)[k]? = some v) :
    F.entryParams[n]? ≠ some v := by
  intro hn
  obtain ⟨b', hb', hparam⟩ := entryParams_getElem? hn
  have hdef := F.valueDef_param b k v hv
  rw [F.valueDef_param b' n v hparam] at hdef
  cases hdef
  obtain ⟨rest, hblocks⟩ := head?_eq_some_iff.mp hb'
  have hnodup := F.blocks_nodup
  rw [hblocks, nodup_cons] at hnodup
  rw [hblocks, tail_cons] at hb
  exact hnodup.1 hb

theorem param_ok (hb : b ∈ F.blocks.tail) (hv : (F.params b)[k]? = some v) (h : v ∈ okValsOf F U)
    (hi : i ∈ F.allInsts) {args : List Value} {dests : List (Block × List Value)}
    (hdata : F.data i = .branch args dests) {vs : List Value} (hd : (b, vs) ∈ dests) {a : Value}
    (ha : vs[k]? = some a) : F.resolve a ∈ okValsOf F U := by
  have hdef := F.valueDef_param b k v hv
  have hnot : v ∉ pointerDefs F U.helpers U.ptrParams U.execPtrSlots := by
    intro hmem
    rcases mem_pointerDefs.mp hmem with ⟨n, -, hn⟩ | ⟨j, -, -, hhead⟩
    · exact not_entryParam hb hv hn
    · rw [F.valueDef_result j 0 v (head?_eq_getElem? hhead)] at hdef
      cases hdef
  refine (incoming_ok h hnot).2 _ ?_
  have hnone : (selects F).lookup v = none := by
    rw [lookup_eq_none_iff]
    intro p hp
    obtain ⟨j, -, c, x, y, -, hhead, -⟩ := mem_selects.mp hp
    rw [bne_iff_ne]
    rintro rfl
    rw [F.valueDef_result j 0 _ (head?_eq_getElem? hhead)] at hdef
    cases hdef
  rw [incoming, hnone, mem_filterMap]
  refine ⟨(v, F.resolve a), mem_edges.mpr ⟨i, hi, args, dests, hdata, (b, vs), hd, ?_⟩, if_pos rfl⟩
  refine mem_iff_getElem?.mpr ⟨k, ?_⟩
  rw [getElem?_zip_eq_some, getElem?_map, ha]
  exact ⟨hv, rfl⟩

end OkVals

/-! ## What stays true in a run -/

/-- What is known of the word of a value, by the definition of the value. -/
structure Known (F : Func) (U : Setting) (v : Value) (w : Word) : Prop where
  param : ∀ k, F.entryParams[k]? = some v → w.origin = .param k
  stack : ∀ i n s offset, F.valueDef v = .result i n → F.data i = .stackAddr s offset →
    w.origin = .slot s offset
  flag : ∀ i n arg, F.valueDef v = .result i n → F.data i = .load .load arg offCancel 8 →
    F.entryParams[0]? = some arg → w.origin = .cancelFlag
  pointer : v ∈ okValsOf F U → IsPointer U w.origin

/-- The invariant of a run: the context has the address of the cancellation flag, the run is in a
block of the layout, and the words are those of their values. -/
structure Inv (F : Func) (U : Setting) (s : State) : Prop where
  cancel : (s.ctx offCancel).origin = .cancelFlag
  inside : ∃ b ∈ F.blocks, s.rest <:+ F.insts b
  known : ∀ v w, s.env v = some w → Known F U v w

/-- The constant offset of an access stays in what its address is of, and the address, where it was
loaded from the context, was loaded where the context has that of the cancellation flag. -/
structure InBounds (F : Func) (U : Setting) (store : Bool) (v : Value) (offset : Int) (bytes : Nat) :
    Prop where
  context : F.entryParams[0]? = some v → (0 ≤ offset ∧ offset + bytes ≤ ctxBytes) ∧
    (store = true → offset + bytes ≤ offCancel ∨ offCancel + 8 ≤ offset)
  arguments : U.entryFn = true → F.entryParams[1]? = some v →
    0 ≤ offset ∧ offset + bytes ≤ U.argvBytes
  stack : ∀ i n s o, F.valueDef v = .result i n → F.data i = .stackAddr s o →
    0 ≤ o + offset ∧ o + offset + bytes ≤ U.slotBytes s
  address : ∀ i n arg o size, F.valueDef v = .result i n → F.data i = .load .load arg o size →
    (o = offCancel ∧ size = 8) ∧ 0 ≤ offset ∧ offset + bytes ≤ flagBytes

/-- The address of a load or a store. -/
def addressOf : InstData → Option (Bool × Value × Int × Nat)
  | .load _ arg offset bytes => some (false, arg, offset, bytes)
  | .store _ address offset bytes => some (true, address, offset, bytes)
  | _ => none

/-- What a step has to meet: its access stays in bounds, and what it calls leaves the address of the
cancellation flag where it is. -/
structure Meets (F : Func) (U : Setting) (t : Turn) : Prop where
  access : ∀ store v offset bytes, addressOf (F.data t.inst) = some (store, v, offset, bytes) →
    InBounds F U store v offset bytes
  call : ∀ f args, F.data t.inst = .call f args → t.after.ctx offCancel = t.before.ctx offCancel

section Steps

variable {env : Value → Option Word} {i : Inst} {k : Nat} {v : Value} {w : Word}

variable {vs : List Value} {ws : List Word} {rest : List Inst}

theorem setAll_eq_some (h : setAll env vs ws v = some w) :
    (∃ k : Nat, vs[k]? = some v ∧ ws[k]? = some w) ∨ env v = some w := by
  rw [setAll, Option.or_eq_some_iff] at h
  rcases h with h | ⟨-, h⟩
  · obtain ⟨l₁, l₂, hl, -⟩ := lookup_eq_some_iff.mp h
    have hmem : (v, w) ∈ vs.zip ws := hl ▸ mem_append_right l₁ mem_cons_self
    obtain ⟨k, hk⟩ := mem_iff_getElem?.mp hmem
    exact .inl ⟨k, getElem?_zip_eq_some.mp hk⟩
  · exact .inr h

theorem Known.of_result (hv : (F.results i)[k]? = some v)
    (hstack : ∀ s offset, F.data i = .stackAddr s offset → w.origin = .slot s offset)
    (hflag : ∀ arg, F.data i = .load .load arg offCancel 8 → F.entryParams[0]? = some arg →
      w.origin = .cancelFlag)
    (hptr : k = 0 → definesPointer F U.helpers U.execPtrSlots (F.data i) →
      IsPointer U w.origin)
    (hsel : ∀ c x y, F.data i = .select c x y → F.resolve x ∈ okValsOf F U →
      F.resolve y ∈ okValsOf F U → IsPointer U w.origin) : Known F U v w := by
  have hdef := F.valueDef_result i k v hv
  refine ⟨fun n hn ↦ ?_, fun j n s offset hj hdata ↦ ?_, fun j n arg hj hdata harg ↦ ?_, fun h ↦ ?_⟩
  · obtain ⟨b, -, hb⟩ := entryParams_getElem? hn
    rw [F.valueDef_param b n v hb] at hdef
    cases hdef
  · rw [hdef] at hj
    cases hj
    exact hstack s offset hdata
  · rw [hdef] at hj
    cases hj
    exact hflag arg hdata harg
  · rcases result_ok hv h with ⟨hk, hdefines⟩ | ⟨c, x, y, hdata, hx, hy⟩
    · exact hptr hk hdefines
    · exact hsel c x y hdata hx hy

theorem Known.of_param {b : Block} (hb : b ∈ F.blocks.tail) (hv : (F.params b)[k]? = some v)
    (hptr : v ∈ okValsOf F U → IsPointer U w.origin) : Known F U v w := by
  have hdef := F.valueDef_param b k v hv
  refine ⟨fun n hn => ?_, fun j n s offset hj => ?_, fun j n arg hj => ?_, hptr⟩
  · exact absurd hn (not_entryParam hb hv)
  · rw [hdef] at hj
    cases hj
  · rw [hdef] at hj
    cases hj

theorem known_setAll (h : ∀ v w, env v = some w → Known F U v w)
    (hnew : ∀ (k : Nat) v w, vs[k]? = some v → ws[k]? = some w → Known F U v w) :
    ∀ v w, setAll env vs ws v = some w → Known F U v w := by
  intro v w hvw
  rcases setAll_eq_some hvw with ⟨k, hv, hw⟩ | hvw
  · exact hnew k v w hv hw
  · exact h v w hvw

theorem getElem?_singleton_some {w' : Word} (h : [w][k]? = some w') : k = 0 ∧ w' = w := by
  cases k with
  | zero => exact ⟨rfl, (Option.some.inj h).symm⟩
  | succ k => cases h

theorem mem_allInsts (h : ∃ b ∈ F.blocks, i :: rest <:+ F.insts b) : i ∈ F.allInsts := by
  obtain ⟨b, hb, hsuffix⟩ := h
  exact mem_flatMap.mpr ⟨b, hb, hsuffix.subset mem_cons_self⟩

theorem inside_tail (h : ∃ b ∈ F.blocks, i :: rest <:+ F.insts b) :
    ∃ b ∈ F.blocks, rest <:+ F.insts b := by
  obtain ⟨b, hb, hsuffix⟩ := h
  exact ⟨b, hb, (suffix_cons i rest).trans hsuffix⟩

theorem origin_of_param {base : Word} (hknown : Known F U (F.resolve v) base)
    (hk : F.entryParams[k]? = some v) : base.origin = .param k := by
  obtain ⟨b, -, hb⟩ := entryParams_getElem? hk
  rw [F.resolve_param b v (mem_of_getElem? hb)] at hknown
  exact hknown.param k hk

theorem isSlotOf_iff {slots : List StackSlot} : isSlotOf F slots v ↔
    ∃ i n s o, F.valueDef v = .result i n ∧ F.data i = .stackAddr s o ∧ s ∈ slots := by
  rw [isSlotOf]
  constructor
  · intro h
    split at h
    next i n hi =>
      split at h
      next s o hdata => exact ⟨i, n, s, o, hi, hdata, of_decide_eq_true h⟩
      next => cases h
    next => cases h
  · rintro ⟨i, n, s, o, hi, hdata, hs⟩
    rw [hi]
    dsimp only
    rw [hdata]
    exact decide_eq_true hs

/-- The addresses that `check_memory` takes, by where their words come from. -/
inductive Address (F : Func) (U : Setting) (store : Bool) (v : Value) (offset : Int) (bytes : Nat) :
    Origin → Prop where
  | context (h : F.entryParams[0]? = some v) : Address F U store v offset bytes (.param 0)
  | arguments (h : F.entryParams[1]? = some v) (hentry : U.entryFn = true) (hstore : store = false) :
      Address F U store v offset bytes (.param 1)
  | cancelFlag (h : 0 ≤ offset ∧ offset + bytes ≤ flagBytes) :
      Address F U store v offset bytes .cancelFlag
  | slot {i n s o} (h : F.valueDef v = .result i n) (hdata : F.data i = .stackAddr s o) :
      Address F U store v offset bytes (.slot s o)

variable {store : Bool} {offset : Int} {bytes : Nat} {base : Word}

theorem address_of_isCtxPtr (hknown : Known F U (F.resolve v) base)
    (hin : InBounds F U store v offset bytes) (h : isCtxPtr F v) :
    Address F U store v offset bytes base.origin := by
  rw [isCtxPtr] at h
  split at h
  next i n hi =>
    split at h
    next arg o size hdata =>
      obtain ⟨⟨rfl, rfl⟩, hrange⟩ := hin.address i n arg o size hi hdata
      have hdef := (F.valueDef_resolve v).trans hi
      rw [hknown.flag i n arg hdef hdata (of_decide_eq_true h)]
      exact .cancelFlag hrange
    next => cases h
  next => cases h

theorem address_of_isStack (hknown : Known F U (F.resolve v) base) (h : isStack F v) :
    Address F U store v offset bytes base.origin := by
  rw [isStack] at h
  split at h
  next i n hi =>
    split at h
    next s o hdata =>
      rw [hknown.stack i n s o ((F.valueDef_resolve v).trans hi) hdata]
      exact .slot hi hdata
    next => cases h
  next => cases h

theorem address_of_check (hmem : checkMemory F U.entryFn) (hi : i ∈ F.allInsts)
    (hdata : addressOf (F.data i) = some (store, v, offset, bytes))
    (hknown : Known F U (F.resolve v) base) (hin : InBounds F U store v offset bytes) :
    Address F U store v offset bytes base.origin := by
  have hok := all_eq_true.mp (Bool.and_eq_true_iff.mp hmem).2 i hi
  cases hd : F.data i with
  | load op arg o n =>
    rw [hd] at hdata hok
    cases hdata
    rw [memoryOk, Bool.or_eq_true, Bool.or_eq_true, isParam, Bool.or_eq_true, Bool.and_eq_true,
      decide_eq_true_iff, decide_eq_true_iff] at hok
    rcases hok with ((h | ⟨hentry, h⟩) | h) | h
    · exact origin_of_param hknown h ▸ .context h
    · exact origin_of_param hknown h ▸ .arguments h hentry rfl
    · exact address_of_isCtxPtr hknown hin h
    · exact address_of_isStack hknown h
  | store x address o n =>
    rw [hd] at hdata hok
    cases hdata
    rw [memoryOk, Bool.or_eq_true, Bool.or_eq_true, decide_eq_true_iff] at hok
    rcases hok with (h | h) | h
    · exact origin_of_param hknown h ▸ .context h
    · exact address_of_isCtxPtr hknown hin h
    · exact address_of_isStack hknown h
  | _ =>
    rw [hd] at hdata
    cases hdata

theorem Address.safe (h : Address F U store v offset bytes base.origin)
    (hin : InBounds F U store v offset bytes) : SafeAccess U store base offset bytes := by
  rw [SafeAccess, Elsewhere]
  cases hbase : base.origin with
  | param k =>
    rw [hbase] at h
    cases h with
    | context h => exact .inl ⟨rfl, (hin.context h).1⟩
    | arguments h hentry hstore => exact .inr ⟨rfl, hentry, hstore, hin.arguments hentry h⟩
  | slot s o =>
    rw [hbase] at h
    cases h with
    | slot h hdata => exact hin.stack _ _ s o h hdata
  | cancelFlag =>
    rw [hbase] at h
    cases h with
    | cancelFlag h => exact h
  | _ =>
    rw [hbase] at h
    cases h

theorem Address.keeps_cancel {ctx ctx' : Int → Word}
    (haddress : Address F U true v offset bytes base.origin)
    (hin : InBounds F U true v offset bytes) (h : Stored U ctx base offset bytes w ctx') :
    ctx' offCancel = ctx offCancel := by
  have hsafe := haddress.safe hin
  cases hbase : base.origin with
  | param k =>
    rw [hbase] at haddress
    cases haddress with
    | context hv => exact h.keeps hbase offCancel ((hin.context hv).2 rfl).symm
    | arguments _ _ hstore => cases hstore
  | _ =>
    rw [SafeAccess, hbase] at hsafe
    rw [h.elsewhere hsafe]

theorem Address.isSlotOf (h : Address F U store v offset bytes base.origin)
    (hslot : isPtrSlot U base.origin) :
    isSlotOf F (U.ptrSlots ++ U.execPtrSlots) (F.resolve v) = true := by
  cases hbase : base.origin with
  | slot s o =>
    rw [hbase] at h hslot
    cases h with
    | slot h hdata =>
      rw [isPtrSlot, Bool.or_eq_true, decide_eq_true_iff, decide_eq_true_iff] at hslot
      exact isSlotOf_iff.mpr
        ⟨_, _, s, o, (F.valueDef_resolve v).trans h, hdata, mem_append.mpr hslot⟩
  | _ =>
    rw [hbase] at hslot
    cases hslot

end Steps

theorem start_inv {s : State} (h : Start F s) : Inv F U s := by
  obtain ⟨b, hb, hrest⟩ := h.rest
  refine ⟨h.ctx, ⟨b, mem_of_mem_head? hb, hrest ▸ suffix_rfl⟩, fun v w hvw => ?_⟩
  obtain ⟨k, hk, horigin⟩ := h.env v w hvw
  obtain ⟨b', hhead, hb'⟩ := entryParams_getElem? hk
  have hdef := F.valueDef_param b' k v hb'
  have hsame {n : Nat} (hn : F.entryParams[n]? = some v) : n = k := by
    obtain ⟨b'', hhead', hb''⟩ := entryParams_getElem? hn
    rw [F.valueDef_param b'' n v hb''] at hdef
    cases hdef
    rfl
  refine ⟨fun n hn ↦ hsame hn ▸ horigin, fun i n s offset hi ↦ ?_, fun i n arg hi ↦ ?_, fun hok ↦ ?_⟩
  · rw [hdef] at hi
    cases hi
  · rw [hdef] at hi
    cases hi
  · rw [horigin]
    by_cases hmem : v ∈ pointerDefs F U.helpers U.ptrParams U.execPtrSlots
    · rcases mem_pointerDefs.mp hmem with ⟨n, hn, hv⟩ | ⟨j, -, -, hv⟩
      · exact hsame hv ▸ hn
      · rw [F.valueDef_result j 0 v (head?_eq_getElem? hv)] at hdef
        cases hdef
    · rcases mem_candidates (incoming_ok hok hmem).1 with ⟨b'', hb'', n, hv⟩ | ⟨j, -, -, -, -, -, hv⟩
      · exact absurd hk (not_entryParam hb'' hv)
      · rw [F.valueDef_result j 0 v (head?_eq_getElem? hv)] at hdef
        cases hdef

section Runs

variable (hmem : checkMemory F U.entryFn = true)
variable (hptr : checkPointers F U.helpers U.ptrParams U.ptrSlots U.execPtrSlots = true)

include hptr in
theorem pointersOk_of_check {i : Inst} (hi : i ∈ F.allInsts) :
    pointersOk F U.helpers U.ptrSlots U.execPtrSlots (okValsOf F U) (F.data i) = true := by
  obtain ⟨-, h⟩ := Bool.and_eq_true_iff.mp hptr
  rcases (Bool.or_eq_true _ _).mp h with h | h
  · simp only [Bool.and_eq_true, Bool.not_eq_true', List.isEmpty_iff] at h
    obtain ⟨⟨⟨hreads, hslots⟩, -⟩, hexec⟩ := h
    cases hd : F.data i with
    | call f args =>
      have hnone : U.helpers.pointerArgs f = none := by
        have := any_eq_false.mp hreads i hi
        rw [hd] at this
        exact Option.not_isSome_iff_eq_none.mp this
      rw [pointersOk, hnone]
    | store x address offset bytes =>
      have hnone : isSlotOf F (U.ptrSlots ++ U.execPtrSlots) (F.resolve address) = false := by
        rw [Bool.eq_false_iff]
        intro hslot
        obtain ⟨_, _, s, _, -, -, hs⟩ := isSlotOf_iff.mp hslot
        rw [hslots, hexec] at hs
        cases hs
      rw [pointersOk, hnone]
      rfl
    | _ => rfl
  · exact all_eq_true.mp h i hi

include hmem hptr

theorem step_safe {s s' : State} {i : Inst} {events : List Event} (hinv : Inv F U s)
    (hstep : Step F U s i events s') (hmeets : Meets F U ⟨s, i, events, s'⟩) :
    Inv F U s' ∧ ∀ e ∈ events, e.Safe U := by
  obtain ⟨hcancel, hinside, hknown⟩ := hinv
  cases hstep with
  | @iconst env ctx rest _ imm h =>
    refine ⟨⟨hcancel, inside_tail hinside, known_setAll hknown fun k v w hv hw => ?_⟩,
      forall_mem_nil _⟩
    obtain ⟨rfl, rfl⟩ := getElem?_singleton_some hw
    refine Known.of_result hv ?_ ?_ ?_ ?_ <;> rw [h]
    · nofun
    · nofun
    · intro _ hdef
      rw [definesPointer, decide_eq_true_iff] at hdef
      rw [hdef]
      trivial
    · nofun
  | @load env ctx rest _ op arg offset bytes base w h hbase hw =>
    have hk := hknown _ _ hbase
    have hdata : addressOf (F.data i) = some (false, arg, offset, bytes) := by rw [h]; rfl
    have hin := hmeets.access _ _ _ _ hdata
    have haddress := address_of_check hmem (mem_allInsts hinside) hdata hk hin
    refine ⟨⟨hcancel, inside_tail hinside, known_setAll hknown fun k v w' hv hw' => ?_⟩,
      forall_mem_singleton.mpr (haddress.safe hin)⟩
    obtain ⟨rfl, rfl⟩ := getElem?_singleton_some hw'
    refine Known.of_result hv ?_ ?_ ?_ ?_ <;> rw [h]
    · nofun
    · rintro arg' heq hparam
      cases heq
      have hzero := origin_of_param hk hparam
      exact (hw.origin hzero rfl (by decide)).trans hcancel
    · intro _ hdef
      cases op with
      | load =>
        rw [definesPointer, Bool.or_eq_true, Bool.and_eq_true, decide_eq_true_iff,
          decide_eq_true_iff] at hdef
        rcases hdef with ⟨hparam, hoff⟩ | hslot
        · rw [hw.outPtr (hk.param 0 hparam) hoff]
          trivial
        · obtain ⟨j, n, sl, o, hj, hdata, hs⟩ := isSlotOf_iff.mp hslot
          rw [hw.hostBuffer sl o (hk.stack j n sl o hj hdata) hs]
          trivial
      | uload8 | atomicLoad => cases hdef
    · nofun
  | @store env ctx ctx' rest _ x address offset bytes base w h hx hbase hctx =>
    have hk := hknown _ _ hbase
    have hdata : addressOf (F.data i) = some (true, address, offset, bytes) := by rw [h]; rfl
    have hin := hmeets.access _ _ _ _ hdata
    have haddress := address_of_check hmem (mem_allInsts hinside) hdata hk hin
    refine ⟨⟨?_, inside_tail hinside, hknown⟩,
      forall_mem_cons.mpr ⟨haddress.safe hin, ?_⟩⟩
    · change (ctx' offCancel).origin = .cancelFlag
      rw [haddress.keeps_cancel hin hctx]
      exact hcancel
    · intro e he
      split at he
      next hslot =>
        obtain rfl := mem_singleton.mp he
        have hok := pointersOk_of_check hptr (mem_allInsts hinside)
        rw [h, pointersOk, haddress.isSlotOf hslot, Bool.not_true, Bool.false_or,
          decide_eq_true_iff] at hok
        exact (hknown _ _ hx).pointer hok
      next => cases he
  | @stackAddr env ctx rest _ s offset bits h =>
    refine ⟨⟨hcancel, inside_tail hinside, known_setAll hknown fun k v w hv hw => ?_⟩,
      forall_mem_nil _⟩
    obtain ⟨rfl, rfl⟩ := getElem?_singleton_some hw
    refine Known.of_result hv ?_ ?_ ?_ ?_ <;> rw [h]
    · rintro s' o heq
      cases heq
      rfl
    · nofun
    · nofun
    · nofun
  | @call env ctx ctx' rest _ f args ws rs h hargs hrs =>
    refine ⟨⟨?_, inside_tail hinside, known_setAll hknown fun k v w hv hw => ?_⟩, ?_⟩
    · rw [hmeets.call f args h]
      exact hcancel
    · refine Known.of_result hv ?_ ?_ ?_ ?_ <;> rw [h]
      · nofun
      · nofun
      · intro hk hdef
        rw [hrs k w hw, returnedFrom, if_pos ⟨hk, hdef⟩]
        trivial
      · nofun
    · intro e he
      have hok := pointersOk_of_check hptr (mem_allInsts hinside)
      rw [h, pointersOk] at hok
      rw [handed] at he
      split at he
      next => cases he
      next positions ret hpos =>
        rw [hpos] at hok
        obtain ⟨k, hk, hw⟩ := mem_filterMap.mp he
        obtain ⟨w, hws, rfl⟩ := Option.map_eq_some_iff.mp hw
        have hany := all_eq_true.mp hok k hk
        rw [Option.getElem?_of_mapM hargs k] at hws
        obtain ⟨a, ha, hread⟩ := Option.bind_eq_some_iff.mp hws
        rw [ha] at hany
        exact (hknown _ _ hread).pointer (of_decide_eq_true hany)
  | @bitcast env ctx rest _ arg rs h hrs | @other env ctx rest _ op args rs h hpure hrs =>
    refine ⟨⟨hcancel, inside_tail hinside, known_setAll hknown fun k v w hv hw => ?_⟩,
      forall_mem_nil _⟩
    refine Known.of_result hv ?_ ?_ ?_ ?_ <;> rw [h] <;> nofun
  | @select env ctx rest _ c x y a b w h hx hy hw =>
    refine ⟨⟨hcancel, inside_tail hinside, known_setAll hknown fun k v w' hv hw' => ?_⟩,
      forall_mem_nil _⟩
    obtain ⟨rfl, rfl⟩ := getElem?_singleton_some hw'
    refine Known.of_result hv ?_ ?_ ?_ ?_ <;> rw [h]
    · nofun
    · nofun
    · nofun
    · rintro c' x' y' heq hokx hoky
      cases heq
      rcases hw with rfl | rfl
      · exact (hknown _ _ hx).pointer hokx
      · exact (hknown _ _ hy).pointer hoky
  | @branch env ctx rest _ args dests b vs ws h hb hvs =>
    have hdest := F.dest_mem i args dests h (b, vs) hb
    refine ⟨⟨hcancel, ⟨b, mem_of_mem_tail hdest, suffix_rfl⟩,
      known_setAll hknown fun k v w hv hw => Known.of_param hdest hv fun hok => ?_⟩,
      forall_mem_nil _⟩
    rw [Option.getElem?_of_mapM hvs k] at hw
    obtain ⟨a, ha, hread⟩ := Option.bind_eq_some_iff.mp hw
    exact (hknown _ _ hread).pointer (param_ok hdest hv hok (mem_allInsts hinside) h hb ha)

/-- **The checkers are sound where accesses stay in bounds**: in a run of a checked function whose
steps all meet the condition, every step is safe. -/
theorem run_safe {s s' : State} {turns : List Turn} (hstart : Start F s) (hrun : Run F U s turns s')
    (hmeets : ∀ t ∈ turns, Meets F U t) : ∀ t ∈ turns, ∀ e ∈ t.events, e.Safe U := by
  have hinv : Inv F U s := start_inv hstart
  clear hstart
  induction hrun with
  | nil s => exact forall_mem_nil _
  | cons hstep _ ih =>
    obtain ⟨hfirst, hmeets⟩ := forall_mem_cons.mp hmeets
    obtain ⟨hinv', hsafe⟩ := step_safe hmem hptr hinv hstep hfirst
    exact forall_mem_cons.mpr ⟨hsafe, ih hmeets hinv'⟩

end Runs

/-! ## Functions of one block -/

/-- The function of one block: its parameters are the first values, and each instruction but a store
has one result. -/
def Func.ofCode (params : Nat) (code : Inst → InstData) (size : Nat)
    (hcode : ∀ i args dests, code i ≠ .branch args dests) : Func where
  blocks := [0]
  params b := if b = 0 then List.range params else []
  insts b := if b = 0 then List.range size else []
  data := code
  results i := match code i with
    | .store .. => []
    | _ => [params + i]
  resolve v := v
  valueDef v := if v < params then .param 0 v else .result (v - params) 0
  valueDef_result i k v h := by
    have hv : [params + i][k]? = some v := by
      split at h
      · cases h
      · exact h
    cases k with
    | zero =>
      obtain rfl := Option.some.inj hv
      rw [if_neg (Nat.not_lt.mpr (Nat.le_add_right params i)), Nat.add_sub_cancel_left]
    | succ k => cases hv
  valueDef_param b k v h := by
    split at h
    next hb =>
      obtain ⟨hk, rfl⟩ := List.getElem?_eq_some_iff.mp h
      rw [length_range] at hk
      rw [getElem_range, if_pos hk, hb]
    next => cases h
  valueDef_resolve _ := rfl
  resolve_param _ _ _ := rfl
  resolve_result _ _ _ := rfl
  dest_mem i args dests h := absurd h (hcode i args dests)
  blocks_nodup := nodup_singleton 0

section Samples

/-- A unit that calls nothing and has no pointers. -/
def plainUnit : Setting where
  helpers := ⟨0, none, none, none⟩
  entryFn := false
  ptrParams := []
  ptrSlots := []
  execPtrSlots := []
  slotBytes _ := 0
  argvBytes := 0

/-- What the program's value is stored to, and what is loaded from the context and then from there.
-/
def storesThenReads (loaded : Int) (op : LoadOp) (bytes : Nat) : Inst → InstData
  | 0 => .store 1 0 offOutBits 8
  | 1 => .load .load 0 loaded 8
  | _ => .load op 3 0 bytes

/-- It stores its parameter to the context, loads an address from the context, and loads from there.
-/
def readsThrough (loaded : Int) (op : LoadOp) (bytes : Nat) : Func :=
  .ofCode 2 (storesThenReads loaded op bytes) 3 fun
    | 0 => nofun
    | 1 => nofun
    | _ + 2 => nofun

/-- The program's value. -/
def programWord : Word := ⟨7, .param 1⟩

/-- The words of the two parameters. -/
def startEnv : Value → Option Word
  | 0 => some ⟨4096, .param 0⟩
  | 1 => some programWord
  | _ => none

/-- A context that has the address of the cancellation flag. -/
def startCtx : Int → Word :=
  Function.update (fun _ => ⟨0, .value⟩) offCancel ⟨8192, .cancelFlag⟩

/-- The context after the store. -/
def storedCtx : Int → Word :=
  Function.update startCtx offOutBits programWord

variable (loaded : Int) (op : LoadOp) (bytes : Nat)

/-- The environment once the address is loaded. -/
def loadedEnv : Value → Option Word :=
  setAll startEnv [3] [storedCtx loaded]

/-- The three turns of the function. -/
def readsThroughTurns : List Turn :=
  [⟨⟨startEnv, startCtx, [0, 1, 2]⟩, 0, [.access true ⟨4096, .param 0⟩ offOutBits 8],
      ⟨startEnv, storedCtx, [1, 2]⟩⟩,
    ⟨⟨startEnv, storedCtx, [1, 2]⟩, 1, [.access false ⟨4096, .param 0⟩ loaded 8],
      ⟨loadedEnv loaded, storedCtx, [2]⟩⟩,
    ⟨⟨loadedEnv loaded, storedCtx, [2]⟩, 2, [.access false (storedCtx loaded) 0 bytes],
      ⟨setAll (loadedEnv loaded) [4] [⟨0, .value⟩], storedCtx, []⟩⟩]

theorem readsThrough_start :
    Start (readsThrough loaded op bytes) ⟨startEnv, startCtx, [0, 1, 2]⟩ where
  env v w h := by
    match v with
    | 0 => exact ⟨0, rfl, (Option.some.inj h) ▸ rfl⟩
    | 1 => exact ⟨1, rfl, (Option.some.inj h) ▸ rfl⟩
  ctx := rfl
  rest := ⟨0, rfl, rfl⟩

theorem readsThrough_run (hloaded : loaded ≠ offOutPtr) (horigin : (storedCtx loaded).origin ≠ .param 0)
    (hslot : ∀ s o, (storedCtx loaded).origin ≠ .slot s o) :
    Run (readsThrough loaded op bytes) plainUnit ⟨startEnv, startCtx, [0, 1, 2]⟩
      (readsThroughTurns loaded bytes)
      ⟨setAll (loadedEnv loaded) [4] [⟨0, .value⟩], storedCtx, []⟩ := by
  refine .cons (.store rfl rfl rfl ⟨fun _ o ho => ?_, fun _ _ => ?_, nofun⟩) (.cons (.load rfl rfl
    ⟨fun _ _ => rfl, fun _ _ _ => rfl, fun _ h => absurd h hloaded, nofun⟩) (.cons (.load rfl rfl
    ⟨fun h => absurd h horigin, fun h => absurd h horigin, fun h => absurd h horigin,
      fun s o h => absurd h (hslot s o)⟩) (.nil _)))
  · refine Function.update_of_ne ?_ _ _
    rintro rfl
    omega
  · exact Function.update_self offOutBits programWord startCtx

theorem readsThrough_meets : ∀ t ∈ readsThroughTurns offCancel 1,
    Meets (readsThrough offCancel op 1) plainUnit t := by
  refine forall_mem_cons.mpr ⟨⟨?store, nofun⟩, forall_mem_cons.mpr ⟨⟨?load, nofun⟩,
    forall_mem_singleton.mpr ⟨?flag, nofun⟩⟩⟩
  case store =>
    rintro _ _ _ _ ⟨⟩
    exact ⟨fun _ => ⟨by decide, fun _ => .inr (by decide)⟩, nofun, nofun, nofun⟩
  case load =>
    rintro _ _ _ _ ⟨⟩
    exact ⟨fun _ => ⟨by decide, nofun⟩, nofun, nofun, nofun⟩
  case flag =>
    rintro _ _ _ _ ⟨⟩
    refine ⟨nofun, nofun, ?_, ?_⟩
    · rintro _ _ _ _ ⟨⟩ ⟨⟩
    · rintro _ _ _ _ _ ⟨⟩ ⟨⟩
      exact ⟨⟨rfl, rfl⟩, by decide⟩

/-- Reading the cancellation flag. -/
theorem run_safe_flag : (readsThroughTurns offCancel 1).length = 3 ∧
    ∀ t ∈ readsThroughTurns offCancel 1, ∀ e ∈ t.events, e.Safe plainUnit :=
  ⟨rfl, run_safe (F := readsThrough offCancel .atomicLoad 1) rfl rfl
    (readsThrough_start offCancel .atomicLoad 1)
    (readsThrough_run offCancel .atomicLoad 1 (by decide) nofun nofun)
    (readsThrough_meets .atomicLoad)⟩

/-- **A program's value is taken for an address** when it was left in the context before: the
checkers accept the function. -/
theorem programValue_addressed : ∃ (F : Func) (U : Setting) (s s' : State) (turns : List Turn),
    checkMemory F U.entryFn = true ∧
      checkPointers F U.helpers U.ptrParams U.ptrSlots U.execPtrSlots = true ∧ Start F s ∧
      Run F U s turns s' ∧ ∃ t ∈ turns, ∃ base, .access false base 0 8 ∈ t.events ∧
        base.origin = .param 1 ∧ ¬ (Event.access false base 0 8).Safe U := by
  refine ⟨readsThrough offOutBits .load 8, plainUnit, _, _, readsThroughTurns offOutBits 8, rfl, rfl,
    readsThrough_start offOutBits .load 8,
    readsThrough_run offOutBits .load 8 (by decide) nofun nofun, _,
    mem_cons_of_mem _ (mem_cons_of_mem _ mem_cons_self), programWord,
    mem_cons_self, rfl, ?_⟩
  rintro (⟨h, -⟩ | ⟨-, h, -⟩)
  · cases h
  · cases h

end Samples

end Synsema.Jit
