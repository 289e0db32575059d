import Synsema.Capability.Containment
import Synsema.Capscope.NetScope
import Synsema.Lib.Except

/-!
# The text of a ceiling

A ceiling is given to a process as one text, `--cap-set`: its items between commas, each a name
or a name and a scope around a `=` (`synsema-capabilities/src/model.rs`, `cap_set_item` and
`build_ceiling`).  A list of capabilities that is written as such a text is read back as it was
exactly when each of them `Travels` (`buildCeiling_capSet_iff`).
-/

namespace Synsema.Capability

open Text Capscope Net List

/-! ## Items -/

/-- `wire_name`: the name that `require` and `--cap-set` understand. -/
def CapabilityType.wireName : CapabilityType → Text
  | fileRead => "file.read"
  | fileWrite => "file.write"
  | ty => ty.nameLower

def capSetItem (c : Capability) : Text :=
  match c.scope with
  | some s => if s.isEmpty then c.ty.wireName else c.ty.wireName ++ "=" ++ s
  | none => c.ty.wireName

def knownCapabilityNames : Text :=
  "net, file, file.read, file.write, exec, env, time, random, stdout, stdin, llm, judge, db, serve, secret, reveal, sign, wallet, spend, memory, sandbox_run, attest, declassify"

/-- What is wrong with the hosts of a bound secret. -/
def boundHostsError (debug : Text → Text) (cap : Capability) : Option Text :=
  match cap.ty, cap.scope.bind fun s => (splitSecretScope s).2 with
  | .secret, some hosts => (split '|' hosts).findSome? (boundHostError debug)
  | _, _ => none

/-- The capability that an item of `--cap-set` names. -/
def ceilingItem (m : Platform) (debug : Text → Text) (item : Text) : Except Text Capability :=
  let (name, scope) := match splitOnce '=' item with
    | some (n, s) => (trim n, some (trim s))
    | none => (item, none)
  match capabilityTypeFromName name with
  | none =>
    .error ("--cap-set: unknown capability '" ++ name ++ "'. Known: " ++
      knownCapabilityNames ++ " (or `none` for an empty ceiling)")
  | some ty =>
    match if ty = .net then scope.bind (netScopeError debug) else none with
    | some e => .error ("--cap-set: " ++ e)
    | none =>
      match boundHostsError debug (new m ty scope) with
      | some e => .error ("--cap-set: " ++ item ++ ": " ++ e)
      | none => .ok (new m ty scope)

/-- `build_ceiling`: the ceiling of `--sandbox` or of `--cap-set`, `none` without either. -/
def buildCeiling (m : Platform) (debug : Text → Text) (sandbox : Bool) (capSet : Option Text) :
    Except Text (Option (List Capability)) :=
  match sandbox, capSet with
  | true, some _ => .error "--sandbox and --cap-set are mutually exclusive; choose one"
  | true, none => .ok (some [new m .stdout none, new m .time none])
  | false, none => .ok none
  | false, some list =>
    if trim list == "none" then .ok (some [])
    else do
      let items := ((split ',' list).map trim).filter fun item => !item.isEmpty
      let caps ← items.mapM (ceilingItem m debug)
      if caps.isEmpty then .error "--cap-set requires at least one capability"
      else return some caps

/-! ## What travels -/

/-- Is the scope one that the other process stores as it is written, and accepts? -/
def Travels (m : Platform) (debug : Text → Text) (c : Capability) : Prop :=
  ∀ s, c.scope = some s → storedScope m c.ty s = s ∧
    (c.ty = .net → netScopeError debug s = none) ∧ boundHostsError debug c = none

/-- The scopes that `run_program` lets into the text of a ceiling: not blank, without blanks at
the ends and without commas. -/
def Separable (c : Capability) : Prop :=
  ∀ s, c.scope = some s → s ≠ [] ∧ trim s = s ∧ ',' ∉ s

namespace CapabilityType

theorem capabilityTypeFromName_wireName (ty : CapabilityType) :
    capabilityTypeFromName ty.wireName = some ty := by
  cases ty <;> decide

theorem wireName_plain (ty : CapabilityType) :
    trim ty.wireName = ty.wireName ∧ '=' ∉ ty.wireName ∧ ',' ∉ ty.wireName ∧
      ty.wireName ≠ "none" ∧ ty.wireName ≠ [] := by
  cases ty <;> decide

end CapabilityType

variable {m : Platform} {c : Capability} {caps : List Capability}

theorem new_of_stored (h : ∀ s, c.scope = some s → storedScope m c.ty s = s) :
    new m c.ty c.scope = c := by
  obtain ⟨ty, scope⟩ := c
  cases scope with
  | none => rfl
  | some s => exact congrArg (Capability.mk ty ∘ some) (h s rfl)

theorem splitOnce_capSetItem (h : Separable c) :
    (match splitOnce '=' c.capSetItem with
      | some (n, s) => (trim n, some (trim s))
      | none => (c.capSetItem, none)) = (c.ty.wireName, c.scope) := by
  obtain ⟨htrim, heq, -, -, -⟩ := c.ty.wireName_plain
  unfold capSetItem
  cases hs : c.scope with
  | none => simp only [splitOnce_eq_none_iff.mpr heq]
  | some s =>
    obtain ⟨hne, hblank, -⟩ := h s hs
    simp only [isEmpty_eq_false_iff.mpr hne, Bool.false_eq_true, if_false]
    rw [append_assoc]
    change (match splitOnce '=' (c.ty.wireName ++ '=' :: s) with
      | some (n, s) => (trim n, some (trim s))
      | none => _) = _
    rw [splitOnce_append heq]
    simp only [htrim, hblank]

theorem ceilingItem_capSetItem {debug : Text → Text} (h : Separable c) :
    ceilingItem m debug c.capSetItem = .ok c ↔ Travels m debug c := by
  unfold ceilingItem
  simp only [splitOnce_capSetItem h, CapabilityType.capabilityTypeFromName_wireName]
  constructor
  · intro hok s hs
    split at hok
    · cases hok
    · rename_i hnet
      split at hok
      · cases hok
      · rename_i hbound
        have hnew : new m c.ty c.scope = c := by injection hok
        rw [hnew] at hbound
        refine ⟨?_, fun hty => ?_, hbound⟩
        · have hscope := congrArg Capability.scope hnew
          simpa [new, hs] using hscope
        · simpa [hty, hs] using hnet
  · intro ht
    have hnew : new m c.ty c.scope = c := new_of_stored fun s hs => (ht s hs).1
    have hnet : (if c.ty = .net then c.scope.bind (netScopeError debug) else none) = none := by
      split
      · rename_i hty
        cases hs : c.scope with
        | none => rfl
        | some s => exact (ht s hs).2.1 hty
      · rfl
    have hbound : boundHostsError debug c = none := by
      cases hs : c.scope with
      | none => simp [boundHostsError, hs]
      | some s => exact (ht s hs).2.2
    rw [hnet, hnew]
    simp only [hbound]

/-! ## The text -/

/-- The text of a ceiling: `none`, or its items between commas. -/
def capSetText (caps : List Capability) : Text :=
  if caps.isEmpty then "none" else join "," (caps.map capSetItem)

theorem trim_capSetItem (h : Separable c) : trim c.capSetItem = c.capSetItem := by
  obtain ⟨htrim, -, -, -, hname⟩ := c.ty.wireName_plain
  unfold capSetItem
  cases hs : c.scope with
  | none => exact htrim
  | some s =>
    obtain ⟨hne, hblank, -⟩ := h s hs
    simp only [isEmpty_eq_false_iff.mpr hne, Bool.false_eq_true, if_false]
    refine trim_eq_self ?_ ?_
    · intro d hd
      rw [append_assoc, head?_append_of_ne_nil _ hname] at hd
      exact trim_head d (by rwa [htrim])
    · intro d hd
      rw [getLast?_append_of_ne_nil _ hne] at hd
      exact trim_last d (by rwa [hblank])

theorem comma_not_mem_capSetItem (h : Separable c) : ',' ∉ c.capSetItem := by
  obtain ⟨-, -, hcomma, -, -⟩ := c.ty.wireName_plain
  unfold capSetItem
  cases hs : c.scope with
  | none => exact hcomma
  | some s =>
    obtain ⟨hne, -, hs⟩ := h s hs
    simp only [isEmpty_eq_false_iff.mpr hne, Bool.false_eq_true, if_false]
    simp [hcomma, hs]

theorem capSetItem_ne_nil (c : Capability) : c.capSetItem ≠ [] := by
  obtain ⟨-, -, -, -, hname⟩ := c.ty.wireName_plain
  unfold capSetItem
  split
  · split
    · exact hname
    · simp [hname]
  · exact hname

theorem capSetItem_ne_none : c.capSetItem ≠ "none" := by
  obtain ⟨-, heq, -, hnone, -⟩ := c.ty.wireName_plain
  unfold capSetItem
  split
  · split
    · exact hnone
    · intro h
      have hmem : '=' ∈ "none".toList := by
        rw [← h]
        simp
      exact absurd hmem (by decide)
  · exact hnone

theorem mem_trim {c : Char} {t : Text} (hc : isWhitespace c = false) (h : c ∈ t) : c ∈ trim t := by
  have hstart : c ∈ trimStart t := by
    rw [← takeWhile_append_dropWhile (p := isWhitespace) (l := t), mem_append] at h
    rcases h with h | h
    · rw [mem_takeWhile_imp h] at hc
      cases hc
    · exact h
  rw [← rdropWhile_append_rtakeWhile (p := isWhitespace) (l := trimStart t), mem_append] at hstart
  rcases hstart with hm | hm
  · exact hm
  · rw [mem_rtakeWhile_imp hm] at hc
    cases hc

theorem capSetText_ne_none (h : ∀ d ∈ c :: caps, Separable d) :
    trim (capSetText (c :: caps)) ≠ "none" := by
  intro heq
  rw [capSetText, isEmpty_cons, if_neg Bool.false_ne_true, map_cons] at heq
  cases caps with
  | nil =>
    rw [map_nil, join, intercalate_singleton, trim_capSetItem (h c mem_cons_self)] at heq
    exact capSetItem_ne_none heq
  | cons d caps =>
    -- with two items the text has a comma, and `none` has not
    have hcomma : ',' ∈ join "," (c.capSetItem :: (d :: caps).map capSetItem) := by
      rw [map_cons, join, intercalate_cons_cons]
      simp
    have hmem := mem_trim (by decide) hcomma
    rw [heq] at hmem
    exact absurd hmem (by decide)

theorem split_capSetText (h : ∀ d ∈ c :: caps, Separable d) :
    (((split ',' (capSetText (c :: caps))).map trim).filter fun item => !item.isEmpty) =
      (c :: caps).map capSetItem := by
  have hitems : ∀ item ∈ (c :: caps).map capSetItem, ',' ∉ item := by
    refine forall_mem_map.mpr fun d hd => comma_not_mem_capSetItem (h d hd)
  have hsplit : split ',' (capSetText (c :: caps)) = (c :: caps).map capSetItem :=
    splitOn_intercalate ',' hitems (cons_ne_nil _ _)
  have htrim : ((c :: caps).map capSetItem).map trim = (c :: caps).map capSetItem := by
    rw [map_map]
    exact map_congr_left fun d hd => trim_capSetItem (h d hd)
  rw [hsplit, htrim, filter_eq_self]
  refine forall_mem_map.mpr fun d _ => ?_
  rw [isEmpty_eq_false_iff.mpr (capSetItem_ne_nil d)]
  rfl

theorem mapM_capSetItem_eq_ok {f : Text → Except Text Capability} :
    (caps.map capSetItem).mapM f = .ok caps ↔ ∀ c ∈ caps, f c.capSetItem = .ok c := by
  rw [Except.mapM_eq_ok_iff, forall₂_map_left_iff, forall₂_same]

theorem buildCeiling_capSet_iff {debug : Text → Text} (h : ∀ c ∈ caps, Separable c) :
    buildCeiling m debug false (some (capSetText caps)) = .ok (some caps) ↔
      ∀ c ∈ caps, Travels m debug c := by
  cases caps with
  | nil => exact iff_of_true rfl (forall_mem_nil _)
  | cons c caps =>
    have hread : buildCeiling m debug false (some (capSetText (c :: caps))) =
        ((c :: caps).map capSetItem).mapM (ceilingItem m debug) >>= fun caps =>
          if caps.isEmpty then .error "--cap-set requires at least one capability"
          else .ok (some caps) := by
      simp only [buildCeiling, beq_eq_false_iff_ne.mpr (capSetText_ne_none h), Bool.false_eq_true,
        if_false, split_capSetText h]
      rfl
    have hmap : ((c :: caps).map capSetItem).mapM (ceilingItem m debug) = .ok (c :: caps) ↔
        ∀ d ∈ c :: caps, Travels m debug d := by
      rw [mapM_capSetItem_eq_ok]
      exact forall₂_congr fun d hd => ceilingItem_capSetItem (h d hd)
    rw [hread, Except.bind_eq_ok, ← hmap]
    constructor
    · rintro ⟨caps', hcaps', heq⟩
      split at heq
      · cases heq
      · cases heq
        exact hcaps'
    · intro hok
      exact ⟨c :: caps, hok, rfl⟩

end Synsema.Capability
