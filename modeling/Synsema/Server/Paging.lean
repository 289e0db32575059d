import Synsema.Json.Numerals
import Synsema.Httpsig.Params
import Synsema.Lib.OrderedMap

/-!
# Paging through a collection

What a request gets of a list or of a paged result (`page_window`, `envelope_from_page`,
`write_page` and `shape` of `synsema-stdlib/src/routing.rs`).  Following the cursor of each answer
visits every item once (`visits`).  An answer is the text of the tree that `envelope_from_page`
builds wherever that one does not overflow (`pagingLaw_iff`): it adds the limit to the offset
plainly, `write_page` saturates.
-/

namespace Synsema.Server.Paging

open Text Json Httpsig List

/-! ## Items -/

/-- A value, by how it is written: one of the kinds that JSON has, one of another kind, as its
tree, or a list or a map of any values. -/
inductive Item where
  | plain (v : SynValue)
  | tree (j : Json)
  | list (vs : List Item)
  | map (es : List (Text × Item))

variable (R : RustFmt)

mutual

/-- `syn_to_json`. -/
def Item.toJson : Item → Json
  | .plain v => synToJson v
  | .tree j => j
  | .list vs => .array (toJsonAll vs)
  | .map es => .object (toJsonEntries es)

def toJsonAll : List Item → List Json
  | [] => []
  | v :: vs => v.toJson :: toJsonAll vs

def toJsonEntries : List (Text × Item) → List (Text × Json)
  | [] => []
  | (k, v) :: es => (k, v.toJson) :: toJsonEntries es

end

mutual

/-- `dumps_syn_into`: a value of another kind goes through its tree. -/
def Item.dumps : Item → Text
  | .plain v => dumpsSyn R v
  | .tree j => Json.dumps R j
  | .list vs => ['['] ++ commaSep (dumpsItems vs) ++ [']']
  | .map es => ['\x7b'] ++ commaSep (dumpsItemEntries es) ++ ['\x7d']

def dumpsItems : List Item → List Text
  | [] => []
  | v :: vs => v.dumps :: dumpsItems vs

def dumpsItemEntries : List (Text × Item) → List Text
  | [] => []
  | (k, v) :: es => (escapeStr k ++ ": " ++ v.dumps) :: dumpsItemEntries es

end

mutual

theorem dumps_toJson (v : Item) : Json.dumps R v.toJson = v.dumps R := by
  cases v with
  | plain v => exact dumps_eq_dumpsSyn R v
  | tree j => rfl
  | list vs => rw [Item.toJson, Json.dumps, dumpsAll_toJsonAll, Item.dumps]
  | map es => rw [Item.toJson, Json.dumps, dumpsPairs_toJsonEntries, Item.dumps]

theorem dumpsAll_toJsonAll (vs : List Item) : dumpsAll R (toJsonAll vs) = dumpsItems R vs := by
  cases vs with
  | nil => rfl
  | cons v vs => rw [toJsonAll, dumpsAll, dumps_toJson v, dumpsAll_toJsonAll vs, dumpsItems]

theorem dumpsPairs_toJsonEntries (es : List (Text × Item)) :
    dumpsPairs R (toJsonEntries es) = dumpsItemEntries R es := by
  match es with
  | [] => rfl
  | (k, v) :: es =>
    rw [toJsonEntries, dumpsPairs, dumps_toJson v, dumpsPairs_toJsonEntries es, dumpsItemEntries]

end

/-! ## Lists -/

/-- The layouts of a list. -/
inductive SynList where
  | values (items : List Item)
  | ints (xs : List Int64)
  | floats (xs : List F64)

/-- The items of a list, one by one. -/
def SynList.items : SynList → List Item
  | .values items => items
  | .ints xs => xs.map fun x => .plain (.number (.int x))
  | .floats xs => xs.map fun x => .plain (.number (.float x))

/-- A list as it fits memory. -/
structure ListRef where
  list : SynList
  fits : list.items.length < 2 ^ 63

/-- `list_read_range`: boxed items are lent, others are copied one by one. -/
def listReadRange (l : SynList) (start stop : Nat) : List Item :=
  let stop := min stop l.items.length
  let start := min start stop
  match l with
  | .values items => (items.take stop).drop start
  | l => (List.range' start (stop - start)).filterMap fun i => l.items[i]?

/-! ## Pages -/

/-- What a request asks for. -/
abbrev Query := OrderedMap Text Text

/-- `DEFAULT_LIMIT`. -/
def defaultLimit : Int64 := 100

/-- `MAX_LIMIT`. -/
def maxLimit : Int64 := 1000

/-- `page_window`: the limit and the offset. -/
def pageWindow (query : Query) : Int64 × Int64 :=
  let limit := ((query.get? "limit").bind parseI64).getD defaultLimit
  let limit := if limit ≤ 0 then defaultLimit else limit
  let limit := if maxLimit < limit then maxLimit else limit
  let rawCursor := (query.get? "cursor").or (query.get? "offset")
  let offset := (rawCursor.bind parseI64).getD 0
  let offset := if offset < 0 then 0 else offset
  (limit, offset)

/-- `a + b`, which stops the program where it does not fit. -/
def plainAdd (a b : Int64) : Option Int64 :=
  let s := a.toInt + b.toInt
  if -2 ^ 63 ≤ s ∧ s < 2 ^ 63 then some (Int64.ofInt s) else none

/-- `saturating_add`. -/
def saturatingAdd (a b : Int64) : Int64 := Int64.ofInt (saturate (a.toInt + b.toInt))

/-- The tree of an answer. -/
def pageTree (items : List Item) (count total : Int64) (cursor : Option Int64) : Json :=
  .object [("items", .array (toJsonAll items)), ("count", .int count),
    ("total", .int total), ("cursor", (cursor.map Json.int).getD .null)]

/-- The cursor of an answer: where the next page begins. -/
def cursor (next total : Int64) : Option Int64 := if next < total then some next else none

def envelopeFromPage (items : List Item) (count total limit offset : Int64) : Option Json :=
  (plainAdd offset limit).map fun next => pageTree items count total (cursor next total)

def writePage (items : List Item) (total limit offset : Int64) : Text :=
  let next := saturatingAdd offset limit
  "\x7b\"items\": [" ++ commaSep (dumpsItems R items) ++ "], \"count\": " ++
    shownInt (Int64.ofNat items.length) ++ ", \"total\": " ++ shownInt total ++
    ", \"cursor\": " ++ (if next < total then shownInt next else "null") ++ ['\x7d']

/-- What is given to a request, by how `shape` attends it. -/
inductive Given where
  | nothing
  | paged (fetch : Option Int64 → Int64 → Except Text (List Item × Int64))
  | list (l : ListRef)
  | other (v : Item)

/-- The page of a list, and its length. -/
def readPage (l : ListRef) (limit offset : Int64) : List Item × Int64 :=
  let total := Int64.ofNat l.list.items.length
  let start := (max (min offset.toInt total.toInt) 0).toNat
  let stop := (max (min (saturatingAdd offset limit).toInt total.toInt) 0).toNat
  (listReadRange l.list start stop, total)

def shape (g : Given) (query : Query) : Except Text Text :=
  match g with
  | .nothing => .ok "null"
  | .paged fetch =>
    let (limit, offset) := pageWindow query
    match fetch (some limit) offset with
    | .error e => .error e
    | .ok (rows, total) => .ok (writePage R rows total limit offset)
  | .list l =>
    let (limit, offset) := pageWindow query
    let (page, total) := readPage l limit offset
    .ok (writePage R page total limit offset)
  | .other v => .ok (v.dumps R)

/-! ## What is written -/

theorem escape_keys : escapeStr "items" = "\"items\"" ∧
    escapeStr "count" = "\"count\"" ∧
    escapeStr "total" = "\"total\"" ∧
    escapeStr "cursor" = "\"cursor\"" := by
  refine ⟨?_, ?_, ?_, ?_⟩ <;> rfl

theorem writePage_eq (items : List Item) (total limit offset : Int64) :
    writePage R items total limit offset = Json.dumps R (pageTree items (Int64.ofNat items.length)
      total (cursor (saturatingAdd offset limit) total)) := by
  obtain ⟨hitems, hcount, htotal, hcursor⟩ := escape_keys
  have hnext : Json.dumps R (((cursor (saturatingAdd offset limit) total).map Json.int).getD .null) =
      if saturatingAdd offset limit < total then shownInt (saturatingAdd offset limit)
      else "null".toList := by
    rw [cursor]
    split
    · rw [Option.map_some, Option.getD_some, Json.dumps, pushInt_eq, shownInt]
    · rw [Option.map_none, Option.getD_none, Json.dumps]
  have hopen : "\x7b\"items\": [".toList =
      ['\x7b'] ++ "\"items\"".toList ++ ": ".toList ++ ['['] := by decide
  have hmid : "], \"count\": ".toList =
      [']'] ++ ", ".toList ++ "\"count\"".toList ++ ": ".toList := by decide
  have hthen : ", \"total\": ".toList = ", ".toList ++ "\"total\"".toList ++ ": ".toList ∧
      ", \"cursor\": ".toList = ", ".toList ++ "\"cursor\"".toList ++ ": ".toList := by decide
  unfold writePage
  simp only [hopen, hmid, hthen, pageTree, Json.dumps, dumpsPairs, hitems, hcount, htotal, hcursor, hnext, pushInt_eq,
    dumpsAll_toJsonAll, shownInt, commaSep, join, intercalate_cons_cons,
    intercalate_singleton, append_assoc]

/-! ## The window -/

variable {query : Query}

theorem pageWindow_bounds (query : Query) :
    0 < (pageWindow query).1.toInt ∧ (pageWindow query).1.toInt ≤ 1000 ∧
      0 ≤ (pageWindow query).2.toInt := by
  have hlim (n : Int64) : (let n := if n ≤ 0 then defaultLimit else n
      let n := if maxLimit < n then maxLimit else n
      0 < n.toInt ∧ n.toInt ≤ 1000) := by
    have hdefault : defaultLimit.toInt = 100 := by decide
    have hmax : maxLimit.toInt = 1000 := by decide
    have hzero : (0 : Int64).toInt = 0 := by decide
    simp only [Int64.le_iff_toInt_le, Int64.lt_iff_toInt_lt]
    split_ifs <;> omega
  have hoff (n : Int64) : 0 ≤ (if n < 0 then 0 else n).toInt := by
    have hzero : (0 : Int64).toInt = 0 := by decide
    by_cases hn : n < 0
    · rw [if_pos hn, hzero]
    · rw [if_neg hn]
      rw [Int64.lt_iff_toInt_lt] at hn
      omega
  exact ⟨(hlim _).1, (hlim _).2, hoff _⟩

variable {a b : Int64} {g : Given}

theorem toInt_saturatingAdd (ha : 0 ≤ a.toInt) (hb : 0 ≤ b.toInt) :
    (saturatingAdd a b).toInt = min (a.toInt + b.toInt) (2 ^ 63 - 1) := by
  rw [saturatingAdd, saturate, Int64.toInt_ofInt_of_le (by omega) (by omega)]
  omega

theorem plainAdd_eq (ha : 0 ≤ a.toInt) (hb : 0 ≤ b.toInt) :
    plainAdd a b = if a.toInt + b.toInt < 2 ^ 63 then some (saturatingAdd a b) else none := by
  rw [plainAdd, saturatingAdd, saturate]
  split_ifs <;> first | omega | rfl | (congr 2; omega)

theorem filterMap_range' {α : Type} (xs : List α) (s n : Nat) :
    (List.range' s n).filterMap (fun i => xs[i]?) = (xs.drop s).take n := by
  induction n generalizing s with
  | zero => rfl
  | succ n ih =>
    rw [range'_succ, filterMap_cons, ih]
    by_cases hs : s < xs.length
    · rw [getElem?_eq_getElem hs, drop_eq_getElem_cons hs, take_succ_cons]
    · rw [getElem?_eq_none (by omega), drop_eq_nil_of_le (by omega),
        drop_eq_nil_of_le (by omega)]
      simp only [take_nil]

theorem listReadRange_eq (l : SynList) (start stop : Nat) :
    listReadRange l start stop = (l.items.take stop).drop start := by
  have hslice : (l.items.take (min stop l.items.length)).drop
      (min start (min stop l.items.length)) = (l.items.take stop).drop start := by
    rw [← take_eq_take_min, ← length_take, ← drop_eq_drop_min]
  rw [← hslice]
  cases l with
  | values items => rfl
  | ints xs | floats xs => exact (filterMap_range' ..).trans List.drop_take.symm

/-! ## Following the cursor -/

/-- An answer. -/
structure Answer where
  items : List Item
  count : Int64
  total : Int64
  cursor : Option Int64

def Answer.tree (a : Answer) : Json := pageTree a.items a.count a.total a.cursor

/-- What a list answers. -/
def answer (l : ListRef) (query : Query) : Answer :=
  let (limit, offset) := pageWindow query
  let (page, total) := readPage l limit offset
  { items := page
    count := Int64.ofNat page.length
    total := total
    cursor := cursor (saturatingAdd offset limit) total }

theorem shape_list (l : ListRef) (query : Query) :
    shape R (.list l) query = .ok (Json.dumps R (answer l query).tree) :=
  congrArg Except.ok (writePage_eq R ..)

/-- The request with a limit, and with the cursor of the answer before it. -/
def request (limit : Option Text) (start : Option Int64) : Query :=
  let query : Query := limit.elim .empty fun t => OrderedMap.empty.insert "limit" t
  start.elim query fun n => query.insert "cursor" (shownInt n)

/-- The answers to `n` requests at most. -/
def follow (l : ListRef) (limit : Option Text) : Nat → Option Int64 → Option (List Answer)
  | 0, _ => none
  | n + 1, start =>
    let a := answer l (request limit start)
    match a.cursor with
    | none => some [a]
    | some next => (follow l limit n (some next)).map (a :: ·)

variable {l : ListRef} {limit : Option Text} {start : Option Int64}

theorem pageWindow_request (limit : Option Text) (hstart : 0 ≤ (start.getD 0).toInt) :
    pageWindow (request limit start) =
      ((pageWindow (request limit none)).1, start.getD 0) := by
  have hoff : ("offset" : Text) ≠ "limit" ∧
      ("cursor" : Text) ≠ "limit" ∧ ("limit" : Text) ≠ "cursor" ∧
      ("offset" : Text) ≠ "cursor" := by decide
  have hlimit : ∀ start, (request limit start).get? "limit" = limit := by
    intro start
    cases limit <;> cases start <;>
      simp only [request, Option.elim, OrderedMap.get?_insert, hoff, if_true, if_false] <;> rfl
  have hcursor : ((request limit start).get? "cursor").or
      ((request limit start).get? "offset") = start.map shownInt := by
    cases limit <;> cases start <;>
      simp only [request, Option.elim, OrderedMap.get?_insert, hoff, if_true, if_false] <;> rfl
  have hparse : (start.map shownInt).bind parseI64 = start := by
    cases start with
    | none => rfl
    | some n => exact parseI64_shownInt n
  have hpos : ¬ start.getD 0 < 0 := by
    rw [Int64.lt_iff_toInt_lt]
    exact Int.not_lt.mpr hstart
  simp only [pageWindow, hlimit, hcursor, hparse, if_neg hpos]

/-- What a page holds: the items from its offset on, as many as the limit, and where the next one
begins. -/
theorem answer_request (l : ListRef) (limit : Option Text) (hstart : 0 ≤ (start.getD 0).toInt) :
    let o := (start.getD 0).toInt.toNat
    let k := (pageWindow (request limit none)).1.toInt.toNat
    let a := answer l (request limit start)
    a.items = (l.list.items.drop o).take k ∧ a.count.toInt = a.items.length ∧
      a.total.toInt = l.list.items.length ∧
      (a.cursor = none ∧ l.list.items.length ≤ o + k ∨
        ∃ n, a.cursor = some n ∧ n.toInt = o + k ∧ o + k < l.list.items.length) := by
  intro o k a
  obtain ⟨hlow, -, -⟩ := pageWindow_bounds (request limit none)
  have hfits := l.fits
  have htotal : (Int64.ofNat l.list.items.length).toInt = l.list.items.length :=
    Int64.toInt_ofNat_of_lt hfits
  have ho : (start.getD 0).toInt = o := (Int.toNat_of_nonneg hstart).symm
  have hk : (pageWindow (request limit none)).1.toInt = k := (Int.toNat_of_nonneg hlow.le).symm
  have hlt := (start.getD 0).toInt_lt
  have hsat := toInt_saturatingAdd hstart hlow.le
  have hitems : a.items = (l.list.items.drop o).take k := by
    simp only [a, answer, pageWindow_request limit hstart, readPage, listReadRange_eq, htotal, hsat,
      ho, hk, List.drop_take]
    rcases Nat.lt_or_ge o l.list.items.length with hin | hout
    · rw [show (max (min (o : Int) l.list.items.length) 0).toNat = o by omega]
      rcases Nat.lt_or_ge (o + k) l.list.items.length with hnext | hlast
      · congr 1
        omega
      · rw [take_of_length_le (by rw [length_drop]; omega),
          take_of_length_le (by rw [length_drop]; omega)]
    · rw [drop_eq_nil_of_le hout, drop_eq_nil_of_le (by omega), take_nil,
        take_nil]
  refine ⟨hitems, ?_, ?_, ?_⟩
  · refine Int64.toInt_ofNat_of_lt (lt_of_le_of_lt ?_ hfits)
    change a.items.length ≤ _
    rw [hitems, length_take, length_drop]
    omega
  · exact htotal
  · have hcursor : a.cursor = cursor (saturatingAdd (start.getD 0)
        (pageWindow (request limit none)).1) (Int64.ofNat l.list.items.length) := by
      simp only [a, answer, pageWindow_request limit hstart, readPage]
    rw [hcursor, cursor]
    split
    next hnext =>
      rw [Int64.lt_iff_toInt_lt, hsat, htotal] at hnext
      exact .inr ⟨_, rfl, by rw [hsat]; omega, by omega⟩
    next hnext =>
      rw [Int64.lt_iff_toInt_lt, hsat, htotal] at hnext
      exact .inl ⟨rfl, by omega⟩

/-- The answers hold the items, each once and in order. -/
structure Visits (l : ListRef) (as : List Answer) (items : List Item) : Prop where
  items : as.flatMap Answer.items = items
  counts : ∀ a ∈ as, a.count.toInt = a.items.length ∧ a.total.toInt = l.list.items.length

theorem follow_visits {m : Nat} (hstart : 0 ≤ (start.getD 0).toInt)
    (hm : l.list.items.length ≤ (start.getD 0).toInt.toNat + m) :
    ∃ as, follow l limit (m + 1) start = some as ∧
      Visits l as (l.list.items.drop (start.getD 0).toInt.toNat) := by
  induction m generalizing start with
  | zero =>
    obtain ⟨hitems, hcount, htotal, ⟨hcursor, -⟩ | ⟨n, -, -, hlt⟩⟩ := answer_request l limit hstart
    · refine ⟨[answer l (request limit start)], by rw [follow, hcursor], ?_, ?_⟩
      · rw [flatMap_singleton, hitems, drop_eq_nil_of_le (by omega), take_nil]
      · exact fun a ha => mem_singleton.mp ha ▸ ⟨hcount, htotal⟩
    · omega
  | succ m ih =>
    obtain ⟨hitems, hcount, htotal, ⟨hcursor, hlast⟩ | ⟨n, hcursor, hn, -⟩⟩ :=
      answer_request l limit hstart
    · refine ⟨[answer l (request limit start)], by rw [follow, hcursor], ?_, ?_⟩
      · rw [flatMap_singleton, hitems, take_of_length_le]
        rw [length_drop]
        omega
      · exact fun a ha => mem_singleton.mp ha ▸ ⟨hcount, htotal⟩
    · -- the limit is not zero, so the next page begins further on
      obtain ⟨hpos, -, -⟩ := pageWindow_bounds (request limit none)
      have hnat : n.toInt.toNat = (start.getD 0).toInt.toNat +
          (pageWindow (request limit none)).1.toInt.toNat := by omega
      obtain ⟨as, has, hvisit⟩ := @ih (some n) (by change 0 ≤ n.toInt; omega)
        (by change _ ≤ n.toInt.toNat + m; omega)
      refine ⟨answer l (request limit start) :: as, ?_, ?_, ?_⟩
      · rw [follow, hcursor]
        exact congrArg (Option.map _) has
      · rw [flatMap_cons, hvisit.items, hitems]
        change _ ++ l.list.items.drop n.toInt.toNat = _
        rw [hnat, ← drop_drop, take_append_drop]
      · exact forall_mem_cons.mpr ⟨⟨hcount, htotal⟩, hvisit.counts⟩

/-! ## The law -/

/-- The page of what is paged, with the total. -/
def Given.read (limit offset : Int64) : Given → Option (Except Text (List Item × Int64))
  | .list l => some (.ok (readPage l limit offset))
  | .paged fetch => some (fetch (some limit) offset)
  | _ => none

/-- What is said of a request: following the cursors of a list visits it, and an answer is the
text of the tree that `envelope_from_page` builds of the page. -/
structure PagingLaw (g : Given) (query : Query) : Prop where
  visits : ∀ l, g = .list l → (∀ limit, ∃ n as, follow l limit n none = some as ∧
      Visits l as l.list.items) ∧
    ∀ query, shape R (.list l) query = .ok (Json.dumps R (answer l query).tree)
  envelope : ∀ items total,
    g.read (pageWindow query).1 (pageWindow query).2 = some (.ok (items, total)) →
      ∃ tree, envelopeFromPage items (Int64.ofNat items.length) total (pageWindow query).1
          (pageWindow query).2 = some tree ∧ shape R g query = .ok (Json.dumps R tree)

/-- Where a page is read, its end is an `i64`. -/
def Ends (g : Given) (query : Query) : Prop :=
  ∀ items total, g.read (pageWindow query).1 (pageWindow query).2 = some (.ok (items, total)) →
    (pageWindow query).2.toInt + (pageWindow query).1.toInt < 2 ^ 63

theorem shape_read {items : List Item} {total : Int64}
    (h : g.read (pageWindow query).1 (pageWindow query).2 = some (.ok (items, total))) :
    shape R g query = .ok (writePage R items total (pageWindow query).1 (pageWindow query).2) := by
  cases g with
  | nothing | other v => cases h
  | paged fetch =>
    have hfetch : fetch (some (pageWindow query).1) (pageWindow query).2 = .ok (items, total) :=
      Option.some.inj h
    simp only [shape, hfetch]
  | list l =>
    have hread : readPage l (pageWindow query).1 (pageWindow query).2 = (items, total) :=
      Except.ok.inj (Option.some.inj h)
    simp only [shape, hread]

theorem envelopeFromPage_eq (items : List Item) (count total : Int64) (query : Query) :
    envelopeFromPage items count total (pageWindow query).1 (pageWindow query).2 =
      if (pageWindow query).2.toInt + (pageWindow query).1.toInt < 2 ^ 63 then
        some (pageTree items count total
          (cursor (saturatingAdd (pageWindow query).2 (pageWindow query).1) total))
      else none := by
  obtain ⟨hlimit, -, hoffset⟩ := pageWindow_bounds query
  rw [envelopeFromPage, plainAdd_eq hoffset hlimit.le]
  split <;> rfl

theorem pagingLaw_of_ends (h : Ends g query) : PagingLaw R g query := by
  refine ⟨?_, fun items total hread => ?_⟩
  · rintro l rfl
    exact ⟨fun limit => ⟨_, follow_visits (m := l.list.items.length) (by decide) (Nat.le_add_left ..)⟩, shape_list R l⟩
  · refine ⟨_, (envelopeFromPage_eq ..).trans (if_pos (h items total hread)), ?_⟩
    rw [shape_read R hread, writePage_eq]

theorem ends_of_pagingLaw (h : PagingLaw R g query) : Ends g query := by
  intro items total hread
  obtain ⟨tree, htree, -⟩ := h.envelope items total hread
  by_contra hend
  rw [envelopeFromPage_eq, if_neg hend] at htree
  cases htree

theorem pagingLaw_iff (g : Given) (query : Query) : PagingLaw R g query ↔ Ends g query :=
  ⟨ends_of_pagingLaw R, pagingLaw_of_ends R⟩

/-- The last cursor that an `i64` can be. -/
theorem not_pagingLaw : ¬ ∀ (R : RustFmt) (g : Given) (query : Query), PagingLaw R g query := by
  intro h
  have hends := ends_of_pagingLaw ⟨fun _ => []⟩
    (h ⟨fun _ => []⟩ (.list ⟨.values [], by decide⟩) (request none (some Int64.maxValue))) _ _ rfl
  rw [pageWindow_request none (by decide)] at hends
  exact absurd hends (by decide)

end Synsema.Server.Paging
