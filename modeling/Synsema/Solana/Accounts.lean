import Synsema.Solana.Model

/-!
# The accounts of a message

Which keys a message has and with which flags: those of its instructions, each flag wherever one of
them wants it, and the fee payer with both.  The keys stand in the order of their groups, sorted in
each (`pairwise_compileKeys`), so that the flags of a key are known from its place
(`signer_place`, `writable_place`).
-/

namespace Synsema.Solana

open List

/-! ## What is asked of a key -/

namespace Request

/-- The key is to sign. -/
def Signer (q : Request) (k : Pubkey) : Prop :=
  k = q.feePayer ∨ ∃ ins ∈ q.instructions, ∃ a ∈ ins.accounts, a.pubkey = k ∧ a.signer = true

/-- The key is to be written to. -/
def Writable (q : Request) (k : Pubkey) : Prop :=
  k = q.feePayer ∨ ∃ ins ∈ q.instructions, ∃ a ∈ ins.accounts, a.pubkey = k ∧ a.writable = true

/-- The key is in the request. -/
def Mentions (q : Request) (k : Pubkey) : Prop :=
  k = q.feePayer ∨
    ∃ ins ∈ q.instructions, (∃ a ∈ ins.accounts, a.pubkey = k) ∨ ins.program = k

end Request

/-! ## The flags -/

/-- The flags of a key. -/
def flagsAt (metas : Metas) (k : Pubkey) : Bool × Bool := (metas.get? k).getD (false, false)

section Flags

variable {metas : Metas} {k : Pubkey}

theorem mem_keys_addAccount {a : AccountMeta} :
    k ∈ (addAccount metas a).keys ↔ k ∈ metas.keys ∨ a.pubkey = k := by
  rw [addAccount, OrderedMap.mem_keys_insert, or_comm, eq_comm]

theorem mem_keys_addAccounts {as : List AccountMeta} :
    k ∈ (as.foldl addAccount metas).keys ↔ k ∈ metas.keys ∨ ∃ a ∈ as, a.pubkey = k := by
  induction as generalizing metas with
  | nil => simp only [foldl_nil, not_mem_nil, false_and, exists_false, or_false]
  | cons a as ih =>
    rw [foldl_cons, ih, mem_keys_addAccount, or_assoc]
    simp only [List.mem_cons, or_and_right, exists_or, exists_eq_left]

theorem mem_keys_addProgram {p : Pubkey} :
    k ∈ (addProgram metas p).keys ↔ k ∈ metas.keys ∨ p = k := by
  rw [addProgram]
  split
  · next h =>
      refine ⟨Or.inl, fun hk => hk.elim id ?_⟩
      rintro rfl
      by_contra hk
      rw [OrderedMap.get?_eq_none.mpr hk] at h
      cases h
  · rw [OrderedMap.mem_keys_insert, or_comm, eq_comm]

theorem mem_keys_addInstructions {l : List Instruction} :
    k ∈ (l.foldl addInstruction metas).keys ↔ k ∈ metas.keys ∨
      ∃ ins ∈ l, (∃ a ∈ ins.accounts, a.pubkey = k) ∨ ins.program = k := by
  induction l generalizing metas with
  | nil => simp only [foldl_nil, not_mem_nil, false_and, exists_false, or_false]
  | cons ins l ih =>
    rw [foldl_cons, ih, addInstruction, mem_keys_addProgram, mem_keys_addAccounts, or_assoc,
      or_assoc]
    simp only [List.mem_cons, or_and_right, exists_or, exists_eq_left, or_assoc]

theorem mem_keys_compileMetas {q : Request} : k ∈ (compileMetas q).keys ↔ q.Mentions k := by
  rw [compileMetas, OrderedMap.mem_keys_insert, mem_keys_addInstructions,
    OrderedMap.mem_keys_insert, or_assoc, Request.Mentions]
  have hempty : k ∉ (OrderedMap.empty : Metas).keys := not_mem_nil
  simp only [hempty, false_or, or_self_left]

theorem flagsAt_addAccount {a : AccountMeta} :
    flagsAt (addAccount metas a) k =
      if k = a.pubkey then
        ((flagsAt metas k).1 || a.signer, (flagsAt metas k).2 || a.writable)
      else flagsAt metas k := by
  rw [flagsAt, addAccount, OrderedMap.get?_insert]
  split
  · next h => rw [h]; rfl
  · rfl

theorem flagsAt_addProgram {p : Pubkey} : flagsAt (addProgram metas p) k = flagsAt metas k := by
  rw [addProgram]
  split
  · rfl
  · next h =>
      rw [flagsAt, OrderedMap.get?_insert]
      split
      · next hk =>
          rw [hk, flagsAt, Option.not_isSome_iff_eq_none.mp h]
          rfl
      · rfl

/-! One of the two flags (`g`), and whether an account wants it (`w`). -/

section Flag

variable {g : Bool × Bool → Bool} {w : AccountMeta → Bool}
  (hg : ∀ (e : Bool × Bool) (a : AccountMeta),
    g (e.1 || a.signer, e.2 || a.writable) = (g e || w a))

include hg

theorem flag_addAccounts {as : List AccountMeta} :
    g (flagsAt (as.foldl addAccount metas) k) ↔
      g (flagsAt metas k) ∨ ∃ a ∈ as, a.pubkey = k ∧ w a = true := by
  induction as generalizing metas with
  | nil => simp only [foldl_nil, not_mem_nil, false_and, exists_false, or_false]
  | cons a as ih =>
    have hstep : g (flagsAt (addAccount metas a) k) = true ↔
        g (flagsAt metas k) = true ∨ a.pubkey = k ∧ w a = true := by
      rw [flagsAt_addAccount, apply_ite g, hg]
      by_cases h : k = a.pubkey
      · rw [if_pos h, Bool.or_eq_true, and_iff_right h.symm]
      · rw [if_neg h, or_iff_left fun h' => h h'.1.symm]
    rw [foldl_cons, ih, hstep, or_assoc]
    simp only [List.mem_cons, or_and_right, exists_or, exists_eq_left]

theorem flag_addInstructions {l : List Instruction} :
    g (flagsAt (l.foldl addInstruction metas) k) ↔
      g (flagsAt metas k) ∨
        ∃ ins ∈ l, ∃ a ∈ ins.accounts, a.pubkey = k ∧ w a = true := by
  induction l generalizing metas with
  | nil => simp only [foldl_nil, not_mem_nil, false_and, exists_false, or_false]
  | cons ins l ih =>
    rw [foldl_cons, ih, addInstruction, flagsAt_addProgram, flag_addAccounts hg, or_assoc]
    simp only [List.mem_cons, or_and_right, exists_or, exists_eq_left]

theorem flag_compileMetas {q : Request} (htrue : g (true, true))
    (hfalse : g (false, false) = false) :
    g (flagsAt (compileMetas q) k) ↔ k = q.feePayer ∨
      ∃ ins ∈ q.instructions, ∃ a ∈ ins.accounts, a.pubkey = k ∧ w a = true := by
  rw [compileMetas, flagsAt, OrderedMap.get?_insert]
  by_cases hk : k = q.feePayer
  · rw [if_pos hk, Option.getD_some, htrue]
    exact iff_of_true rfl (Or.inl hk)
  · have hnone : flagsAt (OrderedMap.empty.insert q.feePayer (true, true)) k = (false, false) := by
      rw [flagsAt, OrderedMap.get?_insert_of_ne _ _ hk]
      rfl
    rw [if_neg hk, ← flagsAt, flag_addInstructions hg, hnone, hfalse]
    exact or_congr_left (iff_of_false Bool.false_ne_true hk)

end Flag

theorem signer_compileMetas {q : Request} : (flagsAt (compileMetas q) k).1 ↔ q.Signer k :=
  flag_compileMetas (g := Prod.fst) (w := AccountMeta.signer) (fun _ _ => rfl) rfl rfl

theorem writable_compileMetas {q : Request} : (flagsAt (compileMetas q) k).2 ↔ q.Writable k :=
  flag_compileMetas (g := Prod.snd) (w := AccountMeta.writable) (fun _ _ => rfl) rfl rfl

end Flags

/-! ## The groups -/

section Groups

variable {q : Request} {k : Pubkey} {fl : Bool × Bool}

theorem mem_bucket :
    k ∈ bucket q fl ↔
      k ≠ q.feePayer ∧ q.Mentions k ∧ flagsAt (compileMetas q) k = fl := by
  rw [bucket, mem_mergeSort, mem_map]
  constructor
  · rintro ⟨⟨_, e⟩, he, rfl⟩
    rw [mem_filter, decide_eq_true_eq] at he
    have hget := OrderedMap.get?_eq_some.mpr he.1
    refine ⟨he.2.1, mem_keys_compileMetas.mp (OrderedMap.mem_keys.mpr ⟨e, he.1⟩), ?_⟩
    rw [flagsAt, hget]
    exact he.2.2
  · rintro ⟨hne, hk, hflags⟩
    obtain ⟨e, he⟩ := OrderedMap.mem_keys.mp (mem_keys_compileMetas.mpr hk)
    rw [flagsAt, OrderedMap.get?_eq_some.mpr he] at hflags
    exact ⟨(k, e), mem_filter.mpr ⟨he, decide_eq_true ⟨hne, hflags⟩⟩, rfl⟩

theorem nodup_bucket : (bucket q fl).Nodup := by
  rw [bucket]
  apply (mergeSort_perm _ _).nodup_iff.mpr
  exact (compileMetas q).nodup.sublist (filter_sublist.map Prod.fst)

theorem pairwise_bucket : (bucket q fl).Pairwise fun k k' => k.1 < k'.1 := by
  have hle : (bucket q fl).Pairwise fun k k' => k.1 ≤ k'.1 := by
    refine (pairwise_mergeSort ?_ ?_ _).imp of_decide_eq_true
    · intro a b c hab hbc
      exact decide_eq_true (List.le_trans (of_decide_eq_true hab) (of_decide_eq_true hbc))
    · intro a b
      rw [Bool.or_eq_true, decide_eq_true_eq, decide_eq_true_eq]
      exact List.le_total a.1 b.1
  refine (hle.and nodup_bucket).imp ?_
  rintro a b ⟨hab, hne⟩
  exact List.not_le.mp fun hba => hne (Subtype.ext (List.le_antisymm hab hba))

theorem mem_compileKeys : k ∈ compileKeys q ↔ q.Mentions k := by
  rw [compileKeys, List.mem_cons]
  simp only [mem_append, writableSigners, readonlySigners, writableOthers, readonlyOthers,
    mem_bucket]
  constructor
  · rintro (rfl | ((⟨-, h, -⟩ | ⟨-, h, -⟩) | ⟨-, h, -⟩) | ⟨-, h, -⟩)
    · exact Or.inl rfl
    all_goals exact h
  · intro h
    by_cases hk : k = q.feePayer
    · exact Or.inl hk
    · rcases hflags : flagsAt (compileMetas q) k with ⟨_ | _, _ | _⟩
      · exact Or.inr (Or.inr ⟨hk, h, rfl⟩)
      · exact Or.inr (Or.inl (Or.inr ⟨hk, h, rfl⟩))
      · exact Or.inr (Or.inl (Or.inl (Or.inr ⟨hk, h, rfl⟩)))
      · exact Or.inr (Or.inl (Or.inl (Or.inl ⟨hk, h, rfl⟩)))

/-- The flags of a key of the message. -/
def Request.flags (q : Request) (k : Pubkey) : Bool × Bool := flagsAt (compileMetas q) k

/-- The place of the group with these flags. -/
def rank : Bool × Bool → Nat
  | (true, true) => 0
  | (true, false) => 1
  | (false, true) => 2
  | (false, false) => 3

theorem pairwise_compileKeys :
    (compileKeys q).tail.Pairwise fun k k' =>
      rank (q.flags k) < rank (q.flags k') ∨ q.flags k = q.flags k' ∧ k.1 < k'.1 := by
  have hsame (fl : Bool × Bool) : (bucket q fl).Pairwise fun k k' =>
      rank (q.flags k) < rank (q.flags k') ∨ q.flags k = q.flags k' ∧ k.1 < k'.1 := by
    refine pairwise_bucket.imp_of_mem fun hk hk' hlt => Or.inr ⟨?_, hlt⟩
    exact (mem_bucket.mp hk).2.2.trans (mem_bucket.mp hk').2.2.symm
  have hcross {fl fl' : Bool × Bool} (h : rank fl < rank fl') :
      ∀ k ∈ bucket q fl, ∀ k' ∈ bucket q fl',
        rank (q.flags k) < rank (q.flags k') ∨ q.flags k = q.flags k' ∧ k.1 < k'.1 := by
    intro k hk k' hk'
    rw [Request.flags, Request.flags, (mem_bucket.mp hk).2.2, (mem_bucket.mp hk').2.2]
    exact Or.inl h
  rw [compileKeys, tail_cons]
  simp only [pairwise_append, mem_append, writableSigners, readonlySigners, writableOthers,
    readonlyOthers]
  refine ⟨⟨⟨hsame _, hsame _, hcross (by decide)⟩, hsame _, ?_⟩, hsame _, ?_⟩
  · rintro k (hk | hk)
    · exact hcross (by decide) k hk
    · exact hcross (by decide) k hk
  · rintro k ((hk | hk) | hk)
    · exact hcross (by decide) k hk
    · exact hcross (by decide) k hk
    · exact hcross (by decide) k hk

theorem nodup_compileKeys : (compileKeys q).Nodup := by
  refine nodup_cons.mpr ⟨?_, ?_⟩
  · simp only [mem_append, writableSigners, readonlySigners, writableOthers, readonlyOthers,
      mem_bucket, ne_eq, not_true_eq_false, false_and, or_self, not_false_eq_true]
  · refine (pairwise_compileKeys (q := q)).imp ?_
    rintro k k' (h | ⟨-, h⟩) rfl
    · exact lt_irrefl _ h
    · exact List.lt_irrefl _ h

theorem lt_length_iff {α : Type} {P : α → Prop} {l l' : List α} {i : Nat} {a : α}
    (h : (l ++ l')[i]? = some a) (hl : ∀ b ∈ l, P b) (hl' : ∀ b ∈ l', ¬P b) :
    i < l.length ↔ P a := by
  rw [getElem?_append] at h
  split at h
  · next hlt => exact iff_of_true hlt (hl a (mem_of_getElem? h))
  · next hlt => exact iff_of_false hlt (hl' a (mem_of_getElem? h))

theorem signer_of_mem (h : k ∈ bucket q fl) : q.Signer k ↔ fl.1 = true := by
  rw [← signer_compileMetas, (mem_bucket.mp h).2.2]

theorem writable_of_mem (h : k ∈ bucket q fl) : q.Writable k ↔ fl.2 = true := by
  rw [← writable_compileMetas, (mem_bucket.mp h).2.2]

theorem compileKeys_eq : compileKeys q =
    (q.feePayer :: writableSigners q ++ readonlySigners q) ++
      (writableOthers q ++ readonlyOthers q) := by
  rw [compileKeys, cons_append, cons_append, append_assoc]

theorem length_signers :
    (q.feePayer :: writableSigners q ++ readonlySigners q).length = numRequired q := by
  rw [length_append, length_cons, numRequired]
  omega

theorem signer_place {i : Nat} (h : (compileKeys q)[i]? = some k) :
    i < numRequired q ↔ q.Signer k := by
  rw [compileKeys_eq] at h
  rw [← length_signers]
  refine lt_length_iff h (fun k hk => ?_) fun k hk => ?_
  · obtain (rfl | hk) | hk := (mem_append.mp hk).imp_left List.mem_cons.mp
    · exact Or.inl rfl
    · exact (signer_of_mem hk).mpr rfl
    · exact (signer_of_mem hk).mpr rfl
  · obtain hk | hk := mem_append.mp hk
    · exact mt (signer_of_mem hk).mp Bool.false_ne_true
    · exact mt (signer_of_mem hk).mp Bool.false_ne_true

theorem writable_place {i : Nat} (h : (compileKeys q)[i]? = some k) :
    (if i < numRequired q then i < numRequired q - (readonlySigners q).length
      else i < (compileKeys q).length - (readonlyOthers q).length) ↔ q.Writable k := by
  have hlen : (compileKeys q).length =
      numRequired q + (writableOthers q).length + (readonlyOthers q).length := by
    rw [compileKeys_eq, length_append, length_signers, length_append, Nat.add_assoc]
  rw [compileKeys_eq, getElem?_append, length_signers] at h
  split at h
  · next hi =>
      have hfront : numRequired q - (readonlySigners q).length =
          (q.feePayer :: writableSigners q).length := by
        rw [numRequired, length_cons]
        omega
      rw [if_pos hi, hfront]
      refine lt_length_iff h (fun k hk ↦ ?_) fun k hk ↦ mt (writable_of_mem hk).mp Bool.false_ne_true
      obtain rfl | hk := List.mem_cons.mp hk
      · exact Or.inl rfl
      · exact (writable_of_mem hk).mpr rfl
  · next hi =>
      rw [if_neg hi, ← lt_length_iff h (fun k hk => (writable_of_mem hk).mpr rfl)
        fun k hk => mt (writable_of_mem hk).mp Bool.false_ne_true]
      omega

end Groups

end Synsema.Solana
