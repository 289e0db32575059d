import Synsema.Captoken.Bounds
import Synsema.Captoken.Verify

/-!
# The canonical form

A token is read back in its canonical form.  That form is its own canonical form, it is
signed as the form it stands for, and a block that narrows another still does in it.
-/

namespace Synsema.Captoken

open Text Bytesutil List

/-! ## Sorting by key -/

section Sorting

variable {α : Type}

instance : Std.Total fun a b : Text × α => a.1 ≤ b.1 := ⟨fun a b => le_total a.1 b.1⟩

instance : IsTrans (Text × α) fun a b => a.1 ≤ b.1 := ⟨fun _ _ _ => le_trans⟩

/-- The order of limits: by unit, then by amount. -/
abbrev LimitLe (a b : Text × Text) : Prop := a.1 < b.1 ∨ a.1 = b.1 ∧ a.2 ≤ b.2

theorem LimitLe.le {a b : Text × Text} (h : LimitLe a b) : a.1 ≤ b.1 := by
  rcases h with h | ⟨h, -⟩
  · exact h.le
  · exact h.le

instance : Std.Total LimitLe where
  total a b := by
    rcases lt_trichotomy a.1 b.1 with h | h | h
    · exact .inl (.inl h)
    · rcases le_total a.2 b.2 with h' | h'
      · exact .inl (.inr ⟨h, h'⟩)
      · exact .inr (.inr ⟨h.symm, h'⟩)
    · exact .inr (.inl h)

instance : IsTrans (Text × Text) LimitLe where
  trans a b c hab hbc := by
    rcases hab with hab | ⟨hab, hab'⟩
    · exact .inl (hab.trans_le hbc.le)
    · rcases hbc with hbc | ⟨hbc, hbc'⟩
      · exact .inl (hab ▸ hbc)
      · exact .inr ⟨hab.trans hbc, hab'.trans hbc'⟩

theorem sortSpend_eq (l : List (Text × Text)) : sortSpend l = l.insertionSort LimitLe := by
  apply List.Pairwise.insertionSort_eq
  exact (pairwise_insertionSort LimitLe l).imp LimitLe.le

theorem sortSpend_sortSpend (l : List (Text × Text)) : sortSpend (sortSpend l) = sortSpend l := by
  rw [sortSpend_eq, sortSpend_eq]
  exact (pairwise_insertionSort LimitLe l).insertionSort_eq

theorem sortSpend_perm (l : List (Text × Text)) : (sortSpend l).Perm l := by
  rw [sortSpend_eq]
  exact perm_insertionSort LimitLe l

end Sorting

/-! ## The form is stable -/

theorem Caps.canonical_canonical (caps : Caps) : caps.canonical.canonical = caps.canonical := by
  have hmap : caps.canonical.map (fun p => (p.1, p.2.insertionSort (· ≤ ·))) = caps.canonical := by
    refine (map_congr_left fun p hp => ?_).trans (map_id _)
    rw [Caps.canonical, mem_insertionSort, mem_map] at hp
    obtain ⟨⟨name, scopes⟩, -, rfl⟩ := hp
    simp [(pairwise_insertionSort (· ≤ ·) scopes).insertionSort_eq]
  conv_lhs => rw [Caps.canonical]
  refine (congrArg _ hmap).trans ?_
  exact (pairwise_insertionSort _ _).insertionSort_eq

theorem Caveats.canonical_canonical (c : Caveats) : c.canonical.canonical = c.canonical := by
  simp only [Caveats.canonical, sortSpend_sortSpend, Option.map_map]
  congr 2
  funext e
  exact max_eq_left (le_max_right e 0)

theorem Block.canonical_canonical (b : Block) : b.canonical.canonical = b.canonical := by
  rw [Block.canonical, Block.canonical, Caps.canonical_canonical, Caveats.canonical_canonical]

theorem map_canonical_canonical (bs : List Block) :
    (bs.map Block.canonical).map Block.canonical = bs.map Block.canonical := by
  rw [map_map]
  apply map_congr_left
  exact fun b _ => b.canonical_canonical

theorem Caveats.items_canonical (c : Caveats) : c.canonical.items = c.items.map fun
    | .exp e => .exp (max e 0)
    | .spend l => .spend (sortSpend l)
    | i => i := by
  obtain ⟨exp, aud, ip, method, spend, deterministic, llmTokens⟩ := c
  have hempty : (sortSpend spend).isEmpty = spend.isEmpty := by
    have hlen := (sortSpend_perm spend).length_eq
    cases spend <;> cases hsort : sortSpend _ <;> simp_all
  simp only [Caveats.items, Caveats.canonical, hempty]
  cases exp <;> cases aud <;> cases ip <;> cases method <;> cases spend <;> cases deterministic <;>
    cases llmTokens <;> rfl

/-! ## The form is signed as what it stands for -/

theorem capsToMp_canonical (caps : Caps) : capsToMp caps.canonical = capsToMp caps := by
  rw [capsToMp_eq, capsToMp_eq, Caps.canonical_canonical]

theorem caveatsToMp_canonical (c : Caveats) : caveatsToMp c.canonical = caveatsToMp c := by
  unfold caveatsToMp
  rw [Caveats.items_canonical, map_map]
  apply congrArg Mp.map
  apply map_congr_left
  intro i _
  cases i with
  | exp e => simp [Caveat.key, Caveat.name, Caveat.mp]
  | spend l => simp [Caveat.key, Caveat.name, spend_mp, sortSpend_sortSpend]
  | _ => rfl

theorem blockBytes_canonical (i : Nat) (b : Block) : blockBytes i b.canonical = blockBytes i b := by
  rw [blockBytes, Block.canonical, capsToMp_canonical, caveatsToMp_canonical, blockBytes]

theorem chainSignature_canonical (hmac : Bytes → Bytes → Bytes) (key : Bytes) (id : Text)
    (bs : List Block) :
    chainSignature hmac key id (bs.map Block.canonical) = chainSignature hmac key id bs := by
  unfold chainSignature
  rw [zipIdx_map, foldl_map]
  simp only [Prod.map_fst, Prod.map_snd, blockBytes_canonical, id_eq]

theorem chainSignature_concat (hmac : Bytes → Bytes → Bytes) (key : Bytes) (id : Text)
    (bs : List Block) (b : Block) : chainSignature hmac key id (bs ++ [b]) =
      hmac (chainSignature hmac key id bs) (blockBytes bs.length b) := by
  unfold chainSignature
  rw [zipIdx_append, foldl_append]
  simp

/-! ## The form has the size of what it stands for -/

theorem Block.fits_canonical {b : Block} : b.canonical.Fits ↔ b.Fits := by
  have hcaveats : (∀ i ∈ b.caveats.canonical.items, i.Fits) ↔ ∀ i ∈ b.caveats.items, i.Fits := by
    rw [Caveats.items_canonical, forall_mem_map]
    refine forall₂_congr fun i _ => ?_
    cases i with
    | exp e =>
      show max e 0 < 2 ^ 63 ↔ e < 2 ^ 63
      omega
    | spend l => simp [Caveat.Fits, (sortSpend_perm l).length_eq, (sortSpend_perm l).mem_iff]
    | _ => rfl
  exact and_congr capsFit_canonical hcaveats

end Synsema.Captoken
