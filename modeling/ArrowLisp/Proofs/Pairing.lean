import Mathlib.Logic.Relator

/-!
Identities of two runs. Those that have been given are paired one to one, and from then on the runs
give identities in the same order.
-/

namespace ArrowLisp

theorem biUnique_eq {α : Type} : Relator.BiUnique (Eq : α → α → Prop) :=
  ⟨fun _ _ _ h h' => h.trans h'.symm, fun _ _ _ h h' => h.symm.trans h'⟩

/-- Identities below `n`, paired one to one with identities below `m`. -/
structure Pairing (n m : Nat) where
  Pairs : Nat → Nat → Prop
  unique : Relator.BiUnique Pairs
  lt : ∀ k l, Pairs k l → k < n ∧ l < m

namespace Pairing

variable {n m : Nat}

/-- No identity is in use. -/
def nothing : Pairing n m := ⟨fun _ _ => False, ⟨nofun, nofun⟩, nofun⟩

/-- The identities that are in use are kept. -/
def kept (h : n ≤ m) : Pairing n m where
  Pairs k l := k = l ∧ k < n
  unique := by
    constructor
    · rintro k k' l ⟨rfl, -⟩ ⟨rfl, -⟩
      rfl
    · rintro k l l' ⟨rfl, -⟩ ⟨rfl, -⟩
      rfl
  lt := by
    rintro k _ ⟨rfl, hk⟩
    exact ⟨hk, Nat.lt_of_lt_of_le hk h⟩

/-- The same pairs, seen from the other side. -/
def symm (P : Pairing n m) : Pairing m n where
  Pairs k l := P.Pairs l k
  unique := ⟨fun _ _ _ h h' => P.unique.2 h h', fun _ _ _ h h' => P.unique.1 h h'⟩
  lt k l h := (P.lt l k h).symm

/-- Pairs of identities, and pairs of those that are given from now on. -/
def Extended (P : Pairing n m) (k l : Nat) : Prop := P.Pairs k l ∨ ∃ r, k = n + r ∧ l = m + r

theorem extended_add (P : Pairing n m) (k : Nat) : P.Extended (n + k) (m + k) :=
  .inr ⟨k, rfl, rfl⟩

theorem biUnique_extended (P : Pairing n m) : Relator.BiUnique P.Extended := by
  constructor
  · rintro k k' l (hOld | ⟨r, rfl, rfl⟩) (hOld' | ⟨r', rfl, hNew'⟩)
    · exact P.unique.1 hOld hOld'
    · have hLt := P.lt k l hOld
      omega
    · have hLt := P.lt k' _ hOld'
      omega
    · omega
  · rintro k l l' (hOld | ⟨r, rfl, rfl⟩) (hOld' | ⟨r', hNew', rfl⟩)
    · exact P.unique.2 hOld hOld'
    · have hLt := P.lt k l hOld
      omega
    · have hLt := P.lt _ l' hOld'
      omega
    · omega

end Pairing

end ArrowLisp
