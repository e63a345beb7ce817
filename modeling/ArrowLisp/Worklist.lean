/-!
The weight of a work list. A walk that keeps what is still to be done in a list ends because each
of its steps puts lighter work in the place of the work that it takes up.
-/

namespace ArrowLisp

variable {α : Type}

/-- The weight of all the work in a list. -/
def totalWeight (weight : α → Nat) : List α → Nat
  | [] => 0
  | a :: work => weight a + totalWeight weight work

@[simp]
theorem totalWeight_nil (weight : α → Nat) : totalWeight weight [] = 0 := rfl

@[simp]
theorem totalWeight_cons (weight : α → Nat) (a : α) (work : List α) :
    totalWeight weight (a :: work) = weight a + totalWeight weight work := rfl

@[simp]
theorem totalWeight_append (weight : α → Nat) (work rest : List α) :
    totalWeight weight (work ++ rest) = totalWeight weight work + totalWeight weight rest := by
  induction work with
  | nil => simp
  | cons a work ih => rw [List.cons_append, totalWeight_cons, totalWeight_cons, ih, Nat.add_assoc]

/-- Work of which no piece weighs more than `bound` weighs at most `bound` times its length. -/
theorem totalWeight_le {weight : α → Nat} {bound : Nat} {work : List α}
    (h : ∀ a ∈ work, weight a ≤ bound) : totalWeight weight work ≤ work.length * bound := by
  induction work with
  | nil => simp
  | cons a work ih =>
      have hHead := h a (by simp)
      have hTail := ih fun b hb => h b (by simp [hb])
      rw [totalWeight_cons, List.length_cons, Nat.succ_mul]
      omega

end ArrowLisp
