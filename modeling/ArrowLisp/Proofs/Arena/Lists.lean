import ArrowLisp.Proofs.Arena.Planting

/-!
The lists that the nodes of an arena share. Each call takes the next stretch of the argument list
and each lambda the next one of the parameter list, in the order of their numbers, so that the
stretches do not overlap and nothing of the lists lies between them.
-/

namespace ArrowLisp

namespace Span

variable {s t : Span} {spans rest : List Span} {start middle stop k : Nat}

/-- An entry of a list lies in a stretch of it. -/
def Covers (s : Span) (k : Nat) : Prop := s.start ≤ k ∧ k < s.start + s.length

theorem length_of_slice? {α : Type} {xs : Array α} {l : List α} (h : s.slice? xs = some l) :
    l.length = s.length := by
  unfold slice? at h
  split at h
  · cases h
    simp
    omega
  · cases h

/-- The stretches of a list of `size` entries to which every entry belongs, and each entry to one
stretch only. -/
structure Partition (spans : List Span) (size : Nat) : Prop where
  within : ∀ s ∈ spans, s.start + s.length ≤ size
  disjoint : spans.Pairwise fun s t => ∀ k, ¬(s.Covers k ∧ t.Covers k)
  covers : ∀ k < size, ∃ s ∈ spans, s.Covers k

/-- Stretches follow each other from `start` to `stop` without a gap. -/
def Consecutive (start : Nat) : List Span → Nat → Prop
  | [], stop => start = stop
  | s :: rest, stop => s.start = start ∧ Consecutive (start + s.length) rest stop

namespace Consecutive

theorem append (h : Consecutive start spans middle) (h' : Consecutive middle rest stop) :
    Consecutive start (spans ++ rest) stop := by
  induction spans generalizing start with
  | nil => obtain rfl : start = middle := h; exact h'
  | cons s spans ih => exact ⟨h.1, ih h.2⟩

theorem start_le (h : Consecutive start spans stop) : start ≤ stop := by
  induction spans generalizing start with
  | nil => exact Nat.le_of_eq h
  | cons s spans ih => have := ih h.2; omega

theorem bounds (h : Consecutive start spans stop) :
    ∀ s ∈ spans, start ≤ s.start ∧ s.start + s.length ≤ stop := by
  induction spans generalizing start with
  | nil => simp
  | cons s spans ih =>
      obtain ⟨hStart, hRest⟩ := h
      have hStop := start_le hRest
      refine List.forall_mem_cons.2 ⟨by omega, fun t ht => ?_⟩
      have hBounds := ih hRest t ht
      omega

/-- A stretch ends before the next one begins. -/
theorem ordered (h : Consecutive start spans stop) :
    spans.Pairwise fun s t => s.start + s.length ≤ t.start := by
  induction spans generalizing start with
  | nil => exact .nil
  | cons s spans ih =>
      refine .cons (fun t ht => ?_) (ih h.2)
      have hBounds := bounds h.2 t ht
      rw [h.1]
      exact hBounds.1

theorem exists_covers (h : Consecutive start spans stop) (hStart : start ≤ k) (hStop : k < stop) :
    ∃ s ∈ spans, s.Covers k := by
  induction spans generalizing start with
  | nil => obtain rfl : start = stop := h; omega
  | cons s spans ih =>
      by_cases hHere : k < start + s.length
      · exact ⟨s, List.mem_cons_self, h.1 ▸ hStart, h.1 ▸ hHere⟩
      · obtain ⟨t, ht, hCovers⟩ := ih h.2 (Nat.le_of_not_lt hHere)
        exact ⟨t, List.mem_cons_of_mem s ht, hCovers⟩

theorem partition (h : Consecutive 0 spans stop) : Partition spans stop where
  within s hs := (h.bounds s hs).2
  disjoint := h.ordered.imp fun hOrder k hBoth => by
    have := hBoth.1.2
    have := hBoth.2.1
    omega
  covers k hk := h.exists_covers (Nat.zero_le k) hk

/-- What the stretches hold is the list from the start of the first to the end of the last. -/
theorem flatMap_slice? {α : Type} {xs : Array α} (h : Consecutive start spans stop)
    (hStop : stop ≤ xs.size) :
    (spans.flatMap fun s => (s.slice? xs).getD []) = (xs.extract start stop).toList := by
  induction spans generalizing start with
  | nil => obtain rfl : start = stop := h; simp
  | cons s spans ih =>
      have hRest := start_le h.2
      have hSlice : s.slice? xs = some (xs.extract start (start + s.length)).toList := by
        rw [slice?, h.1, if_pos (Nat.le_trans hRest hStop)]
      rw [List.flatMap_cons, hSlice, ih h.2, Option.getD_some, ← Array.toList_append,
        Array.extract_append_extract, Nat.min_eq_left (Nat.le_add_right _ _),
        Nat.max_eq_right hRest]

end Consecutive

end Span

/-- The stretch of the argument list that a node has. -/
def Node.argSpan? : Node → Option Span
  | .apply _ span => some span
  | .number _ | .string _ | .bool _ | .identifier _ | .conditional _ _ _ | .lambda _ _ => none

/-- The stretch of the parameter list that a node has. -/
def Node.paramSpan? : Node → Option Span
  | .lambda span _ => some span
  | .number _ | .string _ | .bool _ | .identifier _ | .conditional _ _ _ | .apply _ _ => none

namespace Arena

variable {a : Arena} {n : Node}

/-- The stretches that the nodes have of one of the lists, in the order of the nodes. -/
def spans (a : Arena) (own? : Node → Option Span) : List Span := a.nodes.toList.filterMap own?

theorem spans_alloc (a : Arena) (n : Node) (own? : Node → Option Span) :
    (a.alloc n).2.spans own? = a.spans own? ++ (own? n).toList := by
  have hLast : [n].filterMap own? = (own? n).toList := by cases h : own? n <;> simp [h]
  rw [← hLast]
  simp [spans, alloc]

/-- The stretches of calls follow each other through the argument list, and those of lambdas through
the parameter list. -/
structure Tidy (a : Arena) : Prop where
  args : Span.Consecutive 0 (a.spans Node.argSpan?) a.args.size
  params : Span.Consecutive 0 (a.spans Node.paramSpan?) a.params.size

namespace Tidy

theorem empty : Arena.empty.Tidy := ⟨rfl, rfl⟩

/-- A node without a list. -/
theorem alloc (h : a.Tidy) (hArgs : n.argSpan? = none) (hParams : n.paramSpan? = none) :
    (a.alloc n).2.Tidy := by
  refine ⟨?_, ?_⟩
  · rw [spans_alloc, hArgs]
    exact h.args.append rfl
  · rw [spans_alloc, hParams]
    exact h.params.append rfl

theorem lambda (h : a.Tidy) (params : List Name) (body : NodeId) :
    let (span, b) := a.allocParams params
    (b.alloc (.lambda span body)).2.Tidy := by
  refine ⟨?_, ?_⟩
  · rw [spans_alloc]
    exact h.args.append rfl
  · rw [spans_alloc]
    exact h.params.append ⟨rfl, (Array.size_append).symm⟩

theorem apply (h : a.Tidy) (callee : NodeId) (args : List NodeId) :
    let (span, b) := a.allocArgs args
    (b.alloc (.apply callee span)).2.Tidy := by
  refine ⟨?_, ?_⟩
  · rw [spans_alloc]
    exact h.args.append ⟨rfl, (Array.size_append).symm⟩
  · rw [spans_alloc]
    exact h.params.append rfl

theorem plantAll {es : List (Expr Name)}
    (hPlant : ∀ e ∈ es, ∀ a : Arena, a.Tidy → (a.plant e).2.Tidy) (h : a.Tidy) :
    (a.plantAll es).2.Tidy := by
  induction es generalizing a with
  | nil => exact h
  | cons e es ih =>
      obtain ⟨hHead, hTail⟩ := List.forall_mem_cons.1 hPlant
      exact ih hTail (hHead a h)

/-- Storing an expression keeps the lists in order. -/
theorem plant (e : Expr Name) : ∀ a : Arena, a.Tidy → (a.plant e).2.Tidy := by
  induction e with
  | number | string | bool | identifier => exact fun a h => h.alloc rfl rfl
  | conditional condition consequent alternative ihC ihT ihE =>
      exact fun a h => (ihE _ (ihT _ (ihC a h))).alloc rfl rfl
  | lambda params body ih => exact fun a h => (ih a h).lambda params _
  | apply callee args ihCallee ihArgs =>
      exact fun a h => (plantAll ihArgs (ihCallee a h)).apply _ _

/-- The argument list is made of the arguments of the calls, one call after the other. -/
theorem args_eq (h : a.Tidy) :
    a.args.toList = (a.spans Node.argSpan?).flatMap fun s => (a.args? s).getD [] := by
  have hAll := h.args.flatMap_slice? (Nat.le_refl _)
  rw [Array.extract_size] at hAll
  exact hAll.symm

/-- The parameter list is made of the parameters of the lambdas, one lambda after the other. -/
theorem params_eq (h : a.Tidy) :
    a.params.toList = (a.spans Node.paramSpan?).flatMap fun s => (a.params? s).getD [] := by
  have hAll := h.params.flatMap_slice? (Nat.le_refl _)
  rw [Array.extract_size] at hAll
  exact hAll.symm

/-- The parameters of a lambda stand before those of any lambda with a greater number. -/
theorem params_before (h : a.Tidy) {inner outer body body' : NodeId} {s t : Span}
    (hInner : a.node? inner = some (.lambda s body))
    (hOuter : a.node? outer = some (.lambda t body')) (hLt : inner.index < outer.index) :
    s.start + s.length ≤ t.start := by
  have hOrdered := List.pairwise_filterMap.1 h.params.ordered
  obtain ⟨hi, hInner⟩ := Array.getElem?_eq_some_iff.1 hInner
  obtain ⟨hj, hOuter⟩ := Array.getElem?_eq_some_iff.1 hOuter
  have hPair := List.pairwise_iff_getElem.1 hOrdered _ _ hi hj hLt
  simp only [Array.getElem_toList, hInner, hOuter] at hPair
  exact hPair s rfl t rfl

end Tidy

end Arena

end ArrowLisp
