import ArrowLisp.Proofs.Environments
import Mathlib.Data.Finset.Card
import Mathlib.Data.List.Induction

/-!
The history of an environment. However it has been made, an environment answers like one list of all
bindings in the order in which they were made: the most recent binding of a name counts, and it does
not matter how the bindings are spread over frames. What else is made out of the same environments
leaves no trace in it.
-/

namespace ArrowLisp

variable {α : Type}

section Lists

variable {bindings : List (Name × α)} {x : Name}

/-- Looked up from its end, a list gives the last binding of a name. -/
theorem lookup_reverse_eq_some_iff {v : α} :
    bindings.reverse.lookup x = some v ↔ ∃ earlier later,
      bindings = earlier ++ (x, v) :: later ∧ x ∉ later.map Prod.fst := by
  rw [List.lookup_eq_some_iff]
  constructor
  · rintro ⟨later, earlier, hSplit, hLater⟩
    refine ⟨earlier.reverse, later.reverse, by simpa using congrArg List.reverse hSplit, ?_⟩
    intro hMem
    obtain ⟨b, hb, rfl⟩ := List.mem_map.1 hMem
    simpa using hLater b (List.mem_reverse.1 hb)
  · rintro ⟨earlier, later, rfl, hLater⟩
    refine ⟨later.reverse, earlier.reverse, by simp, fun b hb => ?_⟩
    rw [bne_iff_ne]
    rintro rfl
    exact hLater (List.mem_map_of_mem (List.mem_reverse.1 hb))

theorem lookup_reverse_eq_none_iff :
    bindings.reverse.lookup x = none ↔ x ∉ bindings.map Prod.fst := by
  simp only [List.lookup_eq_none_iff, List.mem_reverse, bne_iff_ne, List.mem_map, not_exists,
    not_and]
  exact forall₂_congr fun _ _ => ne_comm

end Lists

namespace Frame

variable {bindings : List (Name × α)}

theorem nodup_names_insert {f : Frame α} (h : (f.bindings.map Prod.fst).Nodup) (name : Name)
    (value : α) : ((f.insert name value).bindings.map Prod.fst).Nodup := by
  rw [insert, List.map_cons, List.nodup_cons]
  constructor
  · simp
  · exact h.sublist (List.filter_sublist.map Prod.fst)

/-- No name is bound twice in a frame. -/
theorem nodup_names_ofList (bindings : List (Name × α)) :
    ((ofList bindings).bindings.map Prod.fst).Nodup := by
  rw [ofList]
  induction bindings using List.reverseRecOn with
  | nil => exact List.nodup_nil
  | append_singleton bs b ih =>
      rw [List.foldl_concat]
      exact nodup_names_insert ih b.1 b.2

theorem mem_names_ofList {x : Name} :
    x ∈ (ofList bindings).bindings.map Prod.fst ↔ x ∈ bindings.map Prod.fst := by
  rw [← isSome_find?_ofList bindings x, find?, List.lookup_isSome_iff]
  simp

/-- A frame is as large as there are distinct names. -/
theorem size_ofList (bindings : List (Name × α)) :
    (ofList bindings).size = (bindings.map Prod.fst).toFinset.card := by
  rw [← List.toFinset.ext_iff.2 fun _ => mem_names_ofList,
    List.toFinset_card_of_nodup (nodup_names_ofList bindings), List.length_map, size]

end Frame

namespace Environment

/-- The ways in which an environment is made out of another one. -/
inductive Extension (α : Type) where
  | bind (name : Name) (value : α)
  | frame (bindings : List (Name × α))
  | extend (names : List Name) (values : List α)

namespace Extension

/-- What is made out of an environment. -/
def apply (e : Environment α) : Extension α → Except EvalError (Environment α)
  | .bind name value => .ok (e.bind name value)
  | .frame bindings => .ok (e.withFrame bindings)
  | .extend names values => e.extend names values

/-- The bindings that are made, the most recent one last. -/
def bindings : Extension α → List (Name × α)
  | .bind name value => [(name, value)]
  | .frame bindings => bindings
  | .extend names values => names.zip values

/-- The distinct names that are bound. -/
def names (c : Extension α) : Finset Name := (c.bindings.map Prod.fst).toFinset

/-- In all of the ways one frame is made, with the same bindings. -/
theorem eq_of_apply {c : Extension α} {e e' : Environment α} (h : c.apply e = .ok e') :
    e' = e.withFrame c.bindings := by
  cases c with
  | bind name value | frame bindings =>
      cases h
      rfl
  | extend names values => exact (extend_eq_ok_iff.1 h).2

end Extension

/-- What calls make out of the empty environment, each out of what the one before it has made. -/
inductive Made : List (Extension α) → Environment α → Prop where
  | empty : Made [] empty
  | call {history : List (Extension α)} {e e' : Environment α} {c : Extension α}
      (hMade : Made history e) (hApply : c.apply e = .ok e') : Made (history ++ [c]) e'

/-- All that is asked about an environment is told by its history, as one list of bindings. -/
structure Recalls (e : Environment α) (history : List (Extension α)) : Prop where
  /-- A name has the value of its most recent binding. -/
  lookup_eq_some_iff : ∀ x v, e.lookup x = some v ↔ ∃ earlier later,
    history.flatMap Extension.bindings = earlier ++ (x, v) :: later ∧ x ∉ later.map Prod.fst
  lookup_eq_none_iff : ∀ x,
    e.lookup x = none ↔ x ∉ (history.flatMap Extension.bindings).map Prod.fst
  depth_eq : e.depth = history.length
  innermostSize_eq : e.innermostSize = (history.getLast?.map fun c => c.names.card).getD 0

namespace Made

variable {history : List (Extension α)} {e : Environment α}

theorem lookup_eq (h : Made history e) (x : Name) :
    e.lookup x = (history.flatMap Extension.bindings).reverse.lookup x := by
  induction h with
  | empty => rfl
  | call _ hApply ih =>
      rw [Extension.eq_of_apply hApply, lookup_withFrame, Frame.find?_ofList, ih,
        List.flatMap_append, List.flatMap_singleton, List.reverse_append, List.lookup_append]

theorem depth_eq (h : Made history e) : e.depth = history.length := by
  induction h with
  | empty => rfl
  | call _ hApply ih =>
      rw [Extension.eq_of_apply hApply, List.length_append, List.length_singleton, ← ih]
      rfl

theorem innermostSize_eq (h : Made history e) :
    e.innermostSize = (history.getLast?.map fun c => c.names.card).getD 0 := by
  cases h with
  | empty => rfl
  | @call _ _ _ c _ hApply =>
      rw [Extension.eq_of_apply hApply, List.getLast?_concat]
      exact Frame.size_ofList c.bindings

theorem recalls (h : Made history e) : e.Recalls history where
  lookup_eq_some_iff x v := by rw [h.lookup_eq, lookup_reverse_eq_some_iff]
  lookup_eq_none_iff x := by rw [h.lookup_eq, lookup_reverse_eq_none_iff]
  depth_eq := h.depth_eq
  innermostSize_eq := h.innermostSize_eq

end Made

/-- Environments that have been made out of each other, each with the calls that led to it. -/
abbrev Family (α : Type) := List (List (Extension α) × Environment α)

namespace Family

/-- A call that extends one of the environments. What it makes is one more, unless it fails. -/
def extend (family : Family α) (call : Nat × Extension α) : Family α :=
  match family[call.1]? with
  | none => family
  | some (history, e) =>
    match call.2.apply e with
    | .ok e' => family ++ [(history ++ [call.2], e')]
    | .error _ => family

/-- The environments that calls make, beginning with the empty one, each call out of any environment
that is there. -/
def grow (calls : List (Nat × Extension α)) : Family α := calls.foldl extend [([], empty)]

variable {family : Family α}

/-- A call changes no environment. -/
theorem prefix_extend (family : Family α) (call : Nat × Extension α) :
    family <+: family.extend call := by
  rw [extend]
  split
  · exact List.prefix_rfl
  · split
    · exact List.prefix_append family _
    · exact List.prefix_rfl

theorem made_extend (h : ∀ m ∈ family, Made m.1 m.2) (call : Nat × Extension α) :
    ∀ m ∈ family.extend call, Made m.1 m.2 := by
  rw [extend]
  split
  · exact h
  · next history e hPlace =>
      split
      · next e' hApply =>
          refine List.forall_mem_append.2 ⟨h, List.forall_mem_singleton.2 ?_⟩
          exact .call (h _ (List.mem_of_getElem? hPlace)) hApply
      · exact h

theorem prefix_grow_append (calls more : List (Nat × Extension α)) :
    grow calls <+: grow (calls ++ more) := by
  induction more using List.reverseRecOn with
  | nil => rw [List.append_nil]
  | append_singleton more call ih =>
      rw [← List.append_assoc, grow, grow, List.foldl_concat]
      exact ih.trans (prefix_extend _ call)

theorem made_grow (calls : List (Nat × Extension α)) : ∀ m ∈ grow calls, Made m.1 m.2 := by
  induction calls using List.reverseRecOn with
  | nil => exact List.forall_mem_singleton.2 .empty
  | append_singleton calls call ih =>
      rw [grow, List.foldl_concat]
      exact made_extend ih call

end Family

/-- An environment answers by its history alone, whatever its frames are and whatever else has been
made, before or later, out of the environments that it was made of. Only `extend` can fail, for
lists of two lengths. -/
theorem recalls_history :
    (∀ (history : List (Extension α)) (e : Environment α), Made history e → e.Recalls history) ∧
    (∀ (e : Environment α) names values err, e.extend names values = .error err ↔
      names.length ≠ values.length ∧ err = .arityMismatch names.length values.length) ∧
    ∀ calls more : List (Nat × Extension α),
      Family.grow calls <+: Family.grow (calls ++ more) ∧
        ∀ m ∈ Family.grow calls, m.2.Recalls m.1 := by
  refine ⟨fun _ _ hMade => hMade.recalls, fun e names values err => ?_, fun calls more =>
    ⟨Family.prefix_grow_append calls more, fun m hm => (Family.made_grow calls m hm).recalls⟩⟩
  rw [extend]
  split <;> simp_all [eq_comm]

end Environment

end ArrowLisp
