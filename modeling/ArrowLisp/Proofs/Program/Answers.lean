import ArrowLisp.Proofs.Numbering
import ArrowLisp.Proofs.Observation
import ArrowLisp.Proofs.Pairing
import ArrowLisp.Proofs.Program.Storing
import ArrowLisp.Program.Failure
import ArrowLisp.Report

/-!
The numbering of names cannot be observed. What is seen of a tree that is read and evaluated is the
same under any two interners if the environments bind the same texts alike: the error of a tree that
is no program, or the canonical text and what the evaluation comes to.
-/

namespace ArrowLisp

theorem Outcome.Alike.observe_eq {ε : Type} {L : Likeness} {o o' : Outcome ε} (h : o.Alike L o') :
    o.observe = o'.observe := by
  cases h with
  | value hValue => cases hValue <;> rfl
  | _ => rfl

namespace Program

/-- What is seen of a program: its canonical text and the end of its evaluation. -/
structure Answer where
  text : Option String
  seen : Observation EvalError
deriving DecidableEq

/-- Show a program and evaluate it. -/
def answer (limit : Nat) (p : Program) (names : Interner) (env : Environment Value) (next : Nat) :
    Answer where
  text := p.display? names
  seen := (Machine.eval limit names p.arena p.root env next).1.observe

/-- Read a tree, then show and evaluate it in an environment that is there already. -/
def answerIn (limit : Nat) (s : Sexp) (names : Interner) (env : Environment Value) (next : Nat) :
    Except ParseError Answer :=
  (ofSexp s names).1.map fun p => p.answer limit (ofSexp s names).2 env next

/-- Read a tree, then show and evaluate it in the outermost environment, which is made only now. -/
def answerTop (limit : Nat) (s : Sexp) (names : Interner) (next : Nat) : Except ParseError Answer :=
  (ofSexp s names).1.map fun p =>
    p.answer limit (ofSexp s names).2.topEnvironment.2 (ofSexp s names).2.topEnvironment.1 next

variable {i j : Interner}

/-- What has been read from a tree spells the expression of the tree. -/
theorem spells_of_ofSexp {s : Sexp} {names names' : Interner} {p : Program} {t : Expr String}
    (h : ofSexp s names = (.ok p, names')) (hTree : Expr.ofSexp s = .ok t) :
    p.arena.Spells names' p.root t := by
  obtain ⟨e, hRoot, hSpells, hIssued⟩ := exists_tree?_of_ofSexp h
  exact ⟨e, hRoot, hIssued, Except.ok.inj (hSpells.symm.trans hTree)⟩

theorem display?_of_spells {p : Program} {t : Expr String} (h : p.arena.Spells i p.root t) :
    p.display? i = some t.text := by
  obtain ⟨e, hTree, -, rfl⟩ := h
  rw [display?, Arena.display?_eq_text, hTree, Option.map_some]

/-- Programs that spell the same expression get the same answer in corresponding environments. -/
theorem answer_eq {p q : Program} {t : Expr String} (hp : p.arena.Spells i p.root t)
    (hq : q.arena.Spells j q.root t) {n m : Nat} (P : Pairing n m) {env env' : Environment Value}
    (hEnv : env.Corresponds i j P.Pairs env') (limit : Nat) :
    p.answer limit i env n = q.answer limit j env' m := by
  have hEnv' : env.Corresponds i j P.Extended env' :=
    hEnv.of_extends (.refl i) (.refl j) fun _ _ => Or.inl
  have hOutcome := Machine.alike_eval (Likeness.stable_sameTexts P.biUnique_extended)
    (fun x y => Likeness.lookup_eq_of_sameTexts) ⟨t, hp, hq⟩ (hEnv'.alikeOn _)
    P.extended_add limit
  rw [answer, answer, display?_of_spells hp, display?_of_spells hq, hOutcome.observe_eq]

/-- A tree that spells an expression is read under all interners. -/
theorem exists_ofSexp {s : Sexp} {t : Expr String} (hTree : Expr.ofSexp s = .ok t) (k : Interner) :
    ∃ p, ofSexp s k = (.ok p, (ofSexp s k).2) := by
  have hVerdict := verdict_ofSexp s k
  rw [hTree] at hVerdict
  cases hResult : (ofSexp s k).1 with
  | error e => rw [hResult] at hVerdict; cases hVerdict
  | ok p => exact ⟨p, Prod.ext hResult rfl⟩

/-- A tree is refused with the same error under all interners; so it is enough to compare what is
made of programs that spell the same expression. -/
theorem map_ofSexp_eq {α : Type} {s : Sexp} {f g : Program → α}
    (h : ∀ p q t, i.Extends (ofSexp s i).2 → j.Extends (ofSexp s j).2 →
      p.arena.Spells (ofSexp s i).2 p.root t → q.arena.Spells (ofSexp s j).2 q.root t →
      f p = g q) : (ofSexp s i).1.map f = (ofSexp s j).1.map g := by
  cases hTree : Expr.ofSexp s with
  | error e =>
      have hError : ∀ k, (ofSexp s k).1 = .error e := by
        intro k
        have hVerdict := verdict_ofSexp s k
        rw [hTree] at hVerdict
        cases hResult : (ofSexp s k).1 <;> rw [hResult] at hVerdict <;> cases hVerdict
        rfl
      rw [hError i, hError j]
      rfl
  | ok t =>
      obtain ⟨p, hp⟩ := exists_ofSexp hTree i
      obtain ⟨q, hq⟩ := exists_ofSexp hTree j
      have hSame := h p q t (extends_of_ofSexp hp) (extends_of_ofSexp hq)
        (spells_of_ofSexp hp hTree) (spells_of_ofSexp hq hTree)
      rw [hp, hq]
      exact congrArg Except.ok hSame

/-- The numbering of names is unobservable. A tree gets the same answer under two interners and in
environments that bind the same texts to alike values. In the outermost environment it gets the same
answer whether the primitives are named after or before the tree is read, and whatever had names
already. In an environment whose bindings are all named it gets the same answer again after anything
more has been named. -/
theorem answer_independent_of_numbering (limit : Nat) (s : Sexp) :
    (∀ {i j : Interner} {n m : Nat} (P : Pairing n m) {env env' : Environment Value},
      env.Corresponds i j P.Pairs env' →
        answerIn limit s i env n = answerIn limit s j env' m) ∧
    (∀ (i j : Interner) (n m : Nat),
      answerTop limit s i n =
        answerIn limit s j.topEnvironment.2 j.topEnvironment.1 m) ∧
    ∀ {i j : Interner} {n m : Nat} {env : Environment Value},
      env.Corresponds i i (fun k l => k = l ∧ k < n) env → (ofSexp s i).2.Extends j → n ≤ m →
        answerIn limit s i env n = answerIn limit s j env m := by
  have hSame : ∀ {i j : Interner} {n m : Nat} (P : Pairing n m) {env env' : Environment Value},
      env.Corresponds i j P.Pairs env' →
        answerIn limit s i env n = answerIn limit s j env' m := by
    intro i j n m P env env' hEnv
    refine map_ofSexp_eq fun p q t hi hj hp hq => ?_
    exact answer_eq hp hq P (hEnv.of_extends hi hj fun _ _ h => h) limit
  refine ⟨hSame, fun i j n m => ?_, fun {i j n m env} hEnv hj hLe => ?_⟩
  · refine map_ofSexp_eq fun p q t _ hj hp hq => ?_
    have hTop := (ofSexp s i).2.extends_topEnvironment
    exact answer_eq (hp.of_extends hTop) hq .nothing (.topEnvironment (.refl _) hj) limit
  · refine map_ofSexp_eq fun p q t hi hj' hp hq => ?_
    have hLater := hEnv.of_extends hi ((hi.trans hj).trans hj') fun _ _ h => h
    exact answer_eq hp hq (.kept hLe) hLater limit

/-- The identity function under the name `f`, with names and identities of one numbering and of
another. It is called under both, and once more under the first after another text has got a
name. -/
theorem answer_independent_of_numbering_identity :
    ∃ (i j : Interner) (c d : Closure Value), i.find? "f" = some ⟨0⟩ ∧ j.find? "f" = some ⟨1⟩ ∧
      c.params ≠ d.params ∧ c.identity ≠ d.identity ∧
      answerIn 9 (.list [.symbol "f", .bool true]) i (.bind .empty ⟨0⟩ (.closure c)) 1 =
        answerIn 9 (.list [.symbol "f", .bool true]) j (.bind .empty ⟨1⟩ (.closure d)) 6 ∧
      answerIn 9 (.list [.symbol "f", .bool true]) i (.bind .empty ⟨0⟩ (.closure c)) 1 =
        answerIn 9 (.list [.symbol "f", .bool true])
          ((ofSexp (.list [.symbol "f", .bool true]) i).2.intern "y").2
          (.bind .empty ⟨0⟩ (.closure c)) 4 := by
  have hBody : Arena.Spells ⟨#[.identifier ⟨1⟩], #[], #[]⟩
      ((Interner.empty.intern "f").2.intern "x").2 ⟨0⟩ (.identifier "x") :=
    ⟨.identifier ⟨1⟩, rfl, List.forall_mem_singleton.2 ⟨"x", rfl⟩, rfl⟩
  have hBody' : Arena.Spells ⟨#[.identifier ⟨0⟩], #[], #[]⟩
      ((Interner.empty.intern "x").2.intern "f").2 ⟨0⟩ (.identifier "x") :=
    ⟨.identifier ⟨0⟩, rfl, List.forall_mem_singleton.2 ⟨"x", rfl⟩, rfl⟩
  have hKnown : Value.Hereditarily (Closure.Known ((Interner.empty.intern "f").2.intern "x").2 1)
      (.closure ⟨0, [⟨1⟩], ⟨0⟩, .empty, ⟨#[.identifier ⟨1⟩], #[], #[]⟩⟩) :=
    .closure ⟨by decide, List.forall_mem_singleton.2 ⟨"x", rfl⟩, _, hBody⟩ (by simp)
  refine ⟨((Interner.empty.intern "f").2.intern "x").2,
    ((Interner.empty.intern "x").2.intern "f").2,
    ⟨0, [⟨1⟩], ⟨0⟩, .empty, ⟨#[.identifier ⟨1⟩], #[], #[]⟩⟩,
    ⟨5, [⟨0⟩], ⟨0⟩, .empty, ⟨#[.identifier ⟨0⟩], #[], #[]⟩⟩, rfl, rfl, by decide, by decide,
    ?_, ?_⟩
  · let P : Pairing 1 6 :=
      ⟨fun k l => k = 0 ∧ l = 5, ⟨fun _ _ _ h h' => h.1.trans h'.1.symm,
        fun _ _ _ h h' => h.2.trans h'.2.symm⟩, by omega⟩
    refine (answer_independent_of_numbering 9 _).1 P
      (Environment.Corresponds.empty.bind (t := "f") rfl rfl ?_)
    exact .of_env ⟨rfl, rfl⟩ (.cons ⟨"x", rfl, rfl⟩ .nil) ⟨_, hBody, hBody'⟩ fun _ _ _ _ => .none
  · have hNamed : ∀ x, ((Environment.empty.bind ⟨0⟩ (Value.closure
        ⟨0, [⟨1⟩], ⟨0⟩, .empty, ⟨#[.identifier ⟨1⟩], #[], #[]⟩⟩)).lookup x).isSome →
        ((Interner.empty.intern "f").2.intern "x").2.Issued x := by
      intro x hBound
      rw [Environment.lookup_bind] at hBound
      split at hBound
      · next hx => exact ⟨"f", hx ▸ rfl⟩
      · cases hBound
    have hEnv := Environment.Hereditarily.empty.bind hKnown ⟨0⟩
    exact (answer_independent_of_numbering 9 _).2.2 (.self hNamed hEnv)
      (Interner.extends_intern _ _) (by decide)

end Program

end ArrowLisp
