import ArrowLisp.Program

/-!
The walk over a literal tree, stated by recursion on the tree. `Builder.store` stores a tree and all
below it. `Program.build`, which keeps the open lists in a list, stores the same nodes in the same
order: `build_tree`.
-/

namespace ArrowLisp.Program

namespace Builder

variable {α β γ : Type}

/-- Go on with what a step has produced, unless it has failed. -/
def andThen (r : Except ParseError α × Builder)
    (next : α → Builder → Except ParseError β × Builder) : Except ParseError β × Builder :=
  match r with
  | (.ok x, b) => next x b
  | (.error e, b) => (.error e, b)

/-- A step that cannot fail. -/
def done (r : α × Builder) : Except ParseError α × Builder := (.ok r.1, r.2)

@[simp]
theorem andThen_ok (x : α) (b : Builder)
    (next : α → Builder → Except ParseError β × Builder) :
    andThen (.ok x, b) next = next x b := rfl

@[simp]
theorem andThen_error (e : ParseError) (b : Builder)
    (next : α → Builder → Except ParseError β × Builder) :
    andThen (.error e, b) next = (.error e, b) := rfl

@[simp]
theorem andThen_done (r : α × Builder) (next : α → Builder → Except ParseError β × Builder) :
    andThen (done r) next = next r.1 r.2 := rfl

@[simp]
theorem andThen_andThen (r : Except ParseError α × Builder)
    (next : α → Builder → Except ParseError β × Builder)
    (last : β → Builder → Except ParseError γ × Builder) :
    andThen (andThen r next) last = andThen r fun x b => andThen (next x b) last := by
  obtain ⟨result, b⟩ := r
  cases result <;> rfl

mutual

/-- Store a tree, its parts from left to right and before the node that refers to them. -/
def store (b : Builder) : Sexp → Except ParseError NodeId × Builder
  | .number x => done (b.alloc (.number x))
  | .string s => done (b.alloc (.string s))
  | .bool value => done (b.alloc (.bool value))
  | .symbol text => done (b.allocIdentifier text)
  | .list items =>
    match _hForm : Form.ofItems items with
    | .conditional condition consequent alternative =>
      andThen (b.store condition) fun condition b =>
        andThen (b.store consequent) fun consequent b =>
          andThen (b.store alternative) fun alternative b =>
            done (b.alloc (.conditional condition consequent alternative))
    | .lambda params body =>
      andThen (b.params params) fun names b =>
        andThen (b.store body) fun body b => done (b.allocLambda names body)
    | .application [] => (.error .emptyList, b)
    | .application (callee :: args) =>
      andThen (b.store callee) fun callee b =>
        andThen (b.storeAll args) fun args b => done (b.allocApply callee args)
termination_by s => sizeOf s
decreasing_by
  all_goals simp_wf
  all_goals grind [→ Form.sizeOf_conditional, → Form.sizeOf_lambda, → Form.sizeOf_application]

/-- Store trees from left to right. -/
def storeAll (b : Builder) : List Sexp → Except ParseError (List NodeId) × Builder
  | [] => (.ok [], b)
  | s :: rest =>
    andThen (b.store s) fun id b => andThen (b.storeAll rest) fun ids b => (.ok (id :: ids), b)
termination_by ss => sizeOf ss

end

end Builder

open Builder

/-- Store the part that has been reached. -/
def Focus.store (b : Builder) : Focus → Except ParseError NodeId × Builder
  | .tree s => b.store s
  | .node id => (.ok id, b)

/-- Store what is left of an open form, given the part that was under way, and then the form. -/
def OpenForm.store (id : NodeId) (b : Builder) : OpenForm → Except ParseError NodeId × Builder
  | .atCondition consequent alternative =>
    andThen (b.store consequent) fun consequent b =>
      andThen (b.store alternative) fun alternative b =>
        done (b.alloc (.conditional id consequent alternative))
  | .atConsequent condition alternative =>
    andThen (b.store alternative) fun alternative b =>
      done (b.alloc (.conditional condition id alternative))
  | .atAlternative condition consequent => done (b.alloc (.conditional condition consequent id))
  | .atBody params => done (b.allocLambda params id)
  | .atCallee args => andThen (b.storeAll args) fun args b => done (b.allocApply id args)
  | .atArg callee stored args =>
    andThen (b.storeAll args) fun args b =>
      done (b.allocApply callee ((id :: stored).reverse ++ args))

/-- Store what is left of open forms, innermost first. -/
def storeForms (r : Except ParseError NodeId × Builder) :
    List OpenForm → Except ParseError NodeId × Builder
  | [] => r
  | form :: forms => storeForms (andThen r fun id b => form.store id b) forms

theorem storeForms_error (e : ParseError) (b : Builder) (forms : List OpenForm) :
    storeForms (.error e, b) forms = (.error e, b) := by
  induction forms with
  | nil => rfl
  | cons form forms ih => exact ih

theorem build_eq (focus : Focus) (forms : List OpenForm) (b : Builder) :
    build focus forms b = storeForms (focus.store b) forms := by
  fun_induction build focus forms b with
  | case5 _ _ _ _ _ _ hForm ih | case9 _ _ _ _ _ hForm ih =>
      rw [ih, Focus.store, Focus.store, Builder.store, storeForms]
      split <;> simp_all [OpenForm.store]
  | case6 _ _ _ _ _ hForm | case8 _ _ _ hForm =>
      rw [Focus.store, Builder.store]
      split <;> simp_all [storeForms_error]
  | case7 _ _ _ _ _ hForm _ _ _ ih =>
      rw [ih, Focus.store, Focus.store, Builder.store, storeForms]
      split <;> simp_all [OpenForm.store]
  | _ =>
      simp_all [Focus.store, Builder.store, Builder.storeAll, OpenForm.store, storeForms, done]

/-- With nothing open, building a tree is storing it. -/
theorem build_tree (s : Sexp) (b : Builder) : build (.tree s) [] b = b.store s := build_eq _ _ _

end ArrowLisp.Program
