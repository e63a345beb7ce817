import ArrowLisp.Proofs.Program.Grammar

/-!
What reading a program leaves in the interner. A walk over a tree meets texts that get names and
violations of the grammar, from left to right. The texts before the first violation are interned in
this order, all texts if there is no violation, and nothing is interned that comes after it.
-/

namespace ArrowLisp

/-- What a walk over a tree comes upon: a text that gets a name, or a violation of the grammar. -/
inductive Encounter where
  | name (text : String)
  | violation (e : ParseError)

/-- What a walk comes upon at the place of a parameter. -/
def Sexp.parameter : Sexp → Encounter
  | .symbol text => .name text
  | item => .violation (.invalidParameter item.display)

/-- All that a walk over a tree meets, in order. The word `if` that opens a conditional and the
arrow of a lambda are passed over; in other places they are symbols like any other. -/
inductive Sexp.Meets : Sexp → List Encounter → Prop where
  | number (x : Float) : Meets (.number x) []
  | string (s : String) : Meets (.string s) []
  | bool (b : Bool) : Meets (.bool b) []
  | symbol (text : String) : Meets (.symbol text) [.name text]
  | conditional {c t e : Sexp} {cs ts es : List Encounter} (hCondition : Meets c cs)
      (hConsequent : Meets t ts) (hAlternative : Meets e es) :
      Meets (.list [.symbol Form.ifWord, c, t, e]) (cs ++ (ts ++ es))
  | missingParameters {body : Sexp} {es : List Encounter} (hBody : Meets body es) :
      Meets (.list [.symbol Form.arrow, body]) (.violation .missingParameters :: es)
  | lambda {params : List Sexp} {body : Sexp} {es : List Encounter}
      (hConditional : ¬ConditionalShape (params ++ [.symbol Form.arrow, body]))
      (hSome : params ≠ []) (hBody : Meets body es) :
      Meets (.list (params ++ [.symbol Form.arrow, body])) (params.map parameter ++ es)
  | emptyList : Meets (.list []) [.violation .emptyList]
  | application {items : List Sexp} {es : Sexp → List Encounter}
      (hConditional : ¬ConditionalShape items) (hLambda : ¬LambdaShape items) (hSome : items ≠ [])
      (hItems : ∀ item ∈ items, Meets item (es item)) :
      Meets (.list items) (items.flatMap es)

/-- Every tree can be walked over. -/
theorem Sexp.exists_meets (s : Sexp) : ∃ es, s.Meets es := by
  induction s using Sexp.shape_induction with
  | number x => exact ⟨_, .number x⟩
  | string s => exact ⟨_, .string s⟩
  | bool b => exact ⟨_, .bool b⟩
  | symbol text => exact ⟨_, .symbol text⟩
  | conditional ihC ihT ihE =>
      obtain ⟨_, hC⟩ := ihC
      obtain ⟨_, hT⟩ := ihT
      obtain ⟨_, hE⟩ := ihE
      exact ⟨_, .conditional hC hT hE⟩
  | missingParameters ih =>
      obtain ⟨_, hBody⟩ := ih
      exact ⟨_, .missingParameters hBody⟩
  | lambda hConditional hSome ih =>
      obtain ⟨_, hBody⟩ := ih
      exact ⟨_, .lambda hConditional hSome hBody⟩
  | emptyList => exact ⟨_, .emptyList⟩
  | application hConditional hLambda hSome ih =>
      choose! es hItems using ih
      exact ⟨_, .application hConditional hLambda hSome hItems⟩

/-- What becomes of an interner in a walk: it takes all texts that the walk meets, or those before
the first violation, for which the walk then fails. -/
inductive Interns {α : Type} (i : Interner) :
    Except ParseError α → Interner → List Encounter → Prop where
  | all {x : α} {j : Interner} (texts : List String) (hTexts : (i.internAll texts).2 = j) :
      Interns i (.ok x) j (texts.map .name)
  | cut {e : ParseError} {j : Interner} (texts : List String) (rest : List Encounter)
      (hTexts : (i.internAll texts).2 = j) :
      Interns i (.error e) j (texts.map .name ++ .violation e :: rest)

namespace Interns

variable {α β : Type} {i j : Interner} {r : Except ParseError α} {es : List Encounter}

theorem map (f : α → β) (h : Interns i r j es) : Interns i (r.map f) j es := by
  cases h with
  | all texts hTexts => exact .all texts hTexts
  | cut texts rest hTexts => exact .cut texts rest hTexts

/-- Texts that have been interned before come before all others. -/
theorem after (before : List String)
    (h : Interns (i.internAll before).2 r j es) : Interns i r j (before.map .name ++ es) := by
  cases h with
  | all texts hTexts =>
      rw [← List.map_append]
      exact .all (before ++ texts) (by rw [Interner.internAll_append, hTexts])
  | cut texts rest hTexts =>
      rw [← List.append_assoc, ← List.map_append]
      exact .cut (before ++ texts) rest (by rw [Interner.internAll_append, hTexts])

/-- Names that there are already stay what they are. -/
theorem names_extend (h : Interns i r j es) : i.Extends j := by
  cases h with
  | all texts hTexts => exact hTexts ▸ i.extends_internAll texts
  | cut texts rest hTexts => exact hTexts ▸ i.extends_internAll texts

end Interns

namespace Program

namespace Builder

variable {α β : Type} {i : Interner} {es es' : List Encounter}

/-- After what has been done comes what is done next, but not after a violation. -/
theorem interns_andThen {r : Except ParseError α × Builder}
    {next : α → Builder → Except ParseError β × Builder} (h : Interns i r.1 r.2.names es)
    (hNext : ∀ x b, Interns b.names (next x b).1 (next x b).2.names es') :
    Interns i (andThen r next).1 (andThen r next).2.names (es ++ es') := by
  obtain ⟨result, b⟩ := r
  cases h with
  | @all x _ texts hTexts =>
      have hRest := hNext x b
      rw [← hTexts] at hRest
      exact hRest.after texts
  | cut texts rest hTexts =>
      rw [List.append_assoc]
      exact .cut texts (rest ++ es') hTexts

/-- Storing a node whose parts are there meets nothing more. -/
theorem interns_last {r : Except ParseError α × Builder} (last : α → Builder → β × Builder)
    (h : Interns i r.1 r.2.names es) (hLast : ∀ x b, (last x b).2.names = b.names) :
    Interns i (andThen r fun x b => done (last x b)).1
      (andThen r fun x b => done (last x b)).2.names es := by
  rw [← List.append_nil es]
  exact interns_andThen h fun x b => .all [] (hLast x b).symm

theorem interns_nameParams (params : List Sexp) (b : Builder) :
    Interns b.names (b.nameParams params).1 (b.nameParams params).2.names
      (params.map Sexp.parameter) := by
  induction params generalizing b with
  | nil => exact .all [] rfl
  | cons param params ih =>
      rw [nameParams]
      cases param with
      | symbol text =>
          have hRest := (ih { b with names := (b.names.intern text).2 }).map
            ((b.names.intern text).1 :: ·)
          exact hRest.after [text]
      | _ => exact .cut [] _ rfl

theorem interns_storeAll {ss : List Sexp} {es : Sexp → List Encounter}
    (h : ∀ s ∈ ss, ∀ b : Builder, Interns b.names (b.store s).1 (b.store s).2.names (es s))
    (b : Builder) :
    Interns b.names (b.storeAll ss).1 (b.storeAll ss).2.names (ss.flatMap es) := by
  induction ss generalizing b with
  | nil =>
      rw [storeAll]
      exact .all [] rfl
  | cons s ss ih =>
      obtain ⟨hHead, hTail⟩ := List.forall_mem_cons.1 h
      rw [storeAll, List.flatMap_cons]
      exact interns_andThen (hHead b) fun id b =>
        interns_last (fun ids b => (id :: ids, b)) (ih hTail b) fun _ _ => rfl

/-- A walk interns what it meets before the first violation. -/
theorem interns_store {s : Sexp} (h : s.Meets es) (b : Builder) :
    Interns b.names (b.store s).1 (b.store s).2.names es := by
  induction h generalizing b with
  | number | string | bool =>
      rw [store]
      exact .all [] rfl
  | symbol text =>
      rw [store]
      exact .all [text] rfl
  | conditional _ _ _ ihC ihT ihE =>
      rw [store_conditional b (Form.ofItems_conditional _ _ _)]
      exact interns_andThen (ihC b) fun _ b => interns_andThen (ihT b) fun _ b =>
        interns_last _ (ihE b) fun _ _ => rfl
  | @missingParameters body es =>
      rw [store_lambda b (Form.ofItems_missingParameters body)]
      exact .cut [] es rfl
  | lambda hConditional hSome _ ih =>
      obtain ⟨param, params, rfl⟩ := List.exists_cons_of_ne_nil hSome
      rw [store_lambda b (Form.ofItems_lambda hConditional)]
      exact interns_andThen (interns_nameParams _ b) fun _ b =>
        interns_last _ (ih b) fun _ _ => rfl
  | emptyList =>
      rw [store_empty b rfl]
      exact .cut [] [] rfl
  | application hConditional hLambda hSome _ ih =>
      obtain ⟨callee, args, rfl⟩ := List.exists_cons_of_ne_nil hSome
      obtain ⟨hCallee, hArgs⟩ := List.forall_mem_cons.1 ih
      rw [store_application b (Form.ofItems_application hConditional hLambda)]
      exact interns_andThen (hCallee b) fun _ b =>
        interns_last _ (interns_storeAll hArgs b) fun _ _ => rfl

end Builder

theorem interns_ofSexp {s : Sexp} {es : List Encounter} (h : s.Meets es) (names : Interner) :
    Interns names (ofSexp s names).1 (ofSexp s names).2 es := by
  have hStore := Builder.interns_store h ⟨.empty, names⟩
  rw [ofSexp, build_tree]
  generalize Builder.store ⟨.empty, names⟩ s = r at hStore
  obtain ⟨result, b⟩ := r
  have hProgram := hStore.map fun root => (⟨b.arena, root⟩ : Program)
  cases result <;> exact hProgram

/-- Whatever names there are, reading a tree interns what a walk over it meets, in order: all texts
if the tree is a program, and otherwise those before the first violation, which is the error.
Earlier texts keep their names and earlier names their texts. -/
theorem ofSexp_interns (s : Sexp) (names : Interner) :
    (∃ es, s.Meets es) ∧
    (∀ es, s.Meets es → Interns names (ofSexp s names).1 (ofSexp s names).2 es) ∧
    (∀ t x, names.find? t = some x → (ofSexp s names).2.find? t = some x) ∧
    ∀ x, names.Issued x → (ofSexp s names).2.lookup x = names.lookup x := by
  obtain ⟨es, hMeets⟩ := s.exists_meets
  have hExtends := (interns_ofSexp hMeets names).names_extend
  exact ⟨⟨es, hMeets⟩, fun es hMeets => interns_ofSexp hMeets names,
    fun t x hFind => hExtends.find? hFind, fun x hIssued => hExtends.lookup_eq hIssued⟩

end Program

end ArrowLisp
