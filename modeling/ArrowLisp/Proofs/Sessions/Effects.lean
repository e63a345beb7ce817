import ArrowLisp.Proofs.Machine.Contents
import ArrowLisp.Proofs.TopEnvironment
import ArrowLisp.Session

/-!
What commands do with values. A command answers with values that are stored or that bring no closure
with them, and keeps them, or it starts one run from such values and answers with what comes out, or
it makes one closure over an environment that is stored. Everything else leaves alone what is
stored.
-/

namespace ArrowLisp

theorem exists_of_bind {ε α β : Type} {r : Except ε α} {f : α → Except ε β} {y : β}
    (h : r >>= f = .ok y) : ∃ x, r = .ok x ∧ f x = .ok y := by
  cases r with
  | ok x => exact ⟨x, rfl, h⟩
  | error e => cases h

namespace Session

/-- The values in an answer. -/
def Reply.values : Reply → List Value
  | .environment env => env.values
  | .value v => [v]
  | .inspection v _ => [v]
  | _ => []

/-- The same values are stored, and the same identities are free. -/
structure SameStore (s t : Session) : Prop where
  envs : t.envs = s.envs
  values : t.values = s.values
  nextIdentity : t.nextIdentity = s.nextIdentity

theorem SameStore.refl (s : Session) : s.SameStore s := ⟨rfl, rfl, rfl⟩

theorem SameStore.names (s : Session) (names : Interner) : s.SameStore { s with names } :=
  ⟨rfl, rfl, rfl⟩

/-- What a command can speak of: what is stored, under a name of its own or as a binding, and all
values that are no closures. -/
inductive Supplies (s : Session) : Value → Prop where
  | plain {v : Value} (h : ∀ c, v ≠ .closure c) : Supplies s v
  | stored {slot : String} {v : Value} (h : s.values[slot]? = some v) : Supplies s v
  | bound {place : String} {env : Environment Value} {v : Value} (h : s.envs[place]? = some env)
      (hMem : v ∈ env.values) : Supplies s v

/-- Names, the arena and identities are apart from what is stored. -/
theorem Supplies.of_eq {s t : Session} {v : Value} (h : t.Supplies v) (hEnvs : t.envs = s.envs)
    (hValues : t.values = s.values) : s.Supplies v := by
  cases h with
  | plain hPlain => exact .plain hPlain
  | stored hSlot => exact .stored (hValues ▸ hSlot)
  | bound hPlace hMem => exact .bound (hEnvs ▸ hPlace) hMem

theorem SameStore.supplies {s t : Session} {v : Value} (h : s.SameStore t) (hv : t.Supplies v) :
    s.Supplies v :=
  hv.of_eq h.envs h.values

/-- A value is in an answer, or a command can speak of it from then on. -/
def Gives (answer : Reply × Session) (v : Value) : Prop :=
  v ∈ answer.1.values ∨ answer.2.Supplies v

section Keeping

variable {s : Session} {keep : Option String} {v w : Value}

theorem of_gives_keepEnv {env : Environment Value} (h : Gives (s.keepEnv keep env) v) :
    s.Supplies v ∨ v ∈ env.values := by
  cases keep with
  | none => exact h.symm
  | some place =>
      rcases h with hReply | hSupplies
      · exact .inr hReply
      · cases hSupplies with
        | plain hPlain => exact .inl (.plain hPlain)
        | stored hSlot => exact .inl (.stored hSlot)
        | bound hPlace hMem =>
            simp only [keepEnv, Std.TreeMap.getElem?_insert] at hPlace
            split at hPlace
            · cases hPlace
              exact .inr hMem
            · exact .inl (.bound hPlace hMem)

theorem of_gives_keepValue (h : Gives (s.keepValue keep w) v) : s.Supplies v ∨ v = w := by
  cases keep with
  | none => exact h.symm.imp_right List.mem_singleton.1
  | some slot =>
      rcases h with hReply | hSupplies
      · exact .inr (List.mem_singleton.1 hReply)
      · cases hSupplies with
        | plain hPlain => exact .inl (.plain hPlain)
        | bound hPlace hMem => exact .inl (.bound hPlace hMem)
        | stored hSlot =>
            simp only [keepValue, Std.TreeMap.getElem?_insert] at hSlot
            split at hSlot
            · cases hSlot
              exact .inr rfl
            · exact .inl (.stored hSlot)

theorem of_gives_keepOutcome {result : Outcome EvalError × Nat}
    (h : Gives (s.keepOutcome keep result) v) : s.Supplies v ∨ result.1 = .value v := by
  obtain ⟨outcome, n⟩ := result
  cases outcome with
  | value w =>
      rcases of_gives_keepValue h with hSupplies | rfl
      · exact .inl (hSupplies.of_eq rfl rfl)
      · exact .inr rfl
  | error | dangling | unfinished =>
      rcases h with hReply | hSupplies
      · cases hReply
      · exact .inl (hSupplies.of_eq rfl rfl)

@[simp]
theorem nextIdentity_keepEnv (env : Environment Value) :
    (s.keepEnv keep env).2.nextIdentity = s.nextIdentity := by
  cases keep <;> rfl

@[simp]
theorem nextIdentity_keepValue (v : Value) :
    (s.keepValue keep v).2.nextIdentity = s.nextIdentity := by
  cases keep <;> rfl

@[simp]
theorem nextIdentity_keepOutcome (result : Outcome EvalError × Nat) :
    (s.keepOutcome keep result).2.nextIdentity = result.2 := by
  obtain ⟨outcome, n⟩ := result
  cases outcome with
  | value v => exact nextIdentity_keepValue v
  | error | dangling | unfinished => rfl

end Keeping

section Operands

variable {s : Session}

theorem supplies_of_resolve {operand : Operand} {v : Value} (h : s.resolve operand = .ok v) :
    s.Supplies v := by
  cases operand with
  | stored slot =>
      rw [resolve] at h
      split at h
      · next hSlot => cases h; exact .stored hSlot
      · cases h
  | _ => cases h; exact .plain nofun

theorem supplies_of_mapM_resolve {operands : List Operand} {vs : List Value}
    (h : operands.mapM s.resolve = .ok vs) : ∀ v ∈ vs, s.Supplies v := by
  induction operands generalizing vs with
  | nil => cases h; simp
  | cons operand operands ih =>
      rw [List.mapM_cons] at h
      obtain ⟨v, hHead, h⟩ := exists_of_bind h
      obtain ⟨rest, hTail, h⟩ := exists_of_bind h
      cases h
      exact List.forall_mem_cons.2 ⟨supplies_of_resolve hHead, ih hTail⟩

theorem supplies_of_env {place : String} {env : Environment Value} (h : s.env place = .ok env) :
    ∀ v ∈ env.values, s.Supplies v := by
  rw [Session.env] at h
  split at h
  · next hPlace => cases h; exact fun v hMem => .bound hPlace hMem
  · cases h

theorem supplies_of_withFrame {env : Environment Value} {vs : List Value}
    (hEnv : ∀ v ∈ env.values, s.Supplies v) (hValues : ∀ v ∈ vs, s.Supplies v)
    (names : List Name) : ∀ v ∈ (env.withFrame (names.zip vs)).values, s.Supplies v :=
  fun v hMem => (Environment.mem_values_withFrame_zip hMem).elim (hValues v) (hEnv v)

theorem supplies_of_topEnvironment (s : Session) :
    ∀ v ∈ s.names.topEnvironment.1.values, s.Supplies v := by
  intro v hMem
  have hNone : v.Hereditarily fun _ => False := s.names.hereditarily_topEnvironment v hMem
  cases hNone with
  | closure hHere => exact hHere.elim
  | _ => exact .plain nofun

end Operands

/-- The run that a command starts, if it comes to starting one: the names that the run knows and its
first moment. -/
def begins (s : Session) : Command → Option (Interner × Machine.Configuration)
  | .eval place source _ =>
    match s.env place, source.sexp? with
    | .ok env, .ok tree =>
      match Program.ofSexp tree s.names with
      | (.ok p, names) => some (names, ⟨.eval ⟨p.arena, env⟩ p.root, [], s.nextIdentity⟩)
      | (.error _, _) => none
    | _, _ => none
  | .apply callee args _ =>
    match s.resolve callee, args.mapM s.resolve with
    | .ok callee, .ok args => some (s.names, ⟨.call callee args, [], s.nextIdentity⟩)
    | _, _ => none
  | .run id place _ =>
    match s.env place with
    | .ok env => some (s.names, ⟨.eval ⟨s.arena, env⟩ id, [], s.nextIdentity⟩)
    | .error _ => none
  | _ => none

/-- The closure that a command makes outright. -/
def closure? (s : Session) : Command → Option (Closure Value)
  | .closure params id place _ =>
    match s.env place with
    | .ok env => some ⟨s.nextIdentity, (s.internAll params).1, id, env, s.arena⟩
    | .error _ => none
  | _ => none

/-- The closures that a command makes, in order: one for each lambda that is evaluated in the run
that the command starts, or the one that is asked for. -/
def made (limit : Nat) (s : Session) (command : Command) : List (Closure Value) :=
  match s.begins command with
  | some (names, c) => Machine.made names limit c
  | none => (s.closure? command).toList

/-- What can come of a command: the closures that it makes, and its answer with the session
afterwards. -/
inductive Effect (limit : Nat) (s : Session) (command : Command) :
    List (Closure Value) → Reply × Session → Prop where
  | silent {reply : Reply} {t : Session} (hReply : reply.values = []) (hFound : reply ≠ .dangling)
      (hSame : s.SameStore t) : Effect limit s command [] (reply, t)
  /-- A number led nowhere in what was to be shown. -/
  | lost (hShown : (∃ id, command = .display id) ∨ ∃ v, s.Supplies v ∧ s.inspect v = .dangling) :
      Effect limit s command [] (.dangling, s)
  | environment {t : Session} {env : Environment Value} (hSame : s.SameStore t)
      (hEnv : ∀ v ∈ env.values, s.Supplies v) (keep : Option String) :
      Effect limit s command [] (t.keepEnv keep env)
  | value {t : Session} {v : Value} (hSame : s.SameStore t) (hValue : s.Supplies v)
      (keep : Option String) : Effect limit s command [] (t.keepValue keep v)
  | inspection {v : Value} (hValue : s.Supplies v) (view : Option ClosureView) :
      Effect limit s command [] (.inspection v view, s)
  | run {t : Session} {names : Interner} {c : Machine.Configuration} (hSame : s.SameStore t)
      (hBegins : s.begins command = some (names, c)) (keep : Option String) :
      Effect limit s command (Machine.made names limit c)
        (t.keepOutcome keep (Machine.run names limit c))
  | closure {t : Session} {c : Closure Value} (hSame : s.SameStore t)
      (hMade : s.closure? command = some c) (keep : Option String) :
      Effect limit s command [c]
        ({ t with nextIdentity := t.nextIdentity + 1 }.keepValue keep (.closure c))

section Starts

variable {s : Session} {command : Command}

/-- A run starts with values that the command can speak of, and goes on with the identities of the
session. -/
theorem supplies_of_begins {names : Interner} {c : Machine.Configuration}
    (h : s.begins command = some (names, c)) :
    (∀ v ∈ c.values, s.Supplies v) ∧ c.nextIdentity = s.nextIdentity := by
  cases command with
  | eval place source keep =>
      simp only [begins] at h
      split at h
      · next env tree hEnv _ =>
          split at h
          · cases h
            exact ⟨Machine.values_start .. ▸ supplies_of_env hEnv, rfl⟩
          · cases h
      · cases h
  | apply callee args keep =>
      simp only [begins] at h
      split at h
      · next v vs hCallee hArgs =>
          cases h
          refine ⟨Machine.values_start .. ▸ ?_, rfl⟩
          exact List.forall_mem_cons.2
            ⟨supplies_of_resolve hCallee, supplies_of_mapM_resolve hArgs⟩
      · cases h
  | run id place keep =>
      simp only [begins] at h
      split at h
      · next env hEnv =>
          cases h
          exact ⟨Machine.values_start .. ▸ supplies_of_env hEnv, rfl⟩
      · cases h
  | _ => cases h

/-- A closure that is asked for captures what is stored, and gets the next identity. -/
theorem supplies_of_closure? {c : Closure Value} (h : s.closure? command = some c) :
    (∀ v ∈ c.env.values, s.Supplies v) ∧ c.identity = s.nextIdentity := by
  cases command with
  | closure params id place keep =>
      simp only [closure?] at h
      split at h
      · next env hEnv => cases h; exact ⟨supplies_of_env hEnv, rfl⟩
      · cases h
  | _ => cases h

end Starts

section Perform

variable {s : Session} {limit : Nat} {command : Command}

theorem effect_orUnknown {r : Except String (Reply × Session)}
    (h : ∀ answer, r = .ok answer → Effect limit s command [] answer) :
    Effect limit s command [] (s.orUnknown r) := by
  cases r with
  | ok answer => exact h answer rfl
  | error place => exact .silent rfl nofun (.refl s)

theorem effect_showNode (id : NodeId) : Effect limit s (.display id) [] (s.showNode id, s) := by
  rw [showNode]
  split
  · exact .silent rfl nofun (.refl s)
  · exact .lost (.inl ⟨id, rfl⟩)

theorem effect_inspect {v : Value} (h : s.Supplies v) :
    Effect limit s command [] (s.inspect v, s) := by
  generalize hReply : s.inspect v = reply
  cases v with
  | closure c =>
      simp only [inspect] at hReply
      split at hReply
      · exact hReply ▸ .inspection h _
      · next hNone => exact hReply ▸ .lost (.inr ⟨.closure c, h, by simp only [inspect, hNone]⟩)
  | _ => exact hReply ▸ .inspection h none

/-- A command comes to one of these effects. -/
theorem effect_perform (limit : Nat) (s : Session) (command : Command) :
    Effect limit s command (s.made limit command) (s.perform limit command) := by
  cases command with
  | intern | nameText | listNames | alloc | allocIdentifier | allocArgs | allocParams =>
      exact .silent rfl nofun ⟨rfl, rfl, rfl⟩
  | emptyEnv keep => exact .environment (.refl s) (by simp) keep
  | topEnv keep =>
      have hEnv := s.supplies_of_topEnvironment
      simp only [perform]
      generalize s.names.topEnvironment = top at hEnv
      exact .environment (.names s _) hEnv keep
  | bind place name operand keep =>
      refine effect_orUnknown fun answer h => ?_
      obtain ⟨env, hEnv, h⟩ := exists_of_bind h
      obtain ⟨v, hValue, h⟩ := exists_of_bind h
      cases h
      refine .environment (.names s _) ?_ keep
      exact supplies_of_withFrame (supplies_of_env hEnv)
        (List.forall_mem_singleton.2 (supplies_of_resolve hValue)) [_]
  | frame place names operands keep =>
      refine effect_orUnknown fun answer h => ?_
      obtain ⟨env, hEnv, h⟩ := exists_of_bind h
      obtain ⟨vs, hValues, h⟩ := exists_of_bind h
      cases h
      refine .environment (.names s _) ?_ keep
      exact supplies_of_withFrame (supplies_of_env hEnv) (supplies_of_mapM_resolve hValues) _
  | extend place names operands keep =>
      refine effect_orUnknown fun answer h => ?_
      obtain ⟨env, hEnv, h⟩ := exists_of_bind h
      obtain ⟨vs, hValues, h⟩ := exists_of_bind h
      cases hExtend : env.extend (s.internAll names).1 vs with
      | error e =>
          simp only [hExtend] at h
          cases h
          exact .silent rfl nofun ⟨rfl, rfl, rfl⟩
      | ok env' =>
          simp only [hExtend] at h
          cases h
          obtain ⟨-, rfl⟩ := Environment.extend_eq_ok_iff.1 hExtend
          refine .environment (.names s _) ?_ keep
          exact supplies_of_withFrame (supplies_of_env hEnv) (supplies_of_mapM_resolve hValues) _
  | get place name keep =>
      refine effect_orUnknown fun answer h => ?_
      obtain ⟨env, hEnv, h⟩ := exists_of_bind h
      cases hLookup : env.lookup (s.names.intern name).1 with
      | none =>
          simp only [hLookup] at h
          cases h
          exact .silent rfl nofun ⟨rfl, rfl, rfl⟩
      | some v =>
          simp only [hLookup] at h
          cases h
          have hMem := Environment.mem_values_of_lookup hLookup
          exact .value (.names s _) (supplies_of_env hEnv v hMem) keep
  | depth place =>
      refine effect_orUnknown fun answer h => ?_
      obtain ⟨env, -, h⟩ := exists_of_bind h
      cases h
      exact .silent rfl nofun (.refl s)
  -- Where a run or a closure is asked for, it is made once all operands have been found. If one is
  -- missing, nothing is made.
  | eval place source keep =>
      simp only [made, begins, perform]
      cases hEnv : s.env place with
      | error => exact .silent rfl nofun (.refl s)
      | ok env =>
          change Effect limit s _ _ (s.evalSource limit env source keep)
          rw [evalSource]
          cases hSource : source.sexp? with
          | error e => exact .silent rfl nofun (.refl s)
          | ok tree =>
              cases hProgram : Program.ofSexp tree s.names with
              | mk result names =>
                  cases result with
                  | error e =>
                      simp only [hProgram]
                      exact .silent rfl nofun (.names s names)
                  | ok p =>
                      simp only [hProgram]
                      exact .run (.names s names) (by simp only [begins, hEnv, hSource, hProgram])
                        keep
  | apply callee args keep =>
      simp only [made, begins, perform]
      cases hCallee : s.resolve callee with
      | error => exact .silent rfl nofun (.refl s)
      | ok v =>
          cases hArgs : args.mapM s.resolve with
          | error => exact .silent rfl nofun (.refl s)
          | ok vs => exact .run (.refl s) (by simp only [begins, hCallee, hArgs]) keep
  | equal left right =>
      refine effect_orUnknown fun answer h => ?_
      obtain ⟨v, -, h⟩ := exists_of_bind h
      obtain ⟨w, -, h⟩ := exists_of_bind h
      cases h
      exact .silent rfl nofun (.refl s)
  | inspect operand =>
      refine effect_orUnknown fun answer h => ?_
      obtain ⟨v, hValue, h⟩ := exists_of_bind h
      cases h
      exact effect_inspect (supplies_of_resolve hValue)
  | display id => exact effect_showNode id
  | run id place keep =>
      simp only [made, begins, perform]
      cases hEnv : s.env place with
      | error => exact .silent rfl nofun (.refl s)
      | ok env => exact .run (.refl s) (by simp only [begins, hEnv]) keep
  | closure params id place keep =>
      simp only [made, begins, closure?, perform]
      cases hEnv : s.env place with
      | error => exact .silent rfl nofun (.refl s)
      | ok env => exact .closure (.names s _) (by simp only [closure?, hEnv]) keep

end Perform

end Session

end ArrowLisp
