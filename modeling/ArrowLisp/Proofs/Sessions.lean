import ArrowLisp.Arena.Tree
import ArrowLisp.Proofs.Machine.Safety
import ArrowLisp.Proofs.Program.Storing
import ArrowLisp.Proofs.Sessions.Effects

/-!
What a session keeps. As long as no command speaks of the node numbers of an arena, everything that
is stored in a session is good, and no answer says that a number led nowhere.
-/

namespace ArrowLisp

namespace Session

/-- Commands that do not name a node by its number. Storing nodes is among them, using them is
not. -/
def Command.NamesNoNode : Command → Prop
  | .display _ | .run _ _ _ | .closure _ _ _ _ => False
  | _ => True

/-- Everything that is stored is good. -/
structure Good (s : Session) : Prop where
  envs : ∀ (place : String) (env : Environment Value), s.envs[place]? = some env → env.Good
  values : ∀ (slot : String) (v : Value), s.values[slot]? = some v → v.Good

/-- An answer that is not about a number that led nowhere, and after which all is good. -/
structure Sound (answer : Reply × Session) : Prop where
  reply_ne : answer.1 ≠ .dangling
  good : answer.2.Good

variable {s : Session}

theorem Good.of_eq {t : Session} (h : s.Good) (hEnvs : t.envs = s.envs)
    (hValues : t.values = s.values) : t.Good :=
  ⟨fun place env => hEnvs ▸ h.envs place env, fun slot v => hValues ▸ h.values slot v⟩

theorem good_initial : initial.Good :=
  ⟨fun place env h => by simp [initial] at h, fun slot v h => by simp [initial] at h⟩

/-- In a good session a command can speak of good values only. -/
theorem good_iff : s.Good ↔ ∀ v, s.Supplies v → v.Good := by
  constructor
  · intro h v hSupplies
    cases hSupplies with
    | plain hPlain =>
        cases v with
        | closure c => exact absurd rfl (hPlain c)
        | _ => constructor
    | stored hSlot => exact h.values _ v hSlot
    | bound hPlace hMem => exact h.envs _ _ hPlace v hMem
  · exact fun h => ⟨fun _ _ hPlace v hMem => h v (.bound hPlace hMem),
      fun _ v hSlot => h v (.stored hSlot)⟩

theorem sound_keepEnv (h : s.Good) (keep : Option String) {env : Environment Value}
    (hEnv : env.Good) : Sound (s.keepEnv keep env) := by
  refine ⟨by cases keep <;> simp [keepEnv], good_iff.2 fun v hSupplies => ?_⟩
  exact (of_gives_keepEnv (.inr hSupplies)).elim (good_iff.1 h v) (hEnv v)

theorem sound_keepValue (h : s.Good) (keep : Option String) {v : Value} (hv : v.Good) :
    Sound (s.keepValue keep v) := by
  refine ⟨by cases keep <;> simp [keepValue], good_iff.2 fun w hSupplies => ?_⟩
  rcases of_gives_keepValue (.inr hSupplies) with hSupplies | rfl
  · exact good_iff.1 h w hSupplies
  · exact hv

theorem sound_keepOutcome (h : s.Good) (keep : Option String) {result : Outcome EvalError × Nat}
    (hEnds : result.1 ≠ .dangling) (hValue : ∀ v, result.1 = .value v → v.Good) :
    Sound (s.keepOutcome keep result) := by
  obtain ⟨outcome, n⟩ := result
  have hNext : Good { s with nextIdentity := n } := h.of_eq rfl rfl
  cases outcome with
  | value v => exact sound_keepValue hNext keep (hValue v rfl)
  | error e => exact ⟨by simp [keepOutcome], hNext⟩
  | dangling => exact absurd rfl hEnds
  | unfinished => exact ⟨by simp [keepOutcome], hNext⟩

theorem inspect_ne_dangling {v : Value} (h : v.Good) : s.inspect v ≠ .dangling := by
  cases v with
  | closure c =>
      obtain ⟨e, hTree⟩ := h.here.wellFormed.exists_tree? h.here.body_lt
      simp [inspect, Arena.display?_eq_text, hTree]
  | _ => simp [inspect]

/-- A run that is started without naming a node starts where all is good. -/
theorem good_of_begins (h : s.Good) {command : Command} (hNodes : command.NamesNoNode)
    {names : Interner} {c : Machine.Configuration} (hBegins : s.begins command = some (names, c)) :
    c.Good := by
  have hAll := good_iff.1 h
  cases command with
  | eval place source keep =>
      simp only [begins] at hBegins
      split at hBegins
      · next env tree hEnv _ =>
          split at hBegins
          · next p _ hProgram =>
              cases hBegins
              have hRoot : p.root.index < p.arena.size := by
                have := Program.index_root_of_ofSexp hProgram
                omega
              exact Machine.good_eval (Program.wellFormed_of_ofSexp hProgram) hRoot
                (fun v hMem => hAll v (supplies_of_env hEnv v hMem)) s.nextIdentity
          · cases hBegins
      · cases hBegins
  | apply callee args keep =>
      simp only [begins] at hBegins
      split at hBegins
      · next hCallee hArgs =>
          cases hBegins
          exact Machine.good_call (hAll _ (supplies_of_resolve hCallee))
            (fun v hMem => hAll v (supplies_of_mapM_resolve hArgs v hMem)) s.nextIdentity
      · cases hBegins
  | run => cases hNodes
  | _ => cases hBegins

/-- One command keeps a session good. -/
theorem sound_perform (limit : Nat) (h : s.Good) {command : Command}
    (hNodes : command.NamesNoNode) : Sound (s.perform limit command) := by
  have hAll := good_iff.1 h
  have hSameGood : ∀ {t}, s.SameStore t → t.Good := fun hSame => h.of_eq hSame.envs hSame.values
  have hEffect := effect_perform limit s command
  generalize s.made limit command = made, s.perform limit command = answer at hEffect ⊢
  cases hEffect with
  | silent _ hFound hSame => exact ⟨hFound, hSameGood hSame⟩
  | lost hShown =>
      rcases hShown with ⟨id, rfl⟩ | ⟨v, hSupplies, hLost⟩
      · cases hNodes
      · exact absurd hLost (inspect_ne_dangling (hAll v hSupplies))
  | environment hSame hEnv keep =>
      exact sound_keepEnv (hSameGood hSame) keep fun v hMem => hAll v (hEnv v hMem)
  | value hSame hValue keep => exact sound_keepValue (hSameGood hSame) keep (hAll _ hValue)
  | inspection => exact ⟨by simp, h⟩
  | run hSame hBegins keep =>
      have hStart := good_of_begins h hNodes hBegins
      exact sound_keepOutcome (hSameGood hSame) keep (hStart.run limit).1 (hStart.run limit).2
  | closure _ hMade =>
      cases command with
      | closure => cases hNodes
      | _ => cases hMade

/-- Carry out commands one after another. -/
def performAll (limit : Nat) (s : Session) : List Command → List Reply × Session
  | [] => ([], s)
  | command :: rest =>
    let (reply, s) := s.perform limit command
    let (replies, s) := performAll limit s rest
    (reply :: replies, s)

/-- Commands keep a session good, one after another. -/
theorem sound_performAll (limit : Nat) {commands : List Command} (h : s.Good)
    (hNodes : ∀ command ∈ commands, command.NamesNoNode) :
    (∀ reply ∈ (s.performAll limit commands).1, reply ≠ .dangling) ∧
      (s.performAll limit commands).2.Good := by
  induction commands generalizing s with
  | nil => exact ⟨by simp [performAll], h⟩
  | cons command commands ih =>
      obtain ⟨hHead, hTail⟩ := List.forall_mem_cons.1 hNodes
      have hFirst := sound_perform limit h hHead
      obtain ⟨hReplies, hGood⟩ := ih hFirst.good hTail
      exact ⟨List.forall_mem_cons.2 ⟨hFirst.reply_ne, hReplies⟩, hGood⟩

end Session

/-- Numbers never lead out of an arena, neither in the evaluation of a node of a well-formed arena
among good values nor in the application of a good value to good arguments, and what comes out is
good. Programs are stored in well-formed arenas, so no session meets such a number by reading,
evaluating, applying and binding. -/
theorem no_dangling :
    (∀ (names : Interner) (arena : Arena) (id : NodeId) (env : Environment Value) (next : Nat),
      arena.WellFormed → id.index < arena.size → env.Good →
        (∀ c, Machine.Reaches names ⟨.eval ⟨arena, env⟩ id, [], next⟩ c →
          Machine.advance names c ≠ .done .dangling) ∧
        ∀ limit v, (Machine.eval limit names arena id env next).1 = .value v → v.Good) ∧
    (∀ (names : Interner) (callee : Value) (args : List Value) (next : Nat),
      callee.Good → (∀ v ∈ args, v.Good) →
        (∀ c, Machine.Reaches names ⟨.call callee args, [], next⟩ c →
          Machine.advance names c ≠ .done .dangling) ∧
        ∀ limit v, (Machine.apply limit names callee args next).1 = .value v → v.Good) ∧
    (∀ (s : Sexp) (names : Interner) (p : Program), (Program.ofSexp s names).1 = .ok p →
      p.arena.WellFormed ∧ p.root.index < p.arena.size) ∧
    ∀ (limit : Nat) (commands : List Session.Command),
      (∀ command ∈ commands, command.NamesNoNode) →
        ∀ reply ∈ (Session.initial.performAll limit commands).1, reply ≠ .dangling := by
  refine ⟨fun names arena id env next hArena hId hEnv => ?_,
    fun names callee args next hCallee hArgs => ?_, fun s names p hProgram => ?_,
    fun limit commands hNodes => (Session.sound_performAll limit Session.good_initial hNodes).1⟩
  · have hStart := Machine.good_eval hArena hId hEnv next
    exact ⟨fun c hReaches => (hStart.of_reaches hReaches).advance_ne_dangling,
      fun limit => (hStart.run limit).2⟩
  · have hStart := Machine.good_call hCallee hArgs next
    exact ⟨fun c hReaches => (hStart.of_reaches hReaches).advance_ne_dangling,
      fun limit => (hStart.run limit).2⟩
  · have hRead : Program.ofSexp s names = (.ok p, (Program.ofSexp s names).2) :=
      Prod.ext hProgram rfl
    have hLast := Program.index_root_of_ofSexp hRead
    exact ⟨Program.wellFormed_of_ofSexp hRead, by omega⟩

/-- A closure is kept, and its arena with it, when it is used in a program of another arena. -/
theorem no_dangling_across_arenas :
    ∀ reply ∈ (Session.initial.performAll 100
      [.topEnv (some "top"),
        .eval "top" (.sexp (.list [.symbol "x", .symbol "=>", .symbol "x"])) (some "f"),
        .bind "top" "f" (.stored "f") (some "with f"),
        .eval "with f" (.sexp (.list [.symbol "f", .bool true])) none]).1, reply ≠ .dangling :=
  no_dangling.2.2.2 100 _ (by simp [Session.Command.NamesNoNode])

end ArrowLisp
