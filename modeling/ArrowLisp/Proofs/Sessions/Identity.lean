import ArrowLisp.Proofs.Equality
import ArrowLisp.Proofs.Sessions
import ArrowLisp.Proofs.Sessions.Effects

/-!
The identity of closures over whole sessions. Every evaluation of a lambda, and every closure that
is asked for outright, makes one closure, and the closures of a session have their places in the
order of making as identities. Whatever is done with a closure afterwards, it turns up unchanged, so
that two closures are equal if and only if they have been made at once.
-/

namespace ArrowLisp.Session

variable {s : Session} {limit : Nat} {command : Command} {commands : List Command}
  {c : Closure Value} {v : Value}

/-- A closure is stored, under a name of its own or as part of something that is stored. -/
def Holds (s : Session) (c : Closure Value) : Prop := ∃ v, s.Supplies v ∧ v.Contains (.closure c)

theorem not_holds_initial : ¬initial.Holds c := by
  rintro ⟨v, hSupplies, hContains⟩
  cases hSupplies with
  | plain hPlain =>
      cases hContains with
      | refl => exact hPlain c rfl
      | captured => exact hPlain _ rfl
  | stored hSlot => simp [initial] at hSlot
  | bound hPlace => simp [initial] at hPlace

namespace Effect

variable {made : List (Closure Value)} {answer : Reply × Session}

/-- A closure in an answer, or in what is stored afterwards, has been stored before or has just been
made. -/
theorem holds_or_mem (h : Effect limit s command made answer) (hGives : Gives answer v)
    (hContains : v.Contains (.closure c)) : s.Holds c ∨ c ∈ made := by
  have hOld : s.Supplies v → s.Holds c ∨ c ∈ made := fun hSupplies => .inl ⟨v, hSupplies, hContains⟩
  cases h with
  | silent hReply _ hSame =>
      rcases hGives with hMem | hSupplies
      · simp [hReply] at hMem
      · exact hOld (hSame.supplies hSupplies)
  | lost =>
      rcases hGives with hMem | hSupplies
      · cases hMem
      · exact hOld hSupplies
  | environment hSame hEnv =>
      rcases of_gives_keepEnv hGives with hSupplies | hMem
      · exact hOld (hSame.supplies hSupplies)
      · exact hOld (hEnv v hMem)
  | value hSame hValue =>
      rcases of_gives_keepValue hGives with hSupplies | rfl
      · exact hOld (hSame.supplies hSupplies)
      · exact hOld hValue
  | inspection hValue =>
      rcases hGives with hMem | hSupplies
      · obtain rfl := List.mem_singleton.1 hMem
        exact hOld hValue
      · exact hOld hSupplies
  | run hSame hBegins =>
      rcases of_gives_keepOutcome hGives with hSupplies | hRun
      · exact hOld (hSame.supplies hSupplies)
      · rcases Machine.holds_of_run hRun hContains with ⟨w, hw, hStart⟩ | hMade
        · exact .inl ⟨w, (supplies_of_begins hBegins).1 w hw, hStart⟩
        · exact .inr hMade
  | closure hSame hMade =>
      rcases of_gives_keepValue hGives with hSupplies | rfl
      · exact hOld (hSame.supplies (hSupplies.of_eq rfl rfl))
      · cases hContains with
        | refl => exact .inr (List.mem_singleton_self c)
        | captured hMem hContains =>
            exact .inl ⟨_, (supplies_of_closure? hMade).1 _ hMem, hContains⟩

/-- The closures that a command makes have the identities that are still free, one after another. -/
theorem map_identity (h : Effect limit s command made answer) :
    made.map Closure.identity = List.range' s.nextIdentity made.length := by
  cases h with
  | run _ hBegins => rw [Machine.map_identity_made, (supplies_of_begins hBegins).2]
  | closure _ hMade => simp [(supplies_of_closure? hMade).2]
  | _ => rfl

/-- Making closures uses up their identities, and nothing else does. -/
theorem nextIdentity (h : Effect limit s command made answer) :
    answer.2.nextIdentity = s.nextIdentity + made.length := by
  cases h with
  | silent _ _ hSame | environment hSame | value hSame => simp [hSame.nextIdentity]
  | lost | inspection => rfl
  | run _ hBegins =>
      rw [nextIdentity_keepOutcome, Machine.snd_run, (supplies_of_begins hBegins).2]
  | closure hSame => simp [hSame.nextIdentity]

end Effect

/-- The closures that commands make one after another, in order. -/
def madeAll (limit : Nat) (s : Session) : List Command → List (Closure Value)
  | [] => []
  | command :: rest =>
    s.made limit command ++ madeAll limit (s.perform limit command).2 rest

theorem madeAll_append (limit : Nat) (s : Session) (before after : List Command) :
    s.madeAll limit (before ++ after) =
      s.madeAll limit before ++ (s.performAll limit before).2.madeAll limit after := by
  induction before generalizing s with
  | nil => rfl
  | cons command before ih => simp only [List.cons_append, madeAll, performAll, ih,
      List.append_assoc]

theorem map_identity_madeAll (limit : Nat) (s : Session) (commands : List Command) :
    (s.madeAll limit commands).map Closure.identity =
      List.range' s.nextIdentity (s.madeAll limit commands).length := by
  induction commands generalizing s with
  | nil => rfl
  | cons command commands ih =>
      have hEffect := effect_perform limit s command
      rw [madeAll, List.map_append, List.length_append, ih, hEffect.map_identity,
        hEffect.nextIdentity, List.range'_append_1]

/-- A closure that turns up in the answers to commands, or in what is stored after them, has been
stored before or has been made by one of them. -/
theorem holds_or_mem_madeAll
    (hGives : (∃ reply ∈ (s.performAll limit commands).1, v ∈ reply.values) ∨
      (s.performAll limit commands).2.Supplies v)
    (hContains : v.Contains (.closure c)) : s.Holds c ∨ c ∈ s.madeAll limit commands := by
  induction commands generalizing s v with
  | nil =>
      rcases hGives with ⟨reply, hMem, -⟩ | hSupplies
      · cases hMem
      · exact .inl ⟨v, hSupplies, hContains⟩
  | cons command commands ih =>
      have hEffect := effect_perform limit s command
      have hFirst : ∀ {w}, Gives (s.perform limit command) w → w.Contains (.closure c) →
          s.Holds c ∨ c ∈ s.madeAll limit (command :: commands) := fun hGives hContains =>
        (hEffect.holds_or_mem hGives hContains).imp_right (List.mem_append_left _)
      have hRest : (s.perform limit command).2.Holds c ∨
          c ∈ (s.perform limit command).2.madeAll limit commands →
            s.Holds c ∨ c ∈ s.madeAll limit (command :: commands) := by
        rintro (⟨w, hSupplies, hContains⟩ | hMade)
        · exact hFirst (.inr hSupplies) hContains
        · exact .inr (List.mem_append_right _ hMade)
      rcases hGives with ⟨reply, hMem, hValue⟩ | hSupplies
      · rcases List.mem_cons.1 hMem with rfl | hMem
        · exact hFirst (.inl hValue) hContains
        · exact hRest (ih (.inl ⟨reply, hMem, hValue⟩) hContains)
      · exact hRest (ih (.inr hSupplies) hContains)

/-- A closure occurs in a session, however deep in captured environments: in an answer, in what is
stored after some of the commands, or in a moment of a run that a command has started. -/
inductive Occurs (limit : Nat) (commands : List Command) (c : Closure Value) : Prop where
  | answered {reply : Reply} {v : Value} (hReply : reply ∈ (initial.performAll limit commands).1)
      (hValue : v ∈ reply.values) (h : v.Contains (.closure c)) : Occurs limit commands c
  | stored {before after : List Command} (hSplit : before ++ after = commands)
      (h : (initial.performAll limit before).2.Holds c) : Occurs limit commands c
  | running {before after : List Command} {command : Command} {names : Interner}
      {start moment : Machine.Configuration} {steps : Nat}
      (hSplit : before ++ command :: after = commands)
      (hBegins : (initial.performAll limit before).2.begins command = some (names, start))
      (hSteps : steps ≤ limit) (hMoment : Machine.moment? names steps start = some moment)
      (h : moment.Holds (.closure c)) : Occurs limit commands c

theorem mem_madeAll_of_performAll
    (hGives : (∃ reply ∈ (initial.performAll limit commands).1, v ∈ reply.values) ∨
      (initial.performAll limit commands).2.Supplies v)
    (hContains : v.Contains (.closure c)) : c ∈ initial.madeAll limit commands :=
  (holds_or_mem_madeAll hGives hContains).resolve_left not_holds_initial

/-- A closure that occurs in a session has been made in it. -/
theorem Occurs.mem_madeAll (h : Occurs limit commands c) : c ∈ initial.madeAll limit commands := by
  cases h with
  | answered hReply hValue h => exact mem_madeAll_of_performAll (.inl ⟨_, hReply, hValue⟩) h
  | stored hSplit h =>
      obtain ⟨v, hSupplies, hContains⟩ := h
      subst hSplit
      rw [madeAll_append]
      exact List.mem_append_left _ (mem_madeAll_of_performAll (.inr hSupplies) hContains)
  | @running before after command names start moment steps hSplit hBegins hSteps hMoment h =>
      subst hSplit
      rw [madeAll_append, madeAll]
      -- The run started from what earlier commands have left, or it has made the closure itself.
      rcases Machine.holds_of_moment? hMoment h with ⟨v, hMem, hContains⟩ | hMade
      · have hSupplies := (supplies_of_begins hBegins).1 v hMem
        exact List.mem_append_left _ (mem_madeAll_of_performAll (.inr hSupplies) hContains)
      · refine List.mem_append_right _ (List.mem_append_left _ ?_)
        simp only [made, hBegins]
        exact Machine.made_subset hSteps start hMade

/-- The identity of a closure is its place in the order of making. -/
theorem identity_of_getElem?_madeAll {k : Nat}
    (h : (initial.madeAll limit commands)[k]? = some c) : c.identity = k := by
  obtain ⟨hLt, -⟩ := List.getElem?_eq_some_iff.1 h
  have hPlace : ((initial.madeAll limit commands).map Closure.identity)[k]? = some c.identity := by
    rw [List.getElem?_map, h, Option.map_some]
  rw [map_identity_madeAll, List.getElem?_range' hLt] at hPlace
  simpa [initial] using hPlace.symm

theorem equal_closure_iff_of_getElem? {k l : Nat} {d : Closure Value}
    (hc : (initial.madeAll limit commands)[k]? = some c)
    (hd : (initial.madeAll limit commands)[l]? = some d) :
    (Value.closure c).equal (.closure d) = true ↔ k = l := by
  rw [Value.equal, decide_eq_true_iff, identity_of_getElem?_madeAll hc,
    identity_of_getElem?_madeAll hd]

/-- Closures have a sound identity. Two closures that occur anywhere in a session are equal if and
only if they have been made at once, by one evaluation of a lambda or in answer to one command, and
then all that they consist of is the same; closures that have been made one after the other are not
equal. Closures turn up as they are: after a command there are no others than before and those that
the command has made, at any moment of a run there are no others than at its start and those that
the run has made, and what has been bound is what is looked up. So equality, which is what programs
ask for with `equal?`, is symmetric and transitive, never holds between two kinds, and holds of a
value and itself unless the value is not-a-number. -/
theorem closure_identity_sound (limit : Nat) (commands : List Command) :
    (∀ c d, Occurs limit commands c → Occurs limit commands d →
      ((Value.closure c).equal (.closure d) = true ↔
        ∃ k : Nat, (initial.madeAll limit commands)[k]? = some c ∧
          (initial.madeAll limit commands)[k]? = some d) ∧
      ((Value.closure c).equal (.closure d) = true →
        c.params = d.params ∧ c.body = d.body ∧ c.arena = d.arena ∧ c.env = d.env)) ∧
    (∀ (k l : Nat) c d, k ≠ l → (initial.madeAll limit commands)[k]? = some c →
      (initial.madeAll limit commands)[l]? = some d →
        (Value.closure c).equal (.closure d) = false) ∧
    (∀ (s : Session) command v c, Gives (s.perform limit command) v → v.Contains (.closure c) →
      s.Holds c ∨ c ∈ s.made limit command) ∧
    (∀ names steps start moment c, Machine.moment? names steps start = some moment →
      moment.Holds (.closure c) →
        start.Holds (.closure c) ∨ c ∈ Machine.made names steps start) ∧
    (∀ (env : Environment Value) x v, (env.bind x v).lookup x = some v) ∧
    (∀ (env env' : Environment Value) names vs, env.extend names vs = .ok env' → names.Nodup →
      ∀ x v, (x, v) ∈ names.zip vs → env'.lookup x = some v) ∧
    (∀ v w : Value, Primitive.equal.apply [v, w] = .ok (.bool (v.equal w))) ∧
    (∀ v w : Value, v.equal w = true → w.equal v = true) ∧
    (∀ u v w : Value, u.equal v = true → v.equal w = true → u.equal w = true) ∧
    (∀ v w : Value, v.equal w = true → v.kind = w.kind) ∧
    ∀ v : Value, v.equal v = true ↔ ∀ x, v = .number x → x.isNaN = false := by
  refine ⟨fun c d hc hd => ?_, fun k l c d hNe hc hd => ?_,
    fun s command v c => (effect_perform limit s command).holds_or_mem,
    fun _ _ _ _ _ => Machine.holds_of_moment?, fun env x v => ?_,
    fun _ _ _ _ hExtend hNodup _ _ => Environment.lookup_of_extend hExtend hNodup, fun _ _ => rfl,
    fun _ _ => Value.equal_symm, fun _ _ _ => Value.equal_trans,
    fun _ _ => Value.kind_eq_of_equal, fun _ => Value.equal_self_iff⟩
  · obtain ⟨k, hk⟩ := List.mem_iff_getElem?.1 hc.mem_madeAll
    obtain ⟨l, hl⟩ := List.mem_iff_getElem?.1 hd.mem_madeAll
    have hEqual := equal_closure_iff_of_getElem? hk hl
    have hSame : (Value.closure c).equal (.closure d) = true → c = d := by
      intro h
      rw [hEqual.1 h, hl] at hk
      exact (Option.some.inj hk).symm
    refine ⟨⟨fun h => ⟨k, hk, ?_⟩, ?_⟩, fun h => ?_⟩
    · rw [hk, hSame h]
    · rintro ⟨m, hm, hm'⟩
      exact (equal_closure_iff_of_getElem? hm hm').2 rfl
    · obtain rfl := hSame h
      exact ⟨rfl, rfl, rfl, rfl⟩
  · rw [← Bool.not_eq_true, equal_closure_iff_of_getElem? hc hd]
    exact hNe
  · rw [Environment.lookup_bind, if_pos rfl]

/-- One lambda evaluated twice, and the first closure bound and looked up. -/
theorem closure_identity_sound_twice :
    ∃ commands f g h,
      (initial.performAll 10 commands).2.values["f"]? = some (.closure f) ∧
      (initial.performAll 10 commands).2.values["g"]? = some (.closure g) ∧
      (initial.performAll 10 commands).2.values["h"]? = some (.closure h) ∧
      Occurs 10 commands f ∧ Occurs 10 commands h ∧
      (Value.closure f).equal (.closure g) = false ∧
      (Value.closure f).equal (.closure h) = true := by
  let lambda : Sexp := .list [.symbol "x", .symbol "=>", .symbol "x"]
  let commands : List Command := [.emptyEnv (some "e"), .eval "e" (.sexp lambda) (some "f"),
    .eval "e" (.sexp lambda) (some "g"), .bind "e" "y" (.stored "f") (some "with y"),
    .get "with y" "y" (some "h")]
  let closure (k : Nat) : Closure Value :=
    ⟨k, [⟨0⟩], ⟨0⟩, .empty, ⟨#[.identifier ⟨0⟩, .lambda ⟨0, 1⟩ ⟨0⟩], #[], #[⟨0⟩]⟩⟩
  have hf : (initial.performAll 10 commands).2.values["f"]? = some (.closure (closure 0)) := by cbv
  have hg : (initial.performAll 10 commands).2.values["g"]? = some (.closure (closure 1)) := by cbv
  have hh : (initial.performAll 10 commands).2.values["h"]? = some (.closure (closure 0)) := by cbv
  have hMade : initial.madeAll 10 commands = [closure 0, closure 1] := by cbv
  have hOccurs : Occurs 10 commands (closure 0) :=
    .stored (List.append_nil _) ⟨_, .stored hf, .refl _⟩
  have hSound := closure_identity_sound 10 commands
  refine ⟨commands, closure 0, closure 1, closure 0, hf, hg, hh, hOccurs, hOccurs, ?_, ?_⟩
  · exact hSound.2.1 0 1 _ _ (by decide) (by rw [hMade]; rfl) (by rw [hMade]; rfl)
  · exact (hSound.1 _ _ hOccurs hOccurs).1.2 ⟨0, by rw [hMade]; rfl, by rw [hMade]; rfl⟩

end ArrowLisp.Session
