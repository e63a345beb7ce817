import ArrowLisp.Proofs.Environments
import ArrowLisp.Proofs.FreeNames
import ArrowLisp.Proofs.Resemblance

/-!
Values that stand for each other in two runs. A likeness says which names, which identities of
closures and which nodes stand for each other, and values are alike if they are the same up to this.
Of the environment that a closure has captured only what its free names are bound to matters, so
frames may be many or few and other bindings are ignored.
-/

namespace ArrowLisp

/-- What stands for what in two runs: names, identities of closures, and nodes in their arenas. -/
structure Likeness where
  name : Name → Name → Prop
  identity : Nat → Nat → Prop
  node : Arena → NodeId → Arena → NodeId → Prop

variable {L : Likeness}

/-- Values that stand for each other. -/
inductive Value.Alike (L : Likeness) : Value → Value → Prop where
  | number (x : Float) : Alike L (.number x) (.number x)
  | bool (b : Bool) : Alike L (.bool b) (.bool b)
  | string (s : String) : Alike L (.string s) (.string s)
  | primitive (op : Primitive) : Alike L (.primitive op) (.primitive op)
  | closure {c d : Closure Value} (hIdentity : L.identity c.identity d.identity)
      (hParams : List.Forall₂ L.name c.params d.params)
      (hBody : L.node c.arena c.body d.arena d.body)
      (hBound : ∀ x y, L.name x y → c.Free x →
        (c.env.lookup x).isSome = (d.env.lookup y).isSome)
      (hValues : ∀ x y v w, L.name x y → c.Free x → c.env.lookup x = some v →
        d.env.lookup y = some w → Alike L v w) :
      Alike L (.closure c) (.closure d)

/-- Environments in which the names of a kind and those that stand for them are bound alike. -/
def Environment.AlikeOn (L : Likeness) (S : Name → Prop) (env env' : Environment Value) : Prop :=
  ∀ x y, L.name x y → S x → Option.Rel (Value.Alike L) (env.lookup x) (env'.lookup y)

namespace Value.Alike

variable {v w : Value} {c d : Closure Value}

theorem of_env (hIdentity : L.identity c.identity d.identity)
    (hParams : List.Forall₂ L.name c.params d.params)
    (hBody : L.node c.arena c.body d.arena d.body) (hEnv : c.env.AlikeOn L c.Free d.env) :
    Alike L (.closure c) (.closure d) := by
  refine .closure hIdentity hParams hBody (fun x y hName hFree => ?_)
    fun x y v w hName hFree hv hw => ?_
  · exact (optionRel_iff.1 (hEnv x y hName hFree)).1
  · exact (optionRel_iff.1 (hEnv x y hName hFree)).2 v w hv hw

theorem env (h : Alike L (.closure c) (.closure d)) : c.env.AlikeOn L c.Free d.env := by
  cases h with
  | closure _ _ _ hBound hValues =>
      exact fun x y hName hFree => optionRel_iff.2
        ⟨hBound x y hName hFree, fun v w => hValues x y v w hName hFree⟩

theorem resembles (h : Alike L v w) : v.Resembles L.identity w := by
  cases h with
  | closure hIdentity => exact .closure hIdentity
  | _ => constructor

/-- Values stay alike under a likeness that has more pairs, as long as it has no new pairs for the
free names of nodes that stood for each other before. -/
theorem mono {L' : Likeness} (h : Alike L v w) (hName : ∀ x y, L.name x y → L'.name x y)
    (hIdentity : ∀ k l, L.identity k l → L'.identity k l)
    (hNode : ∀ a id b id', L.node a id b id' → L'.node a id b id')
    (hFree : ∀ a id b id' x y, L.node a id b id' → a.Free x id → L'.name x y → L.name x y) :
    Alike L' v w := by
  induction h with
  | closure hSame hParams hBody hBound _ ih =>
      refine .closure (hIdentity _ _ hSame) (hParams.imp hName) (hNode _ _ _ _ hBody)
        (fun x y hxy hx => ?_) fun x y v w hxy hx => ?_
      · exact hBound x y (hFree _ _ _ _ x y hBody hx.1 hxy) hx
      · exact ih x y v w (hFree _ _ _ _ x y hBody hx.1 hxy) hx
  | _ => constructor

end Value.Alike

namespace Environment.AlikeOn

variable {S T : Name → Prop} {env env' : Environment Value}

theorem mono (h : env.AlikeOn L S env') (hImp : ∀ x, T x → S x) : env.AlikeOn L T env' :=
  fun x y hName hT => h x y hName (hImp x hT)

/-- In a new frame the parameters are bound alike, and behind it what was bound alike before. -/
theorem withFrame (hUnique : Relator.BiUnique L.name) {params params' : List Name}
    (h : env.AlikeOn L (fun x => S x ∧ x ∉ params) env')
    (hParams : List.Forall₂ L.name params params') {vs ws : List Value}
    (hArgs : List.Forall₂ (Value.Alike L) vs ws) (hLength : params.length = vs.length) :
    (env.withFrame (params.zip vs)).AlikeOn L S (env'.withFrame (params'.zip ws)) := by
  intro x y hName hx
  have hSame : List.Forall₂ (fun z z' => x = z ↔ y = z') params params' :=
    hParams.imp fun _ _ hParam => Relator.rel_eq hUnique hName hParam
  refine rel_lookup_withFrame (Frame.rel_find?_ofList_zip hSame hArgs)
    fun hNone => h x y hName ⟨hx, ?_⟩
  rw [← Frame.isSome_find?_ofList_zip hLength, hNone]
  exact Bool.false_ne_true

end Environment.AlikeOn

end ArrowLisp
