import ArrowLisp.Json.Grammar
import ArrowLisp.Proofs.Json.Token

/-!
JSON values and the tokens that they are read from. Tokens stand for a value at any place where the
nesting leaves room for it, so the tokens of arrays and objects are put together from those of their
parts. In the other direction, what has been read at any moment is the texts of the containers that
are open, and of the values in them that are complete.
-/

namespace ArrowLisp.Json

variable {n : Nat} {ts : List Token} {j : Json} {around : List OpenContainer} {cs us : List Char}
  {t : Token} {s next : State}

/-- Tokens stand for a value wherever the nesting leaves room for `n` more levels. -/
structure Denotes (n : Nat) (ts : List Token) (j : Json) : Prop where
  /-- A value does not begin like the end of an array. -/
  first : ∃ t rest, ts = t :: rest ∧ t ≠ .closeBracket
  run : ∀ around : List OpenContainer, around.length + n ≤ maxDepth →
    ts.foldlM State.step (.value around) = .ok (.deliver j around)

/-- Members under the same names and related by their values. -/
inductive Members {α : Type} (R : α → Json → Prop) :
    List (String × α) → List (String × Json) → Prop where
  | nil : Members R [] []
  | cons {a : α} {j : Json} {given : List (String × α)} {members : List (String × Json)}
      (name : String) (hValue : R a j) (hMembers : Members R given members) :
      Members R ((name, a) :: given) ((name, j) :: members)

theorem bind_ok {ε α β : Type} (a : α) (f : α → Except ε β) : (Except.ok a >>= f) = f a := rfl

theorem exists_of_bind_ok {ε α β : Type} {x : Except ε α} {f : α → Except ε β} {b : β}
    (h : (x >>= f) = .ok b) : ∃ a, x = .ok a ∧ f a = .ok b := by
  cases x with
  | error e => cases h
  | ok a => exact ⟨a, rfl, h⟩

/-- Lists with a separator between them are the first one and, after it, each other one behind a
separator. -/
theorem intercalate_cons {α : Type} (sep xs : List α) (rest : List (List α)) :
    sep.intercalate (xs :: rest) = xs ++ rest.flatMap (sep ++ ·) := by
  induction rest generalizing xs with
  | nil => simp [List.intercalate]
  | cons next rest ih =>
      rw [List.intercalate_cons_cons, ih, List.flatMap_cons, List.append_assoc, List.append_assoc]

section Completeness

namespace Denotes

theorem scalar (j : Json) : Denotes n [.scalar j] j :=
  ⟨⟨_, _, rfl, by simp⟩, fun _ _ => rfl⟩

/-- A first item is read as any other item. -/
theorem run_arrayOpened (h : Denotes n ts j) (rest : List Token) :
    (ts ++ rest).foldlM State.step (.arrayOpened around) =
      (ts ++ rest).foldlM State.step (.value (.array [] :: around)) := by
  obtain ⟨t, more, rfl, hFirst⟩ := h.first
  have hStep :
      State.step (.arrayOpened around) t = State.step (.value (.array [] :: around)) t := by
    cases t <;> first | rfl | exact absurd rfl hFirst
  rw [List.cons_append, List.foldlM_cons, List.foldlM_cons, hStep]

theorem run_items {tss : List (List Token)} {items done : List Json} (h : Denotes n ts j)
    (hItems : List.Forall₂ (Denotes n) tss items) (hRoom : around.length + 1 + n ≤ maxDepth) :
    ([.comma].intercalate (ts :: tss)).foldlM State.step (.value (.array done :: around)) =
      .ok (.itemDone ((j :: items).reverse ++ done) around) := by
  induction hItems generalizing ts j done with
  | nil => simpa [List.intercalate, State.deliver] using h.run (.array done :: around) hRoom
  | cons hItem _ ih =>
      rw [List.intercalate_cons_cons, List.foldlM_append, List.foldlM_append,
        h.run (.array done :: around) hRoom]
      refine (ih hItem).trans ?_
      simp

/-- The tokens of an array, given those of its items. -/
theorem array {tss : List (List Token)} {items : List Json}
    (h : List.Forall₂ (Denotes n) tss items) :
    Denotes (n + 1) (.openBracket :: ([.comma].intercalate tss ++ [.closeBracket]))
      (.array items) := by
  refine ⟨⟨_, _, rfl, by simp⟩, fun around hRoom => ?_⟩
  have hOpen : State.step (.value around) .openBracket = .ok (.arrayOpened around) :=
    if_pos (show around.length < maxDepth by omega)
  rw [List.foldlM_cons, hOpen]
  cases h with
  | nil => rfl
  | @cons ts j tss items hItem hItems =>
      have hRest := intercalate_cons [.comma] ts tss
      have hRun : ([.comma].intercalate (ts :: tss)).foldlM State.step
          (.value (.array [] :: around)) =
            .ok (.itemDone ((j :: items).reverse ++ []) around) :=
        hItem.run_items hItems (by omega)
      rw [bind_ok]
      rw [hRest] at hRun ⊢
      rw [List.append_assoc, hItem.run_arrayOpened, ← List.append_assoc, List.foldlM_append, hRun]
      simp [bind, Except.bind, pure, Except.pure, State.step]

/-- The tokens of a member, given those of its value. -/
def memberTokens (member : String × List Token) : List Token :=
  .scalar (.string member.1) :: .colon :: member.2

theorem run_member (h : Denotes n ts j) (name : String) (held : List (String × Json))
    (hRoom : around.length + 1 + n ≤ maxDepth) :
    (memberTokens (name, ts)).foldlM State.step (.nextName held around) =
      .ok (.memberDone (insertMember name j held) around) :=
  h.run (.object held name :: around) hRoom

variable {spelled : List (String × List Token)} {members : List (String × Json)}

theorem run_members (h : Denotes n ts j) (hMembers : Members (Denotes n) spelled members)
    (name : String) (held : List (String × Json)) (hRoom : around.length + 1 + n ≤ maxDepth) :
    ([.comma].intercalate (memberTokens (name, ts) :: spelled.map memberTokens)).foldlM State.step
        (.nextName held around) =
      .ok (.memberDone (collect held ((name, j) :: members)) around) := by
  induction hMembers generalizing name ts j held with
  | nil => simpa [List.intercalate, collect] using h.run_member name held hRoom
  | cons next hValue _ ih =>
      rw [List.map_cons, List.intercalate_cons_cons, List.foldlM_append, List.foldlM_append,
        h.run_member name held hRoom]
      exact ih hValue next (insertMember name j held)

/-- The tokens of an object, given those of its members. Of members with one name, the last one
stays. -/
theorem object (h : Members (Denotes n) spelled members) :
    Denotes (n + 1)
      (.openBrace :: ([.comma].intercalate (spelled.map memberTokens) ++ [.closeBrace]))
      (.object (collect [] members)) := by
  refine ⟨⟨_, _, rfl, by simp⟩, fun around hRoom => ?_⟩
  have hOpen : State.step (.value around) .openBrace = .ok (.objectOpened around) :=
    if_pos (show around.length < maxDepth by omega)
  rw [List.foldlM_cons, hOpen]
  cases h with
  | nil => rfl
  | @cons ts j spelled members name hValue hMembers =>
      have hRest := intercalate_cons [.comma] (memberTokens (name, ts)) (spelled.map memberTokens)
      -- The first name is read as one that a comma asks for.
      have hRun :
          ([.comma].intercalate (memberTokens (name, ts) :: spelled.map memberTokens)).foldlM
              State.step (.objectOpened around) =
            .ok (.memberDone (collect [] ((name, j) :: members)) around) := by
        have hNext := hValue.run_members hMembers name []
          (show around.length + 1 + n ≤ maxDepth by omega)
        rw [hRest] at hNext ⊢
        exact hNext
      rw [bind_ok, List.map_cons, List.foldlM_append, hRun]
      rfl

end Denotes

theorem ofTokens_of_denotes (h : Denotes n ts j) (hRoom : n ≤ maxDepth) : ofTokens ts = .ok j := by
  rw [ofTokens, h.run [] (by simpa using hRoom)]
  rfl

end Completeness

section Soundness

/-- The text of an array up to a place where an item may begin, at a given depth. -/
structure InArray (outer : List Char → Prop) (depth : Nat) (items : List (List Char × Json))
    (cs : List Char) : Prop where
  exists_text : ∃ us gap, outer us ∧ Blanks gap ∧
    cs = us ++ (gap ++ '[' :: items.flatMap fun item => item.1 ++ [','])
  room : depth < maxDepth
  spelled : ∀ item ∈ items, Spelling (maxDepth - (depth + 1)) item.1 item.2

/-- The text of an object up to a place where a member may begin. -/
structure InObject (outer : List Char → Prop) (depth : Nat) (members : List MemberSpelling)
    (cs : List Char) : Prop where
  exists_text : ∃ us gap, outer us ∧ Blanks gap ∧
    cs = us ++ (gap ++ '\x7b' :: members.flatMap fun m => m.text ++ [','])
  room : depth < maxDepth
  names : ∀ m ∈ members, Quoted m.nameText m.name
  values : ∀ m ∈ members, Spelling (maxDepth - (depth + 1)) m.valueText m.value

/-- The text up to a place where a value may begin, and the containers that are open there. -/
def Awaits : List OpenContainer → List Char → Prop
  | [], cs => cs = []
  | .array done :: around, cs => ∃ items, InArray (Awaits around) around.length items cs ∧
      done = (items.map Prod.snd).reverse
  | .object held name :: around, cs => ∃ members us nameText,
      InObject (Awaits around) around.length members us ∧
      held = collect [] (members.map MemberSpelling.member) ∧ Quoted nameText name ∧
      cs = us ++ (nameText ++ [':'])

/-- The text that has been read in a state. -/
def State.Reads : State → List Char → Prop
  | .value around, cs => ∃ us gap, Awaits around us ∧ Blanks gap ∧ cs = us ++ gap
  | .arrayOpened around, cs => ∃ us gap, InArray (Awaits around) around.length [] us ∧
      Blanks gap ∧ cs = us ++ gap
  | .itemDone items around, cs => ∃ done us text j, Awaits (.array done :: around) us ∧
      Spelling (maxDepth - (around.length + 1)) text j ∧ items = j :: done ∧ cs = us ++ text
  | .objectOpened around, cs => ∃ us gap, InObject (Awaits around) around.length [] us ∧
      Blanks gap ∧ cs = us ++ gap
  | .nextName held around, cs => ∃ members us gap,
      InObject (Awaits around) around.length members us ∧
      held = collect [] (members.map MemberSpelling.member) ∧ Blanks gap ∧ cs = us ++ gap
  | .colon held name around, cs => ∃ members us nameText,
      InObject (Awaits around) around.length members us ∧
      held = collect [] (members.map MemberSpelling.member) ∧ Quoted nameText name ∧
      cs = us ++ nameText
  | .memberDone members around, cs => ∃ held name us text j,
      Awaits (.object held name :: around) us ∧
      Spelling (maxDepth - (around.length + 1)) text j ∧ members = insertMember name j held ∧
      cs = us ++ text
  | .complete j, cs => Spelling maxDepth cs j

theorem Blanks.snoc {gap : List Char} {c : Char} (h : Blanks gap)
    (hBlank : Token.isBlank c = true) : Blanks (gap ++ [c]) :=
  List.forall_mem_append.2 ⟨h, by simpa using hBlank⟩

/-- Blanks are read in every state. -/
theorem reads_blank {c : Char} (h : s.Reads cs) (hBlank : Token.isBlank c = true) :
    s.Reads (cs ++ [c]) := by
  cases s with
  | value | arrayOpened | objectOpened =>
      obtain ⟨us, gap, hOuter, hGap, rfl⟩ := h
      exact ⟨us, gap ++ [c], hOuter, hGap.snoc hBlank, List.append_assoc ..⟩
  | nextName =>
      obtain ⟨members, us, gap, hOuter, hHeld, hGap, rfl⟩ := h
      exact ⟨members, us, gap ++ [c], hOuter, hHeld, hGap.snoc hBlank, List.append_assoc ..⟩
  | itemDone =>
      obtain ⟨done, us, text, j, hOuter, hItem, hItems, rfl⟩ := h
      exact ⟨done, us, text ++ [c], j, hOuter, hItem.after hBlank, hItems, List.append_assoc ..⟩
  | colon =>
      obtain ⟨members, us, nameText, hOuter, hHeld, hName, rfl⟩ := h
      exact ⟨members, us, nameText ++ [c], hOuter, hHeld, hName.after hBlank, List.append_assoc ..⟩
  | memberDone =>
      obtain ⟨held, name, us, text, j, hOuter, hValue, hMembers, rfl⟩ := h
      exact ⟨held, name, us, text ++ [c], j, hOuter, hValue.after hBlank, hMembers,
        List.append_assoc ..⟩
  | complete j => exact .after hBlank h

/-- A value that is complete is handed to the container around it. -/
theorem reads_deliver {text : List Char} (h : Awaits around us)
    (hValue : Spelling (maxDepth - around.length) text j) :
    (State.deliver j around).Reads (us ++ text) := by
  cases around with
  | nil =>
      obtain rfl : us = [] := h
      exact hValue
  | cons c around =>
      cases c with
      | array done => exact ⟨done, us, text, j, h, hValue, rfl, rfl⟩
      | object held name => exact ⟨held, name, us, text, j, h, hValue, rfl, rfl⟩

/-- A container is complete, with the blanks before it. -/
theorem reads_container {gap text : List Char} (h : Awaits around us) (hGap : Blanks gap)
    (hRoom : around.length < maxDepth)
    (hValue : Spelling (maxDepth - (around.length + 1) + 1) text j) :
    (State.deliver j around).Reads (us ++ (gap ++ text)) := by
  rw [show maxDepth - (around.length + 1) + 1 = maxDepth - around.length by omega] at hValue
  exact reads_deliver h (hValue.blanks_before hGap)

theorem spelling_of_written {text : List Char} (h : Token.Written text (.scalar j)) :
    Spelling n text j := by
  cases h with
  | null => exact .null
  | bool b => exact .bool b
  | number hLiteral hValue => exact .number hLiteral hValue
  | string hContent => exact .string (.quotes hContent)

/-- A value begins: it is complete at once, or a container is opened. -/
theorem reads_startValue {text gap : List Char} (h : Awaits around us) (hGap : Blanks gap)
    (hToken : Token.Written text t) (hStep : State.startValue around t = .ok next) :
    next.Reads (us ++ gap ++ text) := by
  have hNone : Blanks [] := by simp [Blanks]
  cases t with
  | scalar j =>
      cases hStep
      rw [List.append_assoc]
      exact reads_deliver h ((spelling_of_written hToken).blanks_before hGap)
  | openBracket =>
      cases hToken
      simp only [State.startValue, State.nest] at hStep
      split_ifs at hStep with hRoom
      cases hStep
      exact ⟨_, [], ⟨⟨us, gap, h, hGap, rfl⟩, hRoom, by simp⟩, hNone, by simp⟩
  | openBrace =>
      cases hToken
      simp only [State.startValue, State.nest] at hStep
      split_ifs at hStep with hRoom
      cases hStep
      exact ⟨_, [], ⟨⟨us, gap, h, hGap, rfl⟩, hRoom, by simp, by simp⟩, hNone, by simp⟩
  | closeBracket | closeBrace | comma | colon => cases hStep

/-- Parts with a comma after each, and a last one, are these parts with commas between them. -/
theorem flatMap_append_eq_intercalate {α : Type} (f : α → List Char) (parts : List α)
    (last : List Char) :
    (parts.flatMap fun a => f a ++ [',']) ++ last = [','].intercalate (parts.map f ++ [last]) := by
  induction parts with
  | nil => simp [List.intercalate]
  | cons a parts ih =>
      obtain ⟨b, others, hRest⟩ := List.exists_cons_of_ne_nil
        (List.append_ne_nil_of_right_ne_nil (parts.map f) (List.cons_ne_nil last []))
      rw [List.map_cons, List.cons_append, hRest, List.intercalate_cons_cons, ← hRest, ← ih]
      simp

/-- An array ends after an item. -/
theorem reads_closeArray {text : List Char} {items : List (List Char × Json)}
    (h : InArray (Awaits around) around.length items us)
    (hItem : Spelling (maxDepth - (around.length + 1)) text j) :
    (State.deliver (.array (items.map Prod.snd ++ [j])) around).Reads (us ++ text ++ [']']) := by
  obtain ⟨⟨before, gap, hOuter, hGap, rfl⟩, hRoom, hSpelled⟩ := h
  have hItems : ∀ item ∈ items ++ [(text, j)],
      Spelling (maxDepth - (around.length + 1)) item.1 item.2 :=
    List.forall_mem_append.2 ⟨hSpelled, by simpa using hItem⟩
  have hReads := reads_container hOuter hGap hRoom (.array (by simp) hItems)
  rw [List.map_append, List.map_append, List.map_singleton, List.map_singleton,
    ← flatMap_append_eq_intercalate] at hReads
  simpa using hReads

/-- An object ends after a member. -/
theorem reads_closeObject {text nameText : List Char} {name : String}
    {members : List MemberSpelling} (h : InObject (Awaits around) around.length members us)
    (hName : Quoted nameText name)
    (hValue : Spelling (maxDepth - (around.length + 1)) text j) :
    (State.deliver (.object (insertMember name j
      (collect [] (members.map MemberSpelling.member)))) around).Reads
        (us ++ (nameText ++ [':']) ++ text ++ ['\x7d']) := by
  obtain ⟨⟨before, gap, hOuter, hGap, rfl⟩, hRoom, hNames, hValues⟩ := h
  let last : MemberSpelling := ⟨nameText, name, text, j⟩
  have hAllNames : ∀ m ∈ members ++ [last], Quoted m.nameText m.name :=
    List.forall_mem_append.2 ⟨hNames, by simpa using hName⟩
  have hAllValues : ∀ m ∈ members ++ [last],
      Spelling (maxDepth - (around.length + 1)) m.valueText m.value :=
    List.forall_mem_append.2 ⟨hValues, by simpa using hValue⟩
  have hReads := reads_container hOuter hGap hRoom (.object (by simp) hAllNames hAllValues)
  rw [List.map_append, List.map_append, List.map_singleton, List.map_singleton,
    ← flatMap_append_eq_intercalate, collect, List.foldl_append] at hReads
  simpa [collect, last, MemberSpelling.text, MemberSpelling.member] using hReads

theorem reads_closeEmptyArray {gap : List Char}
    (h : InArray (Awaits around) around.length [] us) (hGap : Blanks gap) :
    (State.deliver (.array []) around).Reads (us ++ gap ++ [']']) := by
  obtain ⟨⟨before, first, hOuter, hFirst, rfl⟩, hRoom, -⟩ := h
  simpa using reads_container hOuter hFirst hRoom (.emptyArray hGap)

theorem reads_closeEmptyObject {gap : List Char}
    (h : InObject (Awaits around) around.length [] us) (hGap : Blanks gap) :
    (State.deliver (.object []) around).Reads (us ++ gap ++ ['\x7d']) := by
  obtain ⟨⟨before, first, hOuter, hFirst, rfl⟩, hRoom, -, -⟩ := h
  simpa using reads_container hOuter hFirst hRoom (.emptyObject hGap)

/-- A comma after an item asks for another one. -/
theorem reads_nextItem {text : List Char} {items : List (List Char × Json)}
    (h : InArray (Awaits around) around.length items us)
    (hItem : Spelling (maxDepth - (around.length + 1)) text j) :
    (State.value (.array (j :: (items.map Prod.snd).reverse) :: around)).Reads
      (us ++ text ++ [',']) := by
  obtain ⟨⟨before, gap, hOuter, hGap, rfl⟩, hRoom, hSpelled⟩ := h
  refine ⟨_, [], ⟨items ++ [(text, j)], ⟨⟨before, gap, hOuter, hGap, rfl⟩, hRoom, ?_⟩, by simp⟩,
    by simp [Blanks], by simp⟩
  exact List.forall_mem_append.2 ⟨hSpelled, by simpa using hItem⟩

/-- A comma after a member asks for another name. -/
theorem reads_nextName {text nameText : List Char} {name : String} {members : List MemberSpelling}
    (h : InObject (Awaits around) around.length members us) (hName : Quoted nameText name)
    (hValue : Spelling (maxDepth - (around.length + 1)) text j) :
    (State.nextName (insertMember name j (collect [] (members.map MemberSpelling.member)))
      around).Reads (us ++ (nameText ++ [':']) ++ text ++ [',']) := by
  obtain ⟨⟨before, gap, hOuter, hGap, rfl⟩, hRoom, hNames, hValues⟩ := h
  refine ⟨members ++ [⟨nameText, name, text, j⟩], _, [],
    ⟨⟨before, gap, hOuter, hGap, rfl⟩, hRoom, ?_, ?_⟩, ?_, by simp [Blanks], ?_⟩
  · exact List.forall_mem_append.2 ⟨hNames, by simpa using hName⟩
  · exact List.forall_mem_append.2 ⟨hValues, by simpa using hValue⟩
  · simp [collect, MemberSpelling.member]
  · simp [MemberSpelling.text]

/-- A name in its quotes asks for a colon. -/
theorem reads_name {text gap : List Char} {name : String} {members : List MemberSpelling}
    (h : InObject (Awaits around) around.length members us) (hGap : Blanks gap)
    (hToken : Token.Written text (.scalar (.string name))) :
    (State.colon (collect [] (members.map MemberSpelling.member)) name around).Reads
      (us ++ gap ++ text) := by
  refine ⟨members, us, gap ++ text, h, rfl, ?_, List.append_assoc ..⟩
  cases hToken with
  | number _ hValue => exact absurd hValue (Numeral.toJson?_ne_string _)
  | string hContent => exact (Quoted.quotes hContent).blanks_before hGap

/-- Reading a token keeps account of the text. -/
theorem reads_step {text : List Char} (h : s.Reads cs) (hToken : Token.Written text t)
    (hStep : s.step t = .ok next) : next.Reads (cs ++ text) := by
  unfold State.step at hStep
  split at hStep
  -- A value comes next, as such or as the first item of an array.
  case h_1 =>
    obtain ⟨us, gap, hOuter, hGap, rfl⟩ := h
    exact reads_startValue hOuter hGap hToken hStep
  case h_3 =>
    obtain ⟨us, gap, hOuter, hGap, rfl⟩ := h
    have hAwaits : Awaits (.array [] :: _) us := ⟨[], hOuter, rfl⟩
    exact reads_startValue hAwaits hGap hToken hStep
  -- A container ends.
  case h_2 =>
    cases hStep
    cases hToken
    obtain ⟨us, gap, hOuter, hGap, rfl⟩ := h
    exact reads_closeEmptyArray hOuter hGap
  case h_5 =>
    cases hStep
    cases hToken
    obtain ⟨done, us, text, j, ⟨items, hOuter, rfl⟩, hItem, rfl, rfl⟩ := h
    simpa using reads_closeArray hOuter hItem
  case h_6 =>
    cases hStep
    cases hToken
    obtain ⟨us, gap, hOuter, hGap, rfl⟩ := h
    exact reads_closeEmptyObject hOuter hGap
  case h_11 =>
    cases hStep
    cases hToken
    obtain ⟨held, name, us, text, j, ⟨members, before, nameText, hOuter, rfl, hName, rfl⟩, hValue,
      rfl, rfl⟩ := h
    exact reads_closeObject hOuter hName hValue
  -- A comma or a colon asks for something more.
  case h_4 =>
    cases hStep
    cases hToken
    obtain ⟨done, us, text, j, ⟨items, hOuter, rfl⟩, hItem, rfl, rfl⟩ := h
    exact reads_nextItem hOuter hItem
  case h_9 =>
    cases hStep
    cases hToken
    obtain ⟨members, us, nameText, hOuter, hHeld, hName, rfl⟩ := h
    exact ⟨_, [], ⟨members, us, nameText, hOuter, hHeld, hName, rfl⟩, by simp [Blanks], by simp⟩
  case h_10 =>
    cases hStep
    cases hToken
    obtain ⟨held, name, us, text, j, ⟨members, before, nameText, hOuter, rfl, hName, rfl⟩, hValue,
      rfl, rfl⟩ := h
    exact reads_nextName hOuter hName hValue
  -- A name.
  case h_7 =>
    cases hStep
    obtain ⟨us, gap, hOuter, hGap, rfl⟩ := h
    have hReads := reads_name hOuter hGap hToken
    exact hReads
  case h_8 =>
    cases hStep
    obtain ⟨members, us, gap, hOuter, rfl, hGap, rfl⟩ := h
    exact reads_name hOuter hGap hToken
  case h_12 | h_13 => cases hStep

/-- Reading the tokens of a text keeps account of all of it. -/
theorem reads_of_lexed (h : Token.Lexed cs ts) (hRun : ts.foldlM State.step (.value []) = .ok s) :
    s.Reads cs := by
  induction h generalizing s with
  | nil =>
      cases hRun
      exact ⟨[], [], rfl, by simp [Blanks], rfl⟩
  | blank _ hBlank ih => exact reads_blank (ih hRun) hBlank
  | @token _ _ ts _ _ hToken ih =>
      rw [List.foldlM_append] at hRun
      obtain ⟨before, hBefore, hLast⟩ := exists_of_bind_ok hRun
      obtain ⟨after, hStep, hNone⟩ := exists_of_bind_ok hLast
      cases hNone
      exact reads_step (ih hBefore) hToken hStep

/-- A text from which a value is read is a spelling of that value. -/
theorem spelling_of_ofText {text : String} (h : ofText text = .ok j) :
    Spelling maxDepth text.toList j := by
  obtain ⟨ts, hTokens, hValue⟩ := exists_of_bind_ok h
  rw [ofTokens] at hValue
  split at hValue
  · next hRun =>
      cases hValue
      exact reads_of_lexed (Token.lexed_ofText hTokens) hRun
  · cases hValue
  · cases hValue

end Soundness

end ArrowLisp.Json
