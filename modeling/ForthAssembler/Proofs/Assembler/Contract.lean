import ForthAssembler.Assembler.State

/-! Contracts of actions: what holds after they succeed, and after they are refused. -/
namespace ForthAssembler

/-- The error of a branch or a call that goes too far, or nowhere. -/
def Error.OutOfReach : Error → Prop
  | addressOverflow _ => True
  | _ => False

namespace Action
variable {α β : Type}

/-- From `a`, the action either succeeds with `ok` or fails with `failed`. -/
def Yields (x : Action α) (ok : α → Assembler → Prop) (failed : Halt → Assembler → Prop)
    (a : Assembler) : Prop :=
  match x.run a with
  | .ok v a' => ok v a'
  | .error halt a' => failed halt a'

/-- From `a`, the action either succeeds with `ok` or is refused with `refused`. It relies on
nothing that could fail. -/
def Ensures (x : Action α) (ok : α → Assembler → Prop) (refused : Error → Assembler → Prop)
    (a : Assembler) : Prop :=
  match x.run a with
  | .ok v a' => ok v a'
  | .error (.refused e) a' => refused e a'
  | .error (.violated _) _ => False

/-- From `a`, the action either succeeds with `ok` or is refused with `refused`. An assertion may
fail only if `violated`. -/
def Meets (x : Action α) (ok : α → Assembler → Prop) (refused : Error → Assembler → Prop)
    (violated : Prop) (a : Assembler) : Prop :=
  match x.run a with
  | .ok v a' => ok v a'
  | .error (.refused e) a' => refused e a'
  | .error (.violated _) _ => violated

section
variable {a : Assembler}

theorem run_get_bind (f : Assembler → Action α) : (get >>= f).run a = (f a).run a := rfl

theorem run_takeAwaiting_bind (f : Awaiting → Action α) :
    (takeAwaiting >>= f).run a = (f a.awaiting).run { a with awaiting := .nothing } := rfl

theorem run_requireClosed_bind (f : Unit → Action α) :
    (requireClosed >>= f).run a =
      if a.isCompiling then .error (.refused .definitionOpen) a else (f ()).run a := by
  change ((if a.isCompiling then refuse .definitionOpen else pure ()) >>= f).run a = _
  split <;> rfl

theorem run_map (f : α → β) (x : Action α) :
    (f <$> x).run a =
      match x.run a with
      | .ok v b => .ok (f v) b
      | .error halt b => .error halt b := by
  simp only [Functor.map, EStateM.map, EStateM.run]
  cases x a <;> rfl

/-- What succeeds does so step by step. -/
theorem exists_of_run_bind {x : Action α} {f : α → Action β} {w : β} {c : Assembler}
    (h : (x >>= f).run a = .ok w c) : ∃ v b, x.run a = .ok v b ∧ (f v).run b = .ok w c := by
  simp only [EStateM.run, bind, EStateM.bind] at h
  split at h
  · exact ⟨_, _, ‹_›, h⟩
  · cases h

theorem exists_of_run_map {x : Action α} {f : α → β} {w : β} {c : Assembler}
    (h : (f <$> x).run a = .ok w c) : ∃ v, x.run a = .ok v c := by
  simp only [EStateM.run, Functor.map, EStateM.map] at h
  split at h
  · cases h
    exact ⟨_, ‹_›⟩
  · cases h

end

section
variable {ok ok' : α → Assembler → Prop} {failed failed' : Halt → Assembler → Prop}
  {a : Assembler}

theorem Yields.mono {x : Action α} (h : x.Yields ok failed a) (hok : ∀ v a', ok v a' → ok' v a')
    (hfailed : ∀ halt a', failed halt a' → failed' halt a') : x.Yields ok' failed' a := by
  unfold Yields at h ⊢
  split at h
  · exact hok _ _ h
  · exact hfailed _ _ h

theorem Yields.imp {x : Action α} (h : x.Yields ok failed a) (hok : ∀ v a', ok v a' → ok' v a') :
    x.Yields ok' failed a :=
  h.mono hok fun _ _ hfailed => hfailed

theorem Yields.imp_failed {x : Action α} (h : x.Yields ok failed a)
    (hfailed : ∀ halt a', failed halt a' → failed' halt a') : x.Yields ok failed' a :=
  h.mono (fun _ _ hok => hok) hfailed

theorem Yields.run_cases {x : Action α} (h : x.Yields ok failed a) :
    (∃ v a', x.run a = .ok v a' ∧ ok v a') ∨
      ∃ halt a', x.run a = .error halt a' ∧ failed halt a' := by
  unfold Yields at h
  split at h
  · exact .inl ⟨_, _, ‹_›, h⟩
  · exact .inr ⟨_, _, ‹_›, h⟩

theorem Yields.of_ok {x : Action α} (h : x.Yields ok failed a) {v : α} {a' : Assembler}
    (hrun : x.run a = .ok v a') : ok v a' := by
  simpa only [Yields, hrun] using h

theorem Yields.of_error {x : Action α} (h : x.Yields ok failed a) {halt : Halt} {a' : Assembler}
    (hrun : x.run a = .error halt a') : failed halt a' := by
  simpa only [Yields, hrun] using h

/-- What came of the action is what the contract speaks of. -/
theorem Yields.with_run {x : Action α} (h : x.Yields ok failed a) :
    x.Yields (fun v a' => x.run a = .ok v a' ∧ ok v a')
      (fun halt a' => x.run a = .error halt a' ∧ failed halt a') a := by
  unfold Yields at h ⊢
  split at h
  · exact ⟨‹_›, h⟩
  · exact ⟨‹_›, h⟩

@[simp] theorem yields_pure (v : α) : (pure v : Action α).Yields ok failed a ↔ ok v a := Iff.rfl

@[simp] theorem yields_bind (x : Action β) (f : β → Action α) :
    (x >>= f).Yields ok failed a ↔ x.Yields (fun v => (f v).Yields ok failed) failed a := by
  simp only [Yields, bind, EStateM.bind, EStateM.run]
  cases x a <;> rfl

@[simp] theorem yields_map (f : β → α) (x : Action β) :
    (f <$> x).Yields ok failed a ↔ x.Yields (fun v => ok (f v)) failed a := by
  simp only [Yields, Functor.map, EStateM.map, EStateM.run]
  cases x a <;> rfl

@[simp] theorem yields_throw (halt : Halt) :
    (throw halt : Action α).Yields ok failed a ↔ failed halt a := Iff.rfl

@[simp] theorem yields_refuse (e : Error) :
    (refuse e : Action α).Yields ok failed a ↔ failed (.refused e) a := Iff.rfl

@[simp] theorem yields_ite (c : Prop) [Decidable c] (x y : Action α) :
    Yields (if c then x else y) ok failed a ↔
      (c → x.Yields ok failed a) ∧ (¬ c → y.Yields ok failed a) := by
  by_cases h : c <;> simp [h]

@[simp] theorem yields_ofExcept (r : Except Error α) :
    (ofExcept r).Yields ok failed a ↔
      (∀ v, r = .ok v → ok v a) ∧ ∀ e, r = .error e → failed (.refused e) a := by
  cases r <;> simp [ofExcept]

theorem yields_ofExcept_mapError {ε : Type} (f : ε → Error) (r : Except ε α) :
    (ofExcept (r.mapError f)).Yields ok failed a ↔
      (∀ v, r = .ok v → ok v a) ∧ ∀ e, r = .error e → failed (.refused (f e)) a := by
  cases r with
  | ok v =>
    change ok v a ↔ _
    simp
  | error e =>
    change failed (.refused (f e)) a ↔ _
    simp

@[simp] theorem yields_ofChecked (r : Except Assertion α) :
    (ofChecked r).Yields ok failed a ↔
      (∀ v, r = .ok v → ok v a) ∧
        ∀ assertion, r = .error assertion → failed (.violated assertion) a := by
  cases r <;> simp [ofChecked]

@[simp] theorem yields_ofHalting (r : Except Halt α) :
    (ofHalting r).Yields ok failed a ↔
      (∀ v, r = .ok v → ok v a) ∧ ∀ halt, r = .error halt → failed halt a := by
  cases r <;> simp [ofHalting]

end

section
variable {failed : Halt → Assembler → Prop} {a : Assembler}

@[simp] theorem yields_get {ok : Assembler → Assembler → Prop} :
    (get : Action Assembler).Yields ok failed a ↔ ok a a := Iff.rfl

@[simp] theorem yields_modify {ok : PUnit → Assembler → Prop} (f : Assembler → Assembler) :
    (modify f : Action PUnit).Yields ok failed a ↔ ok ⟨⟩ (f a) := Iff.rfl

@[simp] theorem yields_setDictionary {ok : Unit → Assembler → Prop} (dictionary : Dictionary) :
    (setDictionary dictionary).Yields ok failed a ↔ ok () { a with dictionary } := Iff.rfl

@[simp] theorem yields_setFrames {ok : Unit → Assembler → Prop} (frames : List Frame) :
    (setFrames frames).Yields ok failed a ↔ ok () { a with frames } := Iff.rfl

@[simp] theorem yields_setMode {ok : Unit → Assembler → Prop} (mode : Mode) :
    (setMode mode).Yields ok failed a ↔ ok () { a with mode } := Iff.rfl

@[simp] theorem yields_await {ok : Unit → Assembler → Prop} (awaiting : Awaiting) :
    (await awaiting).Yields ok failed a ↔ ok () { a with awaiting } := Iff.rfl

@[simp] theorem yields_takeAwaiting {ok : Awaiting → Assembler → Prop} :
    takeAwaiting.Yields ok failed a ↔ ok a.awaiting { a with awaiting := .nothing } := Iff.rfl

@[simp] theorem yields_pushLiteral {ok : Unit → Assembler → Prop} (value : Int16) :
    (pushLiteral value).Yields ok failed a ↔
      ok () { a with literals := (value :: a.literals).take Assembler.literalLimit } := Iff.rfl

@[simp] theorem yields_popLiteral {ok : Int16 → Assembler → Prop} :
    popLiteral.Yields ok failed a ↔
      (a.literals = [] → failed (.refused .literalStackEmpty) a) ∧
        ∀ value literals, a.literals = value :: literals → ok value { a with literals } := by
  simp only [popLiteral, yields_bind, yields_get]
  cases h : a.literals <;> simp

@[simp] theorem yields_requireClosed {ok : Unit → Assembler → Prop} :
    requireClosed.Yields ok failed a ↔
      (a.definition ≠ none → failed (.refused .definitionOpen) a) ∧
        (a.definition = none → ok () a) := by
  simp only [requireClosed, yields_bind, yields_get, yields_ite, yields_refuse, yields_pure,
    Assembler.isCompiling, Option.isSome_iff_ne_none, Decidable.not_not]

end

section
variable {ok ok' : α → Assembler → Prop} {refused refused' : Error → Assembler → Prop}
  {violated violated' : Prop} {a : Assembler}

/-- What `Meets` says of failures. -/
def failing (refused : Error → Assembler → Prop) (violated : Prop) : Halt → Assembler → Prop
  | .refused e, a' => refused e a'
  | .violated _, _ => violated

theorem meets_eq_yields (x : Action α) :
    x.Meets ok refused violated = x.Yields ok (failing refused violated) := by
  funext a
  unfold Meets Yields
  rcases x.run a with ⟨v, a'⟩ | ⟨e | assertion, a'⟩ <;> rfl

theorem Meets.mono {x : Action α} (h : x.Meets ok refused violated a)
    (hok : ∀ v a', ok v a' → ok' v a') (hrefused : ∀ e a', refused e a' → refused' e a')
    (hviolated : violated → violated') : x.Meets ok' refused' violated' a := by
  unfold Meets at h ⊢
  split at h
  · exact hok _ _ h
  · exact hrefused _ _ h
  · exact hviolated h

theorem Meets.imp {x : Action α} (h : x.Meets ok refused violated a)
    (hok : ∀ v a', ok v a' → ok' v a') : x.Meets ok' refused violated a :=
  h.mono hok (fun _ _ hrefused => hrefused) id

theorem Meets.of_ok {x : Action α} (h : x.Meets ok refused violated a) {v : α} {a' : Assembler}
    (hrun : x.run a = .ok v a') : ok v a' := by
  simpa only [Meets, hrun] using h

theorem Meets.of_refused {x : Action α} (h : x.Meets ok refused violated a) {e : Error}
    {a' : Assembler} (hrun : x.run a = .error (.refused e) a') : refused e a' := by
  simpa only [Meets, hrun] using h

theorem Meets.run_cases {x : Action α} (h : x.Meets ok refused violated a) :
    (∃ v a', x.run a = .ok v a' ∧ ok v a') ∨
      (∃ e a', x.run a = .error (.refused e) a' ∧ refused e a') ∨
      ∃ assertion a', x.run a = .error (.violated assertion) a' ∧ violated := by
  unfold Meets at h
  split at h
  · exact .inl ⟨_, _, ‹_›, h⟩
  · exact .inr (.inl ⟨_, _, ‹_›, h⟩)
  · exact .inr (.inr ⟨_, _, ‹_›, h⟩)

/-- What is known of a refusal may be added. -/
theorem Meets.with_refused {x : Action α}
    (h : x.Meets ok (fun _ _ => True) violated a)
    (h' : x.Meets (fun _ _ => True) refused violated' a) : x.Meets ok refused violated a := by
  unfold Meets at h h' ⊢
  split at h
  · exact h
  · simpa [*] using h'
  · exact h

/-- Where no assertion fails, what is known of the successes and refusals otherwise may be added. -/
theorem Meets.and_ensures {x : Action α} (h : x.Meets ok refused violated a)
    (h' : x.Ensures ok' refused' a) :
    x.Ensures (fun v a' => ok v a' ∧ ok' v a') (fun e a' => refused e a' ∧ refused' e a') a := by
  unfold Meets at h
  unfold Ensures at h' ⊢
  split at h
  · exact ⟨h, by simpa [*] using h'⟩
  · exact ⟨h, by simpa [*] using h'⟩
  · simp [*] at h'

/-- A contract is one of what the action does, however it is written. -/
theorem Meets.of_run_eq {x y : Action α} (hrun : x.run a = y.run a)
    (h : y.Meets ok refused violated a) : x.Meets ok refused violated a := by
  unfold Meets
  rwa [hrun]

@[simp] theorem meets_pure (v : α) :
    (pure v : Action α).Meets ok refused violated a ↔ ok v a := Iff.rfl

@[simp] theorem meets_bind (x : Action β) (f : β → Action α) :
    (x >>= f).Meets ok refused violated a ↔
      x.Meets (fun v => (f v).Meets ok refused violated) refused violated a := by
  simp only [meets_eq_yields, yields_bind]

@[simp] theorem meets_map (f : β → α) (x : Action β) :
    (f <$> x).Meets ok refused violated a ↔
      x.Meets (fun v => ok (f v)) refused violated a := by
  simp only [meets_eq_yields, yields_map]

@[simp] theorem meets_refuse (e : Error) :
    (refuse e : Action α).Meets ok refused violated a ↔ refused e a := Iff.rfl

@[simp] theorem meets_throw_refused (e : Error) :
    (throw (.refused e) : Action α).Meets ok refused violated a ↔ refused e a := Iff.rfl

@[simp] theorem meets_throw_violated (assertion : Assertion) :
    (throw (.violated assertion) : Action α).Meets ok refused violated a ↔ violated := Iff.rfl

@[simp] theorem meets_ite (c : Prop) [Decidable c] (x y : Action α) :
    Meets (if c then x else y) ok refused violated a ↔
      (c → x.Meets ok refused violated a) ∧ (¬ c → y.Meets ok refused violated a) := by
  simp only [meets_eq_yields, yields_ite]

@[simp] theorem meets_ofExcept (r : Except Error α) :
    (ofExcept r).Meets ok refused violated a ↔
      (∀ v, r = .ok v → ok v a) ∧ ∀ e, r = .error e → refused e a := by
  simp only [meets_eq_yields, yields_ofExcept, failing]

@[simp] theorem meets_ofChecked (r : Except Assertion α) :
    (ofChecked r).Meets ok refused violated a ↔
      (∀ v, r = .ok v → ok v a) ∧ ∀ assertion, r = .error assertion → violated := by
  simp only [meets_eq_yields, yields_ofChecked, failing]

@[simp] theorem meets_ofHalting (r : Except Halt α) :
    (ofHalting r).Meets ok refused violated a ↔
      (∀ v, r = .ok v → ok v a) ∧ (∀ e, r = .error (.refused e) → refused e a) ∧
        ∀ assertion, r = .error (.violated assertion) → violated := by
  cases r with
  | ok v => simp [ofHalting]
  | error halt => cases halt <;> simp [ofHalting]

theorem meets_ofExcept_mapError {ε : Type} (f : ε → Error) (r : Except ε α) :
    (ofExcept (r.mapError f)).Meets ok refused violated a ↔
      (∀ v, r = .ok v → ok v a) ∧ ∀ e, r = .error e → refused (f e) a := by
  simp only [meets_eq_yields, yields_ofExcept_mapError, failing]

theorem Ensures.meets {x : Action α} (h : x.Ensures ok refused a) :
    x.Meets ok refused violated a :=
  Meets.mono h (fun _ _ hok => hok) (fun _ _ hrefused => hrefused) False.elim

/-- What comes of a refusal may not matter. -/
theorem Ensures.meets_ok {x : Action α} (h : x.Ensures ok refused a)
    (hok : ∀ v a', ok v a' → ok' v a') : x.Meets ok' (fun _ _ => True) violated a :=
  Meets.mono h hok (fun _ _ _ => trivial) False.elim

theorem Ensures.mono {x : Action α} (h : x.Ensures ok refused a)
    (hok : ∀ v a', ok v a' → ok' v a') (hrefused : ∀ e a', refused e a' → refused' e a') :
    x.Ensures ok' refused' a :=
  Meets.mono h hok hrefused id

theorem Ensures.imp {x : Action α} (h : x.Ensures ok refused a)
    (hok : ∀ v a', ok v a' → ok' v a') : x.Ensures ok' refused a :=
  Meets.imp h hok

/-- What fails is a refusal. -/
theorem ensures_iff_yields {x : Action α} :
    x.Ensures ok refused a ↔
      x.Yields ok (fun halt a' => ∃ e, halt = .refused e ∧ refused e a') a := by
  unfold Ensures Yields
  rcases x.run a with ⟨v, a'⟩ | ⟨e | assertion, a'⟩ <;> simp

theorem Ensures.yields {x : Action α} (h : x.Ensures ok refused a) :
    x.Yields ok (fun halt a' => ∃ e, halt = .refused e ∧ refused e a') a :=
  ensures_iff_yields.mp h

theorem Ensures.run_cases {x : Action α} (h : x.Ensures ok refused a) :
    (∃ v a', x.run a = .ok v a' ∧ ok v a') ∨
      ∃ e a', x.run a = .error (.refused e) a' ∧ refused e a' := by
  obtain hok | hrefused | ⟨_, _, _, hviolated⟩ := Meets.run_cases h
  · exact .inl hok
  · exact .inr hrefused
  · exact hviolated.elim

theorem Ensures.exists_run {x : Action α} (h : x.Ensures ok (fun _ _ => False) a) :
    ∃ v a', x.run a = .ok v a' ∧ ok v a' := by
  obtain hok | ⟨_, _, _, hrefused⟩ := h.run_cases
  · exact hok
  · exact hrefused.elim

theorem Ensures.of_ok {x : Action α} (h : x.Ensures ok refused a) {v : α} {a' : Assembler}
    (hrun : x.run a = .ok v a') : ok v a' :=
  Meets.of_ok h hrun

theorem Ensures.of_map_ok {x : Action α} (h : x.Ensures ok refused a) {f : α → β} {w : β}
    {a' : Assembler} (hrun : (f <$> x).run a = .ok w a') : ∃ v, w = f v ∧ ok v a' := by
  simp only [EStateM.run, Functor.map, EStateM.map] at hrun
  split at hrun
  · rename_i v b hx
    cases hrun
    exact ⟨v, rfl, h.of_ok hx⟩
  · cases hrun

theorem Ensures.of_refused {x : Action α} (h : x.Ensures ok refused a) {e : Error} {a' : Assembler}
    (hrun : x.run a = .error (.refused e) a') : refused e a' :=
  Meets.of_refused h hrun

theorem Ensures.not_violated {x : Action α} (h : x.Ensures ok refused a) (assertion : Assertion)
    (a' : Assembler) : x.run a ≠ .error (.violated assertion) a' := by
  intro hrun
  simp only [Ensures, hrun] at h

@[simp] theorem ensures_pure (v : α) : (pure v : Action α).Ensures ok refused a ↔ ok v a := Iff.rfl

@[simp] theorem ensures_bind (x : Action β) (f : β → Action α) :
    (x >>= f).Ensures ok refused a ↔ x.Ensures (fun v => (f v).Ensures ok refused) refused a :=
  meets_bind x f

@[simp] theorem ensures_map (f : β → α) (x : Action β) :
    (f <$> x).Ensures ok refused a ↔ x.Ensures (fun v => ok (f v)) refused a :=
  meets_map f x

@[simp] theorem ensures_refuse (e : Error) :
    (refuse e : Action α).Ensures ok refused a ↔ refused e a := Iff.rfl

@[simp] theorem ensures_throw_refused (e : Error) :
    (throw (.refused e) : Action α).Ensures ok refused a ↔ refused e a := Iff.rfl

@[simp] theorem ensures_throw_violated (assertion : Assertion) :
    (throw (.violated assertion) : Action α).Ensures ok refused a ↔ False := Iff.rfl

@[simp] theorem ensures_ite (c : Prop) [Decidable c] (x y : Action α) :
    Ensures (if c then x else y) ok refused a ↔
      (c → x.Ensures ok refused a) ∧ (¬ c → y.Ensures ok refused a) :=
  meets_ite c x y

@[simp] theorem ensures_ofExcept (r : Except Error α) :
    (ofExcept r).Ensures ok refused a ↔
      (∀ v, r = .ok v → ok v a) ∧ ∀ e, r = .error e → refused e a :=
  meets_ofExcept r

theorem ensures_ofExcept_mapError {ε : Type} (f : ε → Error) (r : Except ε α) :
    (ofExcept (r.mapError f)).Ensures ok refused a ↔
      (∀ v, r = .ok v → ok v a) ∧ ∀ e, r = .error e → refused (f e) a :=
  meets_ofExcept_mapError f r

@[simp] theorem ensures_ofChecked (r : Except Assertion α) :
    (ofChecked r).Ensures ok refused a ↔ ∃ v, r = .ok v ∧ ok v a := by
  cases r with
  | ok v => simp [ofChecked]
  | error assertion => simp [ofChecked]

@[simp] theorem ensures_ofHalting (r : Except Halt α) :
    (ofHalting r).Ensures ok refused a ↔
      (∀ v, r = .ok v → ok v a) ∧ (∀ e, r = .error (.refused e) → refused e a) ∧
        ∀ assertion, r ≠ .error (.violated assertion) :=
  meets_ofHalting r

end

section
variable {refused : Error → Assembler → Prop} {violated : Prop} {a : Assembler}

@[simp] theorem meets_get {ok : Assembler → Assembler → Prop} :
    (get : Action Assembler).Meets ok refused violated a ↔ ok a a := Iff.rfl

@[simp] theorem meets_modify {ok : PUnit → Assembler → Prop} (f : Assembler → Assembler) :
    (modify f : Action PUnit).Meets ok refused violated a ↔ ok ⟨⟩ (f a) := Iff.rfl

@[simp] theorem meets_setDictionary {ok : Unit → Assembler → Prop} (dictionary : Dictionary) :
    (setDictionary dictionary).Meets ok refused violated a ↔ ok () { a with dictionary } := Iff.rfl

@[simp] theorem meets_setFrames {ok : Unit → Assembler → Prop} (frames : List Frame) :
    (setFrames frames).Meets ok refused violated a ↔ ok () { a with frames } := Iff.rfl

@[simp] theorem meets_setMode {ok : Unit → Assembler → Prop} (mode : Mode) :
    (setMode mode).Meets ok refused violated a ↔ ok () { a with mode } := Iff.rfl

@[simp] theorem meets_await {ok : Unit → Assembler → Prop} (awaiting : Awaiting) :
    (await awaiting).Meets ok refused violated a ↔ ok () { a with awaiting } := Iff.rfl

@[simp] theorem meets_takeAwaiting {ok : Awaiting → Assembler → Prop} :
    takeAwaiting.Meets ok refused violated a ↔
      ok a.awaiting { a with awaiting := .nothing } := Iff.rfl

@[simp] theorem meets_pushLiteral {ok : Unit → Assembler → Prop} (value : Int16) :
    (pushLiteral value).Meets ok refused violated a ↔
      ok () { a with literals := (value :: a.literals).take Assembler.literalLimit } := Iff.rfl

@[simp] theorem meets_popLiteral {ok : Int16 → Assembler → Prop} :
    popLiteral.Meets ok refused violated a ↔
      (a.literals = [] → refused .literalStackEmpty a) ∧
        ∀ value literals, a.literals = value :: literals → ok value { a with literals } := by
  simp only [meets_eq_yields, yields_popLiteral, failing]

@[simp] theorem meets_requireClosed {ok : Unit → Assembler → Prop} :
    requireClosed.Meets ok refused violated a ↔
      (a.definition ≠ none → refused .definitionOpen a) ∧ (a.definition = none → ok () a) := by
  simp only [meets_eq_yields, yields_requireClosed, failing]

@[simp] theorem ensures_get {ok : Assembler → Assembler → Prop} :
    (get : Action Assembler).Ensures ok refused a ↔ ok a a := Iff.rfl

@[simp] theorem ensures_modify {ok : PUnit → Assembler → Prop} (f : Assembler → Assembler) :
    (modify f : Action PUnit).Ensures ok refused a ↔ ok ⟨⟩ (f a) := Iff.rfl

@[simp] theorem ensures_setDictionary {ok : Unit → Assembler → Prop} (dictionary : Dictionary) :
    (setDictionary dictionary).Ensures ok refused a ↔ ok () { a with dictionary } := Iff.rfl

@[simp] theorem ensures_setFrames {ok : Unit → Assembler → Prop} (frames : List Frame) :
    (setFrames frames).Ensures ok refused a ↔ ok () { a with frames } := Iff.rfl

@[simp] theorem ensures_setMode {ok : Unit → Assembler → Prop} (mode : Mode) :
    (setMode mode).Ensures ok refused a ↔ ok () { a with mode } := Iff.rfl

@[simp] theorem ensures_await {ok : Unit → Assembler → Prop} (awaiting : Awaiting) :
    (await awaiting).Ensures ok refused a ↔ ok () { a with awaiting } := Iff.rfl

@[simp] theorem ensures_takeAwaiting {ok : Awaiting → Assembler → Prop} :
    takeAwaiting.Ensures ok refused a ↔ ok a.awaiting { a with awaiting := .nothing } := Iff.rfl

@[simp] theorem ensures_pushLiteral {ok : Unit → Assembler → Prop} (value : Int16) :
    (pushLiteral value).Ensures ok refused a ↔
      ok () { a with literals := (value :: a.literals).take Assembler.literalLimit } := Iff.rfl

@[simp] theorem ensures_popLiteral {ok : Int16 → Assembler → Prop} :
    popLiteral.Ensures ok refused a ↔
      (a.literals = [] → refused .literalStackEmpty a) ∧
        ∀ value literals, a.literals = value :: literals → ok value { a with literals } :=
  meets_popLiteral

@[simp] theorem ensures_requireClosed {ok : Unit → Assembler → Prop} :
    requireClosed.Ensures ok refused a ↔
      (a.definition ≠ none → refused .definitionOpen a) ∧ (a.definition = none → ok () a) :=
  meets_requireClosed

end
end Action
end ForthAssembler
