import ForthAssembler.Proofs.Assembler.Stacking
import ForthAssembler.Proofs.Session.Lockstep

/-! The literals are the top of a stack that loses none of them. -/
namespace ForthAssembler
open Assembler Instr Text

/-- A stack without a limit, and how many of its topmost cells are in reach. -/
structure Tower where
  cells : List Int16
  reach : Nat
  deriving DecidableEq, Repr

namespace Tower

/-- The cells in reach. -/
def top (t : Tower) : List Int16 := t.cells.take t.reach

/-- The tower after a move. A cell that comes out of reach stays in the tower. -/
def after (t : Tower) : Move → Tower
  | .stay => t
  | .push value => ⟨value :: t.cells, min (t.reach + 1) Assembler.literalLimit⟩
  | .pop count => ⟨t.cells.drop count, t.reach - count⟩
  | .clear => ⟨[], 0⟩

/-- The literals are the cells of the tower that are in reach. -/
structure Bears (t : Tower) (literals : List Int16) : Prop where
  top : literals = t.top
  le_length : t.reach ≤ t.cells.length
  le_limit : t.reach ≤ Assembler.literalLimit

theorem bears_of_length_le {literals : List Int16}
    (h : literals.length ≤ Assembler.literalLimit) :
    Bears ⟨literals, literals.length⟩ literals where
  top := by rw [Tower.top, List.take_length]
  le_length := Nat.le_refl _
  le_limit := h

theorem Bears.length_eq {t : Tower} {literals : List Int16} (h : t.Bears literals) :
    literals.length = t.reach := by
  rw [h.top, Tower.top, List.length_take]
  exact Nat.min_eq_left h.le_length

theorem Bears.prefix {t : Tower} {literals : List Int16} (h : t.Bears literals) :
    literals <+: t.cells := by
  rw [h.top]
  exact List.take_prefix _ _

/-- By cases on the move. -/
theorem Bears.after {t : Tower} {literals : List Int16} (h : t.Bears literals) (move : Move) :
    (t.after move).Bears (move.kept literals) := by
  obtain ⟨rfl, hlength, hlimit⟩ := h
  cases move with
  | stay => exact ⟨rfl, hlength, hlimit⟩
  | push value =>
    constructor
    · show (value :: t.top).take Assembler.literalLimit = _
      rw [Tower.top, Tower.top, ← List.take_succ_cons, List.take_take, Nat.min_comm]
      rfl
    · show min (t.reach + 1) Assembler.literalLimit ≤ t.cells.length + 1
      omega
    · exact Nat.min_le_right _ _
  | pop count =>
    constructor
    · exact List.drop_take
    · show t.reach - count ≤ (t.cells.drop count).length
      rw [List.length_drop]
      omega
    · exact Nat.le_trans (Nat.sub_le _ _) hlimit
  | clear => exact ⟨rfl, Nat.le_refl _, Nat.zero_le _⟩

end Tower

/-- The tower after a word of input. Only a word that is accepted moves it. -/
def Assembler.raise (a : Assembler) (word : String) (t : Tower) : Tower :=
  match (Action.feed word).run a with
  | .ok _ _ => t.after (a.move word)
  | .error _ _ => t

/-- The tower after words that are fed, each in its state. -/
def Tower.afterWords (t : Tower) (fed : List (Assembler × String)) : Tower :=
  fed.foldl (fun t (a, word) => a.raise word t) t

namespace Operation

/-- The tower after an operation. A run is as many moves as words in it are accepted. -/
def raise (a : Assembler) (t : Tower) : Operation → Tower
  | run input => t.afterWords (Session.fedLines false (lines input) a)
  | operation =>
    match operation.perform.run a with
    | .ok _ _ => t.after (operation.move a)
    | .error _ _ => t

/-- The tower after some operations, whatever comes of each. -/
def raiseAll : List Operation → Assembler → Tower → Tower
  | [], _, t => t
  | operation :: rest, a, t => raiseAll rest (operation.settle a) (operation.raise a t)

end Operation

namespace Session
open Tower
variable {a : Assembler} {t : Tower}

/-- A refusal is followed by an abort, which keeps the literals. -/
theorem bears_feed (h : t.Bears a.literals) (word : String) :
    (a.raise word t).Bears (feed a word).2.1.literals := by
  obtain ⟨outcome, b, hrun, hb⟩ | ⟨halt, b, hrun, hb⟩ := (Action.does_feed (a := a) word).run_cases
  · have hliterals : b.literals = (a.move word).kept a.literals := a.move_demand word ▸ hb.literals
    simp only [feed, Assembler.raise, hrun, hliterals]
    exact h.after (a.move word)
  · have hliterals : b.literals = a.literals := hb.literals
    cases halt with
    | violated assertion => simpa only [feed, Assembler.raise, hrun, hliterals] using h
    | refused e =>
      obtain ⟨_, c, habort, hc⟩ | ⟨_, c, habort, hc⟩ := (Action.does_abort (a := b)).run_cases
      · have hkept : c.literals = b.literals := hc.literals
        simpa only [feed, Assembler.raise, hrun, habort, hkept, hliterals] using h
      · simpa only [feed, Assembler.raise, hrun, habort, hc.literals, hliterals] using h

theorem bears_readWords (h : t.Bears a.literals) (inComment : Bool) (words : List String) :
    (t.afterWords (fedWords inComment words a)).Bears
      (readWords inComment words a).assembler.literals := by
  induction words generalizing inComment a t with
  | nil => exact h
  | cons word rest ih =>
    rw [readWords, fedWords]
    split
    · exact ih h _
    split
    · exact ih h _
    split
    · exact h
    · have hfeed := bears_feed h word
      rcases hfed : feed a word with ⟨exchange, a', next⟩
      rw [hfed] at hfeed
      cases next with
      | word => exact ih hfeed false
      | line => exact hfeed
      | stop halt => exact hfeed

theorem bears_readLines (h : t.Bears a.literals) (inComment : Bool) (lines : List (List UInt8)) :
    (t.afterWords (fedLines inComment lines a)).Bears
      (readLines inComment lines a).assembler.literals := by
  induction lines generalizing inComment a t with
  | nil => exact h
  | cons line rest ih =>
    rw [readLines, fedLines]
    cases ofUtf8? line with
    | none => exact h
    | some text =>
      have hwords := bears_readWords h inComment (words text)
      dsimp only
      split
      · rwa [List.append_nil]
      · rw [afterWords, List.foldl_append]
        exact ih hwords _

theorem bears_finish (h : t.Bears a.literals) : t.Bears (finish a).2.2.literals := by
  obtain ⟨outcome, b, hrun, hb⟩ | ⟨halt, b, hrun, hb⟩ := (Action.does_finish (a := a)).run_cases
  · have hliterals : b.literals = a.literals := hb.literals
    simpa only [finish, hrun, hliterals] using h
  · have hliterals : b.literals = a.literals := hb.literals
    cases halt with
    | violated assertion => simpa only [finish, hrun, hliterals] using h
    | refused e =>
      obtain ⟨_, c, habort, hc⟩ | ⟨_, c, habort, hc⟩ := (Action.does_abort (a := b)).run_cases
      · have hkept : c.literals = b.literals := hc.literals
        simpa only [finish, hrun, habort, hkept, hliterals] using h
      · simpa only [finish, hrun, habort, hc.literals, hliterals] using h

theorem bears_run (h : t.Bears a.literals) (input : List UInt8) :
    (t.afterWords (fedLines false (lines input) a)).Bears (run a input).2.literals := by
  have hlines := bears_readLines h false (lines input)
  unfold run
  dsimp only
  split
  · exact hlines
  · exact bears_finish hlines

end Session

namespace Operation
variable {a : Assembler} {t : Tower}

/-- One operation: of a run every word counts. -/
theorem bears_settle (h : t.Bears a.literals) (operation : Operation) :
    (operation.raise a t).Bears (operation.settle a).literals := by
  by_cases hrun : ∃ input, operation = run input
  · obtain ⟨input, rfl⟩ := hrun
    rw [settle_run]
    exact Session.bears_run h input
  · have hsplit : operation.raise a t =
        match operation.perform.run a with
        | .ok _ _ => t.after (operation.move a)
        | .error _ _ => t := by
      cases operation <;> first | rfl | exact absurd ⟨_, rfl⟩ hrun
    have hdoes : operation.perform.Does (operation.demand a) (operation.dropAwaiting a) a :=
      operation.does_perform fun input heq => hrun ⟨input, heq⟩
    obtain ⟨reply, b, hperform, hb⟩ | ⟨halt, b, hperform, hb⟩ := hdoes.run_cases
    · have hliterals : b.literals = (operation.move a).kept a.literals := by
        rw [hb.literals, literals_dropAwaiting, move_demand]
      rw [hsplit, settle_of_ok hperform, hperform, hliterals]
      exact h.after (operation.move a)
    · rw [hsplit, settle_of_error hperform, hperform, hb.literals, literals_dropAwaiting]
      exact h

theorem bears_settleAll (h : t.Bears a.literals) (operations : List Operation) :
    (raiseAll operations a t).Bears (settleAll operations a).literals := by
  induction operations generalizing a t with
  | nil => exact h
  | cons operation rest ih => exact ih (bears_settle h operation)

end Operation

namespace Tower.Bears
variable {a : Assembler} {t : Tower}

theorem head?_eq {value : Int16} {rest : List Int16} (h : t.Bears (value :: rest)) :
    t.cells.head? = some value := by
  obtain ⟨more, hcells⟩ := h.prefix
  rw [← hcells]
  rfl

theorem ensures_popLiteral (h : t.Bears a.literals) :
    Action.popLiteral.Ensures (fun value _ => t.cells.head? = some value)
      (fun e a' => e = .literalStackEmpty ∧ a' = a ∧ t.reach = 0) a := by
  apply Action.ensures_popLiteral_top.mono
  · intro value a' hliterals
    rw [hliterals] at h
    exact h.head?_eq
  · rintro e a' ⟨he, ha', hempty⟩
    rw [hempty] at h
    exact ⟨he, ha', h.length_eq.symm⟩

/-- The word that is taken for the name of a constant. -/
theorem ensures_constant (h : t.Bears a.literals) (hawaiting : a.awaiting = .name .constant)
    (name : String) :
    (Action.feed name).Ensures
      (fun _ a' => ∃ value, t.cells.head? = some value ∧
        Added a.dictionary.memory.allocated a.dictionary.head name
          (bytesAll (Action.constantCode a.options.shortLiterals value)) a')
      (fun _ a' => a' = { a with awaiting := .nothing } ∧ (t.reach = 0 ∨
        ∃ value, t.cells.head? = some value ∧ ¬ a.Accepts name
          (sizeAll (Action.constantCode a.options.shortLiterals value)))) a := by
  rw [Action.feed, Action.ensures_bind, Action.ensures_takeAwaiting, hawaiting]
  apply (Action.ensures_constant_top name).mono
  · rintro _ a' ⟨value, hliterals, hadded⟩
    have hbears : t.Bears (value :: a'.literals) := hliterals ▸ h
    exact ⟨value, hbears.head?_eq, hadded⟩
  · rintro _ a' ⟨ha', hrefused⟩
    refine ⟨ha', ?_⟩
    cases hliterals : a.literals with
    | nil =>
      rw [hliterals] at h
      exact .inl h.length_eq.symm
    | cons value rest =>
      rw [hliterals] at h
      refine .inr ⟨value, h.head?_eq, fun haccepts => ?_⟩
      exact hrefused value (by simp [hliterals]) ⟨haccepts.closed, haccepts.legal, haccepts.space⟩

theorem ensures_dump (h : t.Bears a.literals) (hawaiting : a.awaiting = .nothing)
    (hmode : a.mode = .interpret) {word : String} (hword : a.classify word = .command .dump) :
    (Action.feed word).Ensures
      (fun outcome _ => ∃ length start rest, t.cells = length :: start :: rest ∧
        outcome = Action.reportLines ((a.dictionary.memory.dump (Cell.unsigned start)
          (Cell.unsigned length)).map DumpLine.render))
      (fun e a' => e = .literalStackEmpty ∧ a' = a ∧ t.reach < 2) a := by
  have hsame : ({ a with awaiting := .nothing } : Assembler) = a := by
    rw [← hawaiting]
  rw [Action.feed, Action.ensures_bind, Action.ensures_takeAwaiting, hawaiting, hsame]
  simp only [Action.ensures_bind, Action.ensures_get, hmode, hword, Action.interpret,
    Action.command]
  apply Action.ensures_dump_top.mono
  · rintro outcome a' ⟨length, start, hliterals, houtcome⟩
    obtain ⟨more, hcells⟩ := h.prefix
    rw [hliterals] at hcells
    exact ⟨length, start, a'.literals ++ more, hcells.symm, houtcome⟩
  · rintro e a' ⟨he, ha', hfew⟩
    exact ⟨he, ha', by rwa [← h.length_eq]⟩

end Tower.Bears

/-- Whatever operations are performed, the literals are the topmost cells of a stack that takes the
same numbers and loses none, and at most as many as the limit. What takes literals takes the topmost
ones. Where it fails it takes none. -/
theorem Operation.literals_topmost {a : Assembler} (h : a.literals.length ≤ literalLimit)
    (operations : List Operation) :
    let b := settleAll operations a
    let t := raiseAll operations a ⟨a.literals, a.literals.length⟩
    (b.literals = t.cells.take t.reach ∧ t.reach ≤ t.cells.length ∧ t.reach ≤ literalLimit) ∧
    Action.popLiteral.Ensures (fun value _ => t.cells.head? = some value)
      (fun e b' => e = .literalStackEmpty ∧ b' = b ∧ t.reach = 0) b ∧
    (b.awaiting = .name .constant → ∀ name, (Action.feed name).Ensures
      (fun _ b' => ∃ value, t.cells.head? = some value ∧
        Added b.dictionary.memory.allocated b.dictionary.head name
          (bytesAll (Action.constantCode b.options.shortLiterals value)) b')
      (fun _ b' => b' = { b with awaiting := .nothing } ∧ (t.reach = 0 ∨
        ∃ value, t.cells.head? = some value ∧ ¬ b.Accepts name
          (sizeAll (Action.constantCode b.options.shortLiterals value)))) b) ∧
    (b.awaiting = .nothing → b.mode = .interpret → ∀ word, b.classify word = .command .dump →
      (Action.feed word).Ensures
        (fun outcome _ => ∃ length start rest, t.cells = length :: start :: rest ∧
          outcome = Action.reportLines ((b.dictionary.memory.dump (Cell.unsigned start)
            (Cell.unsigned length)).map DumpLine.render))
        (fun e b' => e = .literalStackEmpty ∧ b' = b ∧ t.reach < 2) b) ∧
    ∀ word halt b', (Action.feed word).run b = .error halt b' → b'.literals = b.literals := by
  intro b t
  have hbears : t.Bears b.literals := bears_settleAll (Tower.bears_of_length_le h) operations
  refine ⟨⟨hbears.top, hbears.le_length, hbears.le_limit⟩, hbears.ensures_popLiteral,
    hbears.ensures_constant, fun hawaiting hmode word => hbears.ensures_dump hawaiting hmode, ?_⟩
  intro word halt b' hrun
  exact ((Action.does_feed word).of_error hrun).literals

/-- Of eighteen numbers the two oldest ones are out of reach. Two are taken to show a part of the
image, and one for a constant. -/
theorem Operation.literals_topmost_lost :
    let a : Assembler := .new ⟨64, by decide, by decide⟩ {} .empty
    let numbers := (List.range' 1 18).map fun n => pushLiteral (.ofNat n)
    let operations := numbers ++ ["DUMP", "VAL", "A", "VAL"].map feed
    let b := settleAll operations a
    a.literals.length ≤ literalLimit ∧
      raiseAll operations a ⟨a.literals, a.literals.length⟩ =
        ⟨[15, 14, 13, 12, 11, 10, 9, 8, 7, 6, 5, 4, 3, 2, 1], 13⟩ ∧
      b.literals = [15, 14, 13, 12, 11, 10, 9, 8, 7, 6, 5, 4, 3] ∧
      ∃ outcome b', (Action.feed "B").run b = .ok outcome b' ∧
        Added b.dictionary.memory.allocated b.dictionary.head "B"
          (bytesAll (Action.constantCode b.options.shortLiterals 15)) b' := by
  intro a numbers operations b
  have hempty : a.literals.length ≤ literalLimit := Nat.zero_le _
  have htower : raiseAll operations a ⟨a.literals, a.literals.length⟩ =
      ⟨[15, 14, 13, 12, 11, 10, 9, 8, 7, 6, 5, 4, 3, 2, 1], 13⟩ := by decide +kernel
  have hawaiting : b.awaiting = .name .constant := by decide +kernel
  have haccepts : b.Accepts "B" (sizeAll (Action.constantCode b.options.shortLiterals 15)) :=
    ⟨by decide +kernel, by decide, by decide +kernel⟩
  have hb : settleAll operations a = b := by rfl
  obtain ⟨⟨hliterals, -⟩, -, hconstant, -⟩ := literals_topmost hempty operations
  rw [htower, hb] at hliterals
  rw [htower, hb] at hconstant
  clear_value b
  refine ⟨hempty, htower, hliterals, ?_⟩
  have hfeed := hconstant hawaiting "B"
  obtain ⟨outcome, b', hrun, value, hvalue, hadded⟩ | ⟨e, b', -, -, hrefused⟩ := hfeed.run_cases
  · cases hvalue
    exact ⟨outcome, b', hrun, hadded⟩
  · obtain hreach | ⟨value, hvalue, hfull⟩ := hrefused
    · cases hreach
    · cases hvalue
      exact absurd haccepts hfull

end ForthAssembler
