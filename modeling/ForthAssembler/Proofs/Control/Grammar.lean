import ForthAssembler.Proofs.Control.Draft

/-! Which sequences of words are bodies, and which can still become one. -/
namespace ForthAssembler
variable {α : Type}

/-- The words are those of a body. -/
def Complete (words : List (Symbol α)) : Prop := ∃ b : Body α none, b.symbols = words

/-- The words are the beginning of some body. -/
def Viable (words : List (Symbol α)) : Prop := ∃ b : Body α none, words <+: b.symbols

theorem viable_nil : Viable ([] : List (Symbol α)) := ⟨.empty, List.nil_prefix⟩

/-- Words that begin no body have a first one with which they stop to. -/
theorem exists_first_not_viable {words : List (Symbol α)} (h : ¬ Viable words) :
    ∃ accepted word rest, words = accepted ++ word :: rest ∧ Viable accepted ∧
      ¬ Viable (accepted ++ [word]) := by
  have key : ∀ accepted rest : List (Symbol α), Viable accepted → ¬ Viable (accepted ++ rest) →
      ∃ more word later, rest = more ++ word :: later ∧ Viable (accepted ++ more) ∧
        ¬ Viable (accepted ++ more ++ [word]) := by
    intro accepted rest
    induction rest generalizing accepted with
    | nil => exact fun hv hn => absurd hv (by simpa using hn)
    | cons word rest ih =>
      intro hv hn
      by_cases hw : Viable (accepted ++ [word])
      · obtain ⟨more, next, later, rfl, hmore, hnext⟩ :=
          ih (accepted ++ [word]) hw (by simpa using hn)
        exact ⟨word :: more, next, later, rfl, by simpa using hmore, by simpa using hnext⟩
      · exact ⟨[], word, rest, rfl, by simpa using hv, by simpa using hw⟩
  obtain ⟨more, word, later, hwords, hmore, hword⟩ := key [] words viable_nil (by simpa using h)
  exact ⟨more, word, later, hwords, by simpa using hmore, by simpa using hword⟩

/-- The loops that are open after a word. -/
def Symbol.loops (before : List Loop) : Symbol α → List Loop
  | .begin => .endless :: before
  | .control .forWord => .counted :: before
  | .control .untilWord | .control .againWord | .control .repeatWord | .control .nextWord =>
    before.tail
  | .plain _ | .control _ => before

/-- The number of bytes that a word compiles to inside of some loops. -/
def Symbol.size (instr : α → Instr) (loops : List Loop) : Symbol α → Nat
  | .plain item => (instr item).size
  | .begin | .control .thenWord => 0
  | .control .forWord => 1
  | .control .nextWord => 3
  | .control .breakWord => (loops.head?.map Loop.leaveSize).getD 0
  | .control _ => 2

/-- The number of bytes that a sequence of words compiles to. -/
def emitted (instr : α → Instr) (loops : List Loop) : List (Symbol α) → Nat
  | [] => 0
  | word :: rest => word.size instr loops + emitted instr (word.loops loops) rest

theorem emitted_append (instr : α → Instr) (loops : List Loop) (words more : List (Symbol α)) :
    emitted instr loops (words ++ more) =
      emitted instr loops words + emitted instr (words.foldl Symbol.loops loops) more := by
  induction words generalizing loops with
  | nil => simp [emitted]
  | cons word rest ih => simp [emitted, ih, Nat.add_assoc]

theorem emitted_le (instr : α → Instr) (loops : List Loop) {words more : List (Symbol α)}
    (h : words <+: more) : emitted instr loops words ≤ emitted instr loops more := by
  obtain ⟨rest, rfl⟩ := h
  rw [emitted_append]
  exact Nat.le_add_right _ _

namespace Draft
variable {k : Option Loop}

/-- The draft that words lead to, if each may stand where it does. -/
def read (draft : Any α) (words : List (Symbol α)) : Option (Any α) :=
  words.foldlM (fun draft word => draft.2.next word) draft

def start : Any α := ⟨none, .body .empty⟩

@[simp] theorem read_nil (draft : Any α) : read draft [] = some draft := rfl

@[simp] theorem read_cons (draft : Any α) (word : Symbol α) (rest : List (Symbol α)) :
    read draft (word :: rest) = (draft.2.next word).bind (read · rest) := rfl

theorem read_cons_eq_some_iff {draft after : Any α} {word : Symbol α} {rest : List (Symbol α)} :
    read draft (word :: rest) = some after ↔
      ∃ middle, draft.2.next word = some middle ∧ read middle rest = some after := by
  rw [read_cons, Option.bind_eq_some_iff]

theorem read_append (draft : Any α) (words more : List (Symbol α)) :
    read draft (words ++ more) = (read draft words).bind (read · more) := by
  simp only [read, List.foldlM_append]
  rfl

/-- A body may stand at the end of any draft. -/
theorem read_symbols (d : Draft α k) (b : Body α k) :
    read ⟨k, d⟩ b.symbols = some ⟨k, d.append b⟩ := by
  induction b with
  | empty => simp [Body.symbols]
  | plain item rest ih => simp [Body.symbols, ih, append_append, Body.append]
  | leave rest ih => simp [Body.symbols, ih, append_append, Body.append]
  | cond yes rest ihy ih =>
    simp [Body.symbols, read_append, ihy, ih, append_append, Body.append]
  | choice yes no rest ihy ihn ih =>
    simp [Body.symbols, read_append, ihy, ihn, ih, append_append, Body.append]
  | loop body back rest ihb ih =>
    simp [Body.symbols, read_append, ihb, ih, append_append, Body.append]
  | guarded test body back rest iht ihb ih =>
    simp [Body.symbols, read_append, iht, ihb, ih, append_append, Body.append]
  | counted body rest ihb ih =>
    simp [Body.symbols, read_append, ihb, ih, append_append, Body.append]

theorem symbols_next {d : Draft α k} {word : Symbol α} {after : Any α}
    (h : d.next word = some after) : after.2.symbols = d.symbols ++ [word] := by
  cases word with
  | plain item =>
    cases h
    simp [Body.symbols]
  | begin =>
    cases h
    simp [symbols, Body.symbols]
  | control word =>
    cases word with
    | breakWord =>
      cases k with
      | none => simp at h
      | some l =>
        obtain rfl := Option.some.inj ((next_breakWord d).symm.trans h)
        simp [Body.symbols]
    | _ =>
      cases d <;> cases h
      all_goals
        simp [symbols, Body.symbols, Back.loopWord, Back.guardedWord]

theorem symbols_read {draft after : Any α} {words : List (Symbol α)}
    (h : read draft words = some after) : after.2.symbols = draft.2.symbols ++ words := by
  induction words generalizing draft with
  | nil =>
    cases h
    simp
  | cons word rest ih =>
    obtain ⟨middle, hnext, hrest⟩ := read_cons_eq_some_iff.mp h
    rw [ih hrest, symbols_next hnext, List.append_assoc, List.singleton_append]

/-- The open structures of a draft can be closed, whatever stands in them. -/
theorem exists_body (d : Draft α k) (b : Body α k) :
    ∃ (c : Body α none) (more : List (Symbol α)), c.symbols = (d.append b).symbols ++ more := by
  induction d with
  | body c => exact ⟨c.append b, [], by simp [append, symbols]⟩
  | cond d yes ih =>
    obtain ⟨c, more, hc⟩ := ih (.cond (yes.append b) .empty)
    exact ⟨c, .control .thenWord :: more, by simp [hc, symbols, Body.symbols]⟩
  | choice d yes no ih =>
    obtain ⟨c, more, hc⟩ := ih (.choice yes (no.append b) .empty)
    exact ⟨c, .control .thenWord :: more, by simp [hc, symbols, Body.symbols]⟩
  | loop d body ih =>
    obtain ⟨c, more, hc⟩ := ih (.loop (body.append b) .always .empty)
    exact ⟨c, .control .againWord :: more, by simp [hc, symbols, Body.symbols, Back.loopWord]⟩
  | guarded d test body ih =>
    obtain ⟨c, more, hc⟩ := ih (.guarded test (body.append b) .always .empty)
    exact ⟨c, .control .repeatWord :: more, by simp [hc, symbols, Body.symbols, Back.guardedWord]⟩
  | counted d body ih =>
    obtain ⟨c, more, hc⟩ := ih (.counted (body.append b) .empty)
    exact ⟨c, .control .nextWord :: more, by simp [hc, symbols, Body.symbols]⟩

/-- The words that lead to a draft are those that can still become a body. -/
theorem viable_iff_read {words : List (Symbol α)} :
    Viable words ↔ ∃ draft, read start words = some draft := by
  constructor
  · intro hviable
    obtain ⟨b, more, hb⟩ := hviable
    have h := read_symbols (Draft.body .empty) b
    rw [← hb, read_append] at h
    obtain ⟨draft, hdraft, -⟩ := Option.bind_eq_some_iff.mp h
    exact ⟨draft, hdraft⟩
  · intro hread
    obtain ⟨draft, h⟩ := hread
    obtain ⟨b, more, hb⟩ := exists_body draft.2 .empty
    refine ⟨b, more, ?_⟩
    rw [hb, append_empty, symbols_read h]
    simp [start, symbols, Body.symbols]

theorem complete_iff_read {words : List (Symbol α)} :
    Complete words ↔ ∃ b, read start words = some ⟨none, .body b⟩ := by
  constructor
  · intro hcomplete
    obtain ⟨b, rfl⟩ := hcomplete
    exact ⟨b, read_symbols (Draft.body .empty) b⟩
  · intro hread
    obtain ⟨b, h⟩ := hread
    refine ⟨b, ?_⟩
    have := symbols_read h
    simpa [start, symbols, Body.symbols] using this

/-- The loops around the end of a draft, the innermost first. -/
def loops : {k : Option Loop} → Draft α k → List Loop
  | _, .body _ => []
  | _, cond d _ | _, choice d _ _ => d.loops
  | _, loop d _ | _, guarded d _ _ => .endless :: d.loops
  | _, counted d _ => .counted :: d.loops

@[simp] theorem loops_append (d : Draft α k) (b : Body α k) : (d.append b).loops = d.loops := by
  cases d <;> rfl

theorem head?_loops (d : Draft α k) : d.loops.head? = k := by
  induction d <;> simp_all [loops]

/-- A word adds the bytes that the loops around it call for. -/
theorem size_next (instr : α → Instr) {d : Draft α k} {word : Symbol α} {after : Any α}
    (h : d.next word = some after) :
    after.2.loops = word.loops d.loops ∧
      after.2.size instr = d.size instr + word.size instr d.loops := by
  cases word with
  | plain item =>
    cases h
    simp [Symbol.loops, Symbol.size, Body.size]
  | begin =>
    cases h
    simp [Symbol.loops, Symbol.size, loops, size, Body.size]
  | control word =>
    cases word with
    | breakWord =>
      cases k with
      | none => simp at h
      | some l =>
        obtain rfl := Option.some.inj ((next_breakWord d).symm.trans h)
        simp [Symbol.loops, Symbol.size, head?_loops, Body.size]
    | _ =>
      cases d <;> cases h
      all_goals
        simp [Symbol.loops, Symbol.size, loops, size, Body.size, Nat.add_assoc]

theorem size_read (instr : α → Instr) {draft after : Any α} {words : List (Symbol α)}
    (h : read draft words = some after) :
    after.2.size instr = draft.2.size instr + emitted instr draft.2.loops words := by
  induction words generalizing draft with
  | nil =>
    cases h
    rfl
  | cons word rest ih =>
    obtain ⟨middle, hnext, hrest⟩ := read_cons_eq_some_iff.mp h
    obtain ⟨hloops, hsize⟩ := size_next instr hnext
    rw [ih hrest, hloops, hsize, emitted, Nat.add_assoc]

end Draft
end ForthAssembler
