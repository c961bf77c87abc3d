import ForthAssembler.Proofs.Control.Body

/-! Bodies that are still being written: complete ones with the openings of structures between
them. The stack of frames that is kept while compiling is read off a draft. -/
namespace ForthAssembler
open Instr

/-- A body up to some word. The index is the innermost loop that is open there. -/
inductive Draft (α : Type) : Option Loop → Type
  | body (body : Body α none) : Draft α none
  /-- `IF yes` -/
  | cond {k : Option Loop} (d : Draft α k) (yes : Body α k) : Draft α k
  /-- `IF yes ELSE no` -/
  | choice {k : Option Loop} (d : Draft α k) (yes no : Body α k) : Draft α k
  /-- `BEGIN body` -/
  | loop {k : Option Loop} (d : Draft α k) (body : Body α (some .endless)) : Draft α (some .endless)
  /-- `BEGIN test WHILE body` -/
  | guarded {k : Option Loop} (d : Draft α k) (test body : Body α (some .endless)) :
    Draft α (some .endless)
  /-- `FOR body` -/
  | counted {k : Option Loop} (d : Draft α k) (body : Body α (some .counted)) :
    Draft α (some .counted)

namespace Frame

/-- The innermost loop that is open. -/
def innermost : List Frame → Option Loop
  | [] => none
  | .loop _ _ :: _ => some .endless
  | .counted _ _ :: _ => some .counted
  | _ :: frames => innermost frames

/-- Gives further exits to the innermost loop. -/
def addBreaks (sites : List Nat) : List Frame → List Frame
  | [] => []
  | .loop top breaks :: frames => .loop top (breaks ++ sites) :: frames
  | .counted top breaks :: frames => .counted top (breaks ++ sites) :: frames
  | frame :: frames => frame :: addBreaks sites frames

@[simp] theorem addBreaks_nil (frames : List Frame) : addBreaks [] frames = frames := by
  fun_induction addBreaks [] frames <;> simp_all

theorem addBreaks_addBreaks (sites later : List Nat) (frames : List Frame) :
    addBreaks later (addBreaks sites frames) = addBreaks (sites ++ later) frames := by
  fun_induction addBreaks sites frames <;> simp_all [addBreaks]

@[simp] theorem innermost_addBreaks (sites : List Nat) (frames : List Frame) :
    innermost (addBreaks sites frames) = innermost frames := by
  fun_induction addBreaks sites frames <;> simp_all [innermost]

theorem leaveLoop?_eq (here : Nat) (frames : List Frame) :
    Control.leaveLoop? here frames =
      (innermost frames).map fun l => (l.leaveCode 0, addBreaks [l.leaveSite here] frames) := by
  fun_induction Control.leaveLoop? here frames with
  | case1 => rfl
  | case2 => rfl
  | case3 => rfl
  | case4 frame frames _ _ ih =>
    rw [ih]
    cases frame <;> simp_all [innermost, addBreaks, Function.comp_def]

end Frame

namespace Draft
variable {α : Type}

/-- A draft with more code in its innermost structure. -/
def append : {k : Option Loop} → Draft α k → Body α k → Draft α k
  | _, .body b, c => .body (b.append c)
  | _, cond d yes, c => cond d (yes.append c)
  | _, choice d yes no, c => choice d yes (no.append c)
  | _, loop d b, c => loop d (b.append c)
  | _, guarded d test b, c => guarded d test (b.append c)
  | _, counted d b, c => counted d (b.append c)

@[simp] def symbols : {k : Option Loop} → Draft α k → List (Symbol α)
  | _, .body b => b.symbols
  | _, cond d yes => d.symbols ++ .control .ifWord :: yes.symbols
  | _, choice d yes no =>
    d.symbols ++ .control .ifWord :: yes.symbols ++ .control .elseWord :: no.symbols
  | _, loop d b => d.symbols ++ .begin :: b.symbols
  | _, guarded d test b => d.symbols ++ .begin :: test.symbols ++ .control .whileWord :: b.symbols
  | _, counted d b => d.symbols ++ .control .forWord :: b.symbols

section Code
variable (instr : α → Instr)

@[simp] def size : {k : Option Loop} → Draft α k → Nat
  | _, .body b => b.size instr
  | _, cond d yes => d.size + 2 + yes.size instr
  | _, choice d yes no => d.size + 2 + yes.size instr + 2 + no.size instr
  | _, loop d b => d.size + b.size instr
  | _, guarded d test b => d.size + test.size instr + 2 + b.size instr
  | _, counted d b => d.size + 1 + b.size instr

/-- The code of a draft, in which branches without a target go to offset 0. -/
@[simp] def layout (base : Nat) : {k : Option Loop} → Draft α k → List Instr
  | _, .body b => b.layout instr base 0
  | _, cond d yes =>
    d.layout base ++ .jumpZero 0 :: yes.layout instr (base + d.size instr + 2) 0
  | _, choice d yes no =>
    let start := base + d.size instr
    let other := start + 2 + yes.size instr + 2
    d.layout base ++ .jumpZero other :: yes.layout instr (start + 2) 0 ++
      .jump 0 :: no.layout instr other 0
  | _, loop d b => d.layout base ++ b.layout instr (base + d.size instr) 0
  | _, guarded d test b =>
    let top := base + d.size instr
    d.layout base ++ test.layout instr top 0 ++
      .jumpZero 0 :: b.layout instr (top + test.size instr + 2) 0
  | _, counted d b =>
    d.layout base ++ .forLoop :: b.layout instr (base + d.size instr + 1) 0

/-- The structures that are open at the end of a draft. -/
@[simp] def frames (base : Nat) : {k : Option Loop} → Draft α k → List Frame
  | _, .body _ => []
  | _, cond d yes =>
    let site := base + d.size instr
    .cond site :: Frame.addBreaks (yes.sites instr (site + 2)) (d.frames base)
  | _, choice d yes no =>
    let start := base + d.size instr
    let site := start + 2 + yes.size instr
    .alt site ::
      Frame.addBreaks (yes.sites instr (start + 2) ++ no.sites instr (site + 2)) (d.frames base)
  | _, loop d b =>
    let top := base + d.size instr
    .loop top (b.sites instr top) :: d.frames base
  | _, guarded d test b =>
    let top := base + d.size instr
    let site := top + test.size instr
    .guard site :: .loop top (test.sites instr top ++ b.sites instr (site + 2)) :: d.frames base
  | _, counted d b =>
    let top := base + d.size instr + 1
    .counted top (b.sites instr top) :: d.frames base

end Code

/-- A draft inside of any loop. -/
abbrev Any (α : Type) := (k : Option Loop) × Draft α k

/-- The draft after one more word, if that word may stand there. -/
def next : {k : Option Loop} → Draft α k → Symbol α → Option (Any α)
  | _, d, .plain item => some ⟨_, d.append (.plain item .empty)⟩
  | _, d, .begin => some ⟨_, .loop d .empty⟩
  | _, d, .control .ifWord => some ⟨_, .cond d .empty⟩
  | _, .cond d yes, .control .elseWord => some ⟨_, .choice d yes .empty⟩
  | _, .cond d yes, .control .thenWord => some ⟨_, d.append (.cond yes .empty)⟩
  | _, .choice d yes no, .control .thenWord => some ⟨_, d.append (.choice yes no .empty)⟩
  | _, .loop d b, .control .untilWord => some ⟨_, d.append (.loop b .whenZero .empty)⟩
  | _, .guarded d test b, .control .untilWord =>
    some ⟨_, d.append (.guarded test b .whenZero .empty)⟩
  | _, .loop d b, .control .againWord => some ⟨_, d.append (.loop b .always .empty)⟩
  | _, .loop d b, .control .whileWord => some ⟨_, .guarded d b .empty⟩
  | _, .guarded d test b, .control .repeatWord =>
    some ⟨_, d.append (.guarded test b .always .empty)⟩
  | _, d, .control .forWord => some ⟨_, .counted d .empty⟩
  | _, .counted d b, .control .nextWord => some ⟨_, d.append (.counted b .empty)⟩
  | some _, d, .control .breakWord => some ⟨_, d.append (.leave .empty)⟩
  | _, _, .control _ => none

variable {k : Option Loop}

@[simp] theorem next_plain (d : Draft α k) (item : α) :
    d.next (.plain item) = some ⟨k, d.append (.plain item .empty)⟩ := rfl

@[simp] theorem next_begin (d : Draft α k) : d.next .begin = some ⟨_, loop d .empty⟩ := rfl

@[simp] theorem next_ifWord (d : Draft α k) :
    d.next (.control .ifWord) = some ⟨k, cond d .empty⟩ := by
  cases d <;> rfl

@[simp] theorem next_elseWord (d : Draft α k) (yes : Body α k) :
    (cond d yes).next (.control .elseWord) = some ⟨k, choice d yes .empty⟩ := rfl

@[simp] theorem next_thenWord_cond (d : Draft α k) (yes : Body α k) :
    (cond d yes).next (.control .thenWord) = some ⟨k, d.append (.cond yes .empty)⟩ := rfl

@[simp] theorem next_thenWord_choice (d : Draft α k) (yes no : Body α k) :
    (choice d yes no).next (.control .thenWord) =
      some ⟨k, d.append (.choice yes no .empty)⟩ := rfl

@[simp] theorem next_loopWord (d : Draft α k) (b : Body α (some .endless)) (back : Back) :
    (loop d b).next (.control back.loopWord) = some ⟨k, d.append (.loop b back .empty)⟩ := by
  cases back <;> rfl

@[simp] theorem next_whileWord (d : Draft α k) (b : Body α (some .endless)) :
    (loop d b).next (.control .whileWord) = some ⟨_, guarded d b .empty⟩ := rfl

@[simp] theorem next_guardedWord (d : Draft α k) (test b : Body α (some .endless)) (back : Back) :
    (guarded d test b).next (.control back.guardedWord) =
      some ⟨k, d.append (.guarded test b back .empty)⟩ := by
  cases back <;> rfl

@[simp] theorem next_forWord (d : Draft α k) :
    d.next (.control .forWord) = some ⟨_, counted d .empty⟩ := by
  cases d <;> rfl

@[simp] theorem next_nextWord (d : Draft α k) (b : Body α (some .counted)) :
    (counted d b).next (.control .nextWord) = some ⟨k, d.append (.counted b .empty)⟩ := rfl

@[simp] theorem next_breakWord {l : Loop} (d : Draft α (some l)) :
    d.next (.control .breakWord) = some ⟨some l, d.append (.leave .empty)⟩ := by
  cases d <;> rfl

@[simp] theorem next_breakWord_none (d : Draft α none) : d.next (.control .breakWord) = none := by
  cases d <;> rfl

@[simp] theorem append_cond (d : Draft α k) (yes b : Body α k) :
    (cond d yes).append b = cond d (yes.append b) := rfl

@[simp] theorem append_choice (d : Draft α k) (yes no b : Body α k) :
    (choice d yes no).append b = choice d yes (no.append b) := rfl

@[simp] theorem append_loop (d : Draft α k) (b c : Body α (some .endless)) :
    (loop d b).append c = loop d (b.append c) := rfl

@[simp] theorem append_guarded (d : Draft α k) (test b c : Body α (some .endless)) :
    (guarded d test b).append c = guarded d test (b.append c) := rfl

@[simp] theorem append_counted (d : Draft α k) (b c : Body α (some .counted)) :
    (counted d b).append c = counted d (b.append c) := rfl

@[simp] theorem append_empty (d : Draft α k) : d.append .empty = d := by
  cases d <;> simp [append]

theorem append_append (d : Draft α k) (b c : Body α k) :
    (d.append b).append c = d.append (b.append c) := by
  cases d <;> simp [append, Body.append_assoc]

@[simp] theorem symbols_append (d : Draft α k) (b : Body α k) :
    (d.append b).symbols = d.symbols ++ b.symbols := by
  cases d <;> simp [append, symbols]

section Code
variable (instr : α → Instr)

@[simp] theorem size_append (d : Draft α k) (b : Body α k) :
    (d.append b).size instr = d.size instr + b.size instr := by
  cases d <;> simp [append, size, Nat.add_assoc]

@[simp] theorem sizeAll_layout (base : Nat) (d : Draft α k) :
    sizeAll (d.layout instr base) = d.size instr := by
  induction d with
  | body b => simp [layout, size]
  | cond d yes ih => simp [layout, size, ih, Nat.add_assoc]
  | choice d yes no ih => simp [layout, size, ih]; omega
  | loop d b ih => simp [layout, size, ih]
  | guarded d test b ih => simp [layout, size, ih]; omega
  | counted d b ih => simp [layout, size, ih, Nat.add_assoc]

theorem layout_append (base : Nat) (d : Draft α k) (b : Body α k) :
    (d.append b).layout instr base =
      d.layout instr base ++ b.layout instr (base + d.size instr) 0 := by
  cases d <;> simp [append, layout, size, Body.layout_append, Nat.add_assoc]

theorem frames_append (base : Nat) (d : Draft α k) (b : Body α k) :
    (d.append b).frames instr base =
      Frame.addBreaks (b.sites instr (base + d.size instr)) (d.frames instr base) := by
  cases d <;>
    simp [append, frames, size, Body.sites_append, Frame.addBreaks, Frame.addBreaks_addBreaks,
      Nat.add_assoc]

@[simp] theorem innermost_frames (base : Nat) (d : Draft α k) :
    Frame.innermost (d.frames instr base) = k := by
  induction d <;> simp_all [frames, Frame.innermost]

/-- Only a complete body has no open structure. -/
theorem frames_eq_nil_iff (base : Nat) (d : Draft α k) :
    d.frames instr base = [] ↔ ∃ b : Body α none, (⟨k, d⟩ : Any α) = ⟨none, .body b⟩ := by
  constructor
  · cases d with
    | body b => exact fun _ => ⟨b, rfl⟩
    | _ => simp [frames]
  · intro hbody
    obtain ⟨b, h⟩ := hbody
    cases h
    rfl

end Code
end Draft
end ForthAssembler
