import ForthAssembler.Proofs.Code.Resolve
import ForthAssembler.Token.Basic

/-! Bodies of definitions as syntax trees, with the code that is meant by them. -/
namespace ForthAssembler
open Instr

/-- A loop from `BEGIN` on, or one from `FOR` on. -/
inductive Loop
  | endless
  | counted
  deriving DecidableEq, Repr

/-- How an endless loop goes back to its top. -/
inductive Back
  | always
  | whenZero
  deriving DecidableEq, Repr

/-- A body inside of an innermost loop, or of none. What is neither a branch nor a loop is left to
the type `α`. -/
inductive Body (α : Type) : Option Loop → Type
  | empty {k : Option Loop} : Body α k
  | plain {k : Option Loop} (item : α) (rest : Body α k) : Body α k
  /-- `BRK` -/
  | leave {l : Loop} (rest : Body α (some l)) : Body α (some l)
  /-- `IF yes THEN` -/
  | cond {k : Option Loop} (yes rest : Body α k) : Body α k
  /-- `IF yes ELSE no THEN` -/
  | choice {k : Option Loop} (yes no rest : Body α k) : Body α k
  /-- `BEGIN body AGAIN` or `BEGIN body UNTIL` -/
  | loop {k : Option Loop} (body : Body α (some .endless)) (back : Back) (rest : Body α k) :
    Body α k
  /-- `BEGIN test WHILE body REPEAT` or `BEGIN test WHILE body UNTIL` -/
  | guarded {k : Option Loop} (test body : Body α (some .endless)) (back : Back) (rest : Body α k) :
    Body α k
  /-- `FOR body NEXT` -/
  | counted {k : Option Loop} (body : Body α (some .counted)) (rest : Body α k) : Body α k

/-- The words that bodies are written with. -/
inductive Symbol (α : Type)
  | plain (item : α)
  | begin
  | control (word : Control)

namespace Loop

/-- Leaving a counted loop drops its index. -/
def leaveCode (exit : Nat) : Loop → List Instr
  | endless => [.jump exit]
  | counted => [.leave, .jump exit]

/-- Where the jump out of a loop stands, if its code starts at `base`. -/
def leaveSite (base : Nat) : Loop → Nat
  | endless => base
  | counted => base + 1

def leaveSize : Loop → Nat
  | endless => 2
  | counted => 3

theorem sizeAll_leaveCode (l : Loop) (exit : Nat) : sizeAll (l.leaveCode exit) = l.leaveSize := by
  cases l <;> rfl

theorem resolves_leaveCode (l : Loop) (base exit : Nat) :
    Resolves base [l.leaveSite base] exit (l.leaveCode 0) (l.leaveCode exit) := by
  cases l with
  | endless => exact .jump
  | counted => exact Resolves.prepend [Instr.leave] rfl .jump

end Loop

namespace Back

def jump (target : Nat) : Back → Instr
  | always => .jump target
  | whenZero => .jumpZero target

def loopWord : Back → Control
  | always => .againWord
  | whenZero => .untilWord

def guardedWord : Back → Control
  | always => .repeatWord
  | whenZero => .untilWord

@[simp] theorem size_jump (back : Back) (target : Nat) : (back.jump target).size = 2 := by
  cases back <;> rfl

end Back

namespace Body
variable {α : Type}

@[simp] def append : {k : Option Loop} → Body α k → Body α k → Body α k
  | _, empty, c => c
  | _, plain item rest, c => plain item (rest.append c)
  | _, leave rest, c => leave (rest.append c)
  | _, cond yes rest, c => cond yes (rest.append c)
  | _, choice yes no rest, c => choice yes no (rest.append c)
  | _, loop body back rest, c => loop body back (rest.append c)
  | _, guarded test body back rest, c => guarded test body back (rest.append c)
  | _, counted body rest, c => counted body (rest.append c)

/-- The words of a body, in order. -/
@[simp] def symbols : {k : Option Loop} → Body α k → List (Symbol α)
  | _, empty => []
  | _, plain item rest => .plain item :: rest.symbols
  | _, leave rest => .control .breakWord :: rest.symbols
  | _, cond yes rest => .control .ifWord :: yes.symbols ++ .control .thenWord :: rest.symbols
  | _, choice yes no rest =>
    .control .ifWord :: yes.symbols ++ .control .elseWord :: no.symbols ++
      .control .thenWord :: rest.symbols
  | _, loop body back rest =>
    .begin :: body.symbols ++ .control back.loopWord :: rest.symbols
  | _, guarded test body back rest =>
    .begin :: test.symbols ++ .control .whileWord :: body.symbols ++
      .control back.guardedWord :: rest.symbols
  | _, counted body rest => .control .forWord :: body.symbols ++ .control .nextWord :: rest.symbols

/-- What stands in a body besides branches and loops. -/
@[simp] def items : {k : Option Loop} → Body α k → List α
  | _, empty => []
  | _, plain item rest => item :: rest.items
  | _, leave rest => rest.items
  | _, cond yes rest => yes.items ++ rest.items
  | _, choice yes no rest => yes.items ++ no.items ++ rest.items
  | _, loop body _ rest => body.items ++ rest.items
  | _, guarded test body _ rest => test.items ++ body.items ++ rest.items
  | _, counted body rest => body.items ++ rest.items

section Code
variable (instr : α → Instr)

/-- The number of bytes of the code of a body. -/
@[simp] def size : {k : Option Loop} → Body α k → Nat
  | _, empty => 0
  | _, plain item rest => (instr item).size + rest.size
  | some l, leave rest => l.leaveSize + rest.size
  | _, cond yes rest => 2 + yes.size + rest.size
  | _, choice yes no rest => 2 + yes.size + 2 + no.size + rest.size
  | _, loop body _ rest => body.size + 2 + rest.size
  | _, guarded test body _ rest => test.size + 2 + body.size + 2 + rest.size
  | _, counted body rest => 1 + body.size + 3 + rest.size

/-- The code of a body that starts at `base`, with `exit` as the end of the innermost loop around
it. -/
@[simp] def layout (base exit : Nat) : {k : Option Loop} → Body α k → List Instr
  | _, empty => []
  | _, plain item rest => instr item :: rest.layout (base + (instr item).size) exit
  | some l, leave rest => l.leaveCode exit ++ rest.layout (base + l.leaveSize) exit
  | _, cond yes rest =>
    let stop := base + 2 + yes.size instr
    .jumpZero stop :: yes.layout (base + 2) exit ++ rest.layout stop exit
  | _, choice yes no rest =>
    let other := base + 2 + yes.size instr + 2
    let stop := other + no.size instr
    .jumpZero other :: yes.layout (base + 2) exit ++ .jump stop :: no.layout other exit ++
      rest.layout stop exit
  | _, loop body back rest =>
    let stop := base + body.size instr + 2
    body.layout base stop ++ back.jump base :: rest.layout stop exit
  | _, guarded test body back rest =>
    let middle := base + test.size instr + 2
    let stop := middle + body.size instr + 2
    test.layout base stop ++ .jumpZero stop :: body.layout middle stop ++
      back.jump base :: rest.layout stop exit
  | _, counted body rest =>
    let top := base + 1
    let stop := top + body.size instr + 3
    .forLoop :: body.layout top stop ++ [.next, .jump top] ++ rest.layout stop exit

/-- The offsets of the jumps that leave the innermost loop around a body. -/
@[simp] def sites (base : Nat) : {k : Option Loop} → Body α k → List Nat
  | _, empty => []
  | _, plain item rest => rest.sites (base + (instr item).size)
  | some l, leave rest => l.leaveSite base :: rest.sites (base + l.leaveSize)
  | _, cond yes rest => yes.sites (base + 2) ++ rest.sites (base + 2 + yes.size instr)
  | _, choice yes no rest =>
    let other := base + 2 + yes.size instr + 2
    yes.sites (base + 2) ++ no.sites other ++ rest.sites (other + no.size instr)
  | _, loop body _ rest => rest.sites (base + body.size instr + 2)
  | _, guarded test body _ rest => rest.sites (base + test.size instr + 2 + body.size instr + 2)
  | _, counted body rest => rest.sites (base + 1 + body.size instr + 3)

end Code

variable {k : Option Loop}

@[simp] theorem append_empty (b : Body α k) : b.append .empty = b := by
  induction b <;> simp_all [append]

theorem append_assoc (b c d : Body α k) : (b.append c).append d = b.append (c.append d) := by
  induction b <;> simp_all [append]

@[simp] theorem symbols_append (b c : Body α k) :
    (b.append c).symbols = b.symbols ++ c.symbols := by
  induction b <;> simp_all [append, symbols]

theorem mem_items_iff {b : Body α k} {item : α} : item ∈ b.items ↔ .plain item ∈ b.symbols := by
  induction b <;> simp_all [symbols, items]

section Code
variable (instr : α → Instr)

@[simp] theorem size_append (b c : Body α k) :
    (b.append c).size instr = b.size instr + c.size instr := by
  induction b <;> simp_all [append, size] <;> omega

@[simp] theorem sizeAll_layout (base exit : Nat) (b : Body α k) :
    sizeAll (b.layout instr base exit) = b.size instr := by
  induction b generalizing base exit with
  | empty => rfl
  | plain item rest ih => simp [layout, size, ih]
  | leave rest ih => simp [layout, size, Loop.sizeAll_leaveCode, ih]
  | cond yes rest ihy ih => simp [layout, size, ihy, ih]; omega
  | choice yes no rest ihy ihn ih => simp [layout, size, ihy, ihn, ih]; omega
  | loop body back rest ihb ih => simp [layout, size, ihb, ih]; omega
  | guarded test body back rest iht ihb ih => simp [layout, size, iht, ihb, ih]; omega
  | counted body rest ihb ih => simp [layout, size, ihb, ih]; omega

theorem layout_append (base exit : Nat) (b c : Body α k) :
    (b.append c).layout instr base exit =
      b.layout instr base exit ++ c.layout instr (base + b.size instr) exit := by
  induction b generalizing base with
  | empty => simp [append, layout, size]
  | plain item rest ih => simp [append, layout, size, ih, Nat.add_assoc]
  | leave rest ih => simp [append, layout, size, ih, Nat.add_assoc]
  | cond yes rest _ ih => simp [append, layout, size, ih, Nat.add_assoc]
  | choice yes no rest _ _ ih => simp [append, layout, size, ih, Nat.add_assoc]
  | loop body back rest _ ih => simp [append, layout, size, ih, Nat.add_assoc]
  | guarded test body back rest _ _ ih => simp [append, layout, size, ih, Nat.add_assoc]
  | counted body rest _ ih => simp [append, layout, size, ih, Nat.add_assoc]

theorem sites_append (base : Nat) (b c : Body α k) :
    (b.append c).sites instr base = b.sites instr base ++ c.sites instr (base + b.size instr) := by
  induction b generalizing base with
  | empty => simp [append, sites, size]
  | plain item rest ih => simp [append, sites, size, ih, Nat.add_assoc]
  | leave rest ih => simp [append, sites, size, ih, Nat.add_assoc]
  | cond yes rest _ ih => simp [append, sites, size, ih, Nat.add_assoc]
  | choice yes no rest _ _ ih => simp [append, sites, size, ih, Nat.add_assoc]
  | loop body back rest _ ih => simp [append, sites, size, ih, Nat.add_assoc]
  | guarded test body back rest _ _ ih => simp [append, sites, size, ih, Nat.add_assoc]
  | counted body rest _ ih => simp [append, sites, size, ih, Nat.add_assoc]

/-- Code compiled with its exits open becomes the code that is meant once these are known. -/
theorem resolves_layout (base exit : Nat) (b : Body α k) :
    Resolves base (b.sites instr base) exit (b.layout instr base 0) (b.layout instr base exit) := by
  induction b generalizing base with
  | empty => exact .nil base exit []
  | plain item rest ih => exact .prepend [instr item] (by simp) (ih _)
  | @leave l rest ih =>
    exact (l.resolves_leaveCode base exit).append (by simp [Loop.sizeAll_leaveCode]) (ih _)
  | cond yes rest ihy ih =>
    exact .prepend [.jumpZero _] rfl ((ihy _).append (by simp) (ih _))
  | choice yes no rest ihy ihn ih =>
    refine ((Resolves.prepend [.jumpZero _] rfl (ihy _)).append ?_
      (.prepend [.jump _] rfl (ihn _))).append ?_ (ih _)
    · simp [Nat.add_assoc]
    · simp
      omega
  | loop body back rest _ ih =>
    exact .prepend (body.layout instr _ _) rfl (.prepend [back.jump _] (by simp) (ih _))
  | guarded test body back rest _ _ ih =>
    refine .prepend (test.layout instr _ _ ++ .jumpZero _ :: body.layout instr _ _) rfl
      (.prepend [back.jump _] ?_ (ih _))
    simp
    omega
  | counted body rest _ ih =>
    refine .prepend (.forLoop :: body.layout instr _ _ ++ [.next, .jump _]) ?_ (ih _)
    simp
    omega

/-- What holds of all plain items, of the other words of loops and of all branches that stay inside
holds of the whole code. -/
theorem forall_mem_layout {Q : Instr → Prop} {base exit : Nat} {b : Body α k}
    (hitems : ∀ item ∈ b.items, Q (instr item)) (hloop : Q .forLoop ∧ Q .next ∧ Q .leave)
    (hbranch : ∀ target ∈ boundaries base (b.layout instr base exit),
      Q (.jumpZero target) ∧ Q (.jump target))
    (hexit : k.isSome → Q (.jump exit)) : ∀ i ∈ b.layout instr base exit, Q i := by
  have hback {back : Back} {target : Nat} (h : Q (.jumpZero target) ∧ Q (.jump target)) :
      Q (back.jump target) := by
    cases back with
    | always => exact h.2
    | whenZero => exact h.1
  induction b generalizing base exit with
  | empty => simp [layout]
  | plain item rest ih =>
    simp only [items, List.forall_mem_cons] at hitems
    simp only [layout, boundaries, List.forall_mem_cons] at hbranch ⊢
    exact ⟨hitems.1, ih hitems.2 hbranch.2 hexit⟩
  | @leave l rest ih =>
    simp only [layout, forall_mem_boundaries_append, Loop.sizeAll_leaveCode] at hbranch
    simp only [layout, List.forall_mem_append]
    refine ⟨?_, ih hitems hbranch.2 hexit⟩
    cases l <;> simp [Loop.leaveCode, hloop, hexit]
  | cond yes rest ihy ih =>
    simp only [items, List.forall_mem_append] at hitems
    simp only [layout, List.cons_append, boundaries, List.forall_mem_cons, List.forall_mem_append,
      forall_mem_boundaries_append, size_jumpZero, sizeAll_layout] at hbranch ⊢
    obtain ⟨-, hyes, hrest⟩ := hbranch
    exact ⟨(hrest _ (mem_boundaries_start _ _)).1, ihy hitems.1 hyes hexit, ih hitems.2 hrest hexit⟩
  | choice yes no rest ihy ihn ih =>
    simp only [items, List.forall_mem_append] at hitems
    simp only [layout, List.cons_append, List.append_assoc, boundaries, List.forall_mem_cons,
      List.forall_mem_append, forall_mem_boundaries_append, size_jumpZero, size_jump,
      sizeAll_layout] at hbranch ⊢
    obtain ⟨-, hyes, -, hno, hrest⟩ := hbranch
    exact ⟨(hno _ (mem_boundaries_start _ _)).1, ihy hitems.1.1 hyes hexit,
      (hrest _ (mem_boundaries_start _ _)).2, ihn hitems.1.2 hno hexit, ih hitems.2 hrest hexit⟩
  | loop body back rest ihb ih =>
    simp only [items, List.forall_mem_append] at hitems
    simp only [layout, boundaries, List.forall_mem_cons, List.forall_mem_append,
      forall_mem_boundaries_append, Back.size_jump, sizeAll_layout] at hbranch ⊢
    obtain ⟨hbody, -, hrest⟩ := hbranch
    exact ⟨ihb hitems.1 hbody fun _ => (hrest _ (mem_boundaries_start _ _)).2,
      hback (hbody _ (mem_boundaries_start _ _)), ih hitems.2 hrest hexit⟩
  | guarded test body back rest iht ihb ih =>
    simp only [items, List.forall_mem_append] at hitems
    simp only [layout, List.cons_append, List.append_assoc, boundaries, List.forall_mem_cons,
      List.forall_mem_append, forall_mem_boundaries_append, size_jumpZero, Back.size_jump,
      sizeAll_layout] at hbranch ⊢
    obtain ⟨htest, -, hbody, -, hrest⟩ := hbranch
    have hstop := hrest _ (mem_boundaries_start _ _)
    exact ⟨iht hitems.1.1 htest fun _ => hstop.2, hstop.1, ihb hitems.1.2 hbody fun _ => hstop.2,
      hback (htest _ (mem_boundaries_start _ _)), ih hitems.2 hrest hexit⟩
  | counted body rest ihb ih =>
    simp only [items, List.forall_mem_append] at hitems
    simp only [layout, List.cons_append, List.append_assoc, List.nil_append, boundaries,
      List.forall_mem_cons, List.forall_mem_append, forall_mem_boundaries_append, size_forLoop,
      size_next, size_jump, sizeAll_layout, Nat.add_assoc, Nat.reduceAdd] at hbranch ⊢
    obtain ⟨-, hbody, -, -, hrest⟩ := hbranch
    refine ⟨hloop.1, ihb hitems.1 hbody fun _ => (hrest _ (mem_boundaries_start _ _)).2, hloop.2.1,
      (hbody _ (mem_boundaries_start _ _)).2, ih hitems.2 hrest hexit⟩

/-- Branches reach as far as the code does. -/
theorem encodable_layout {base exit : Nat} {b : Body α k}
    (hitems : ∀ item ∈ b.items, (instr item).Encodable) (hstop : base + b.size instr ≤ maxTarget)
    (hexit : exit ≤ maxTarget) : ∀ i ∈ b.layout instr base exit, i.Encodable := by
  refine forall_mem_layout instr hitems ⟨trivial, trivial, trivial⟩ ?_ fun _ => hexit
  intro target htarget
  have hle := le_of_mem_boundaries htarget
  rw [sizeAll_layout] at hle
  have hfits : target ≤ maxTarget := Nat.le_trans hle hstop
  exact ⟨hfits, hfits⟩

end Code
end Body
end ForthAssembler
