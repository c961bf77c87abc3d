import ForthAssembler.Assembler.Feed
import ForthAssembler.Proofs.Assembler.Defining

/-! What takes literals takes the topmost ones. -/
namespace ForthAssembler.Action
open Assembler Instr
variable {a : Assembler}

theorem ensures_popLiteral_top :
    popLiteral.Ensures (fun value a' => a.literals = value :: a'.literals)
      (fun e a' => e = .literalStackEmpty ∧ a' = a ∧ a.literals = []) a := by
  rw [ensures_popLiteral]
  constructor
  · exact fun hempty => ⟨rfl, rfl, hempty⟩
  · exact fun _ _ hliterals => hliterals

/-- The topmost literal is the number of bytes that are shown, and the one below it is where they
start. If there are not two, none is taken. -/
theorem ensures_dump_top :
    dump.Ensures
      (fun outcome a' => ∃ length start, a.literals = length :: start :: a'.literals ∧
        outcome = reportLines ((a.dictionary.memory.dump (Cell.unsigned start)
          (Cell.unsigned length)).map DumpLine.render))
      (fun e a' => e = .literalStackEmpty ∧ a' = a ∧ a.literals.length < 2) a := by
  unfold dump
  rw [ensures_bind, ensures_get]
  split
  · rename_i length start rest hliterals
    simp only [ensures_bind, ensures_popLiteral, hliterals, ensures_get, ensures_pure]
    constructor
    · exact fun hempty => absurd hempty (List.cons_ne_nil _ _)
    rintro _ _ ⟨⟩
    constructor
    · exact fun hempty => absurd hempty (List.cons_ne_nil _ _)
    · rintro _ _ ⟨⟩
      exact ⟨length, start, rfl, rfl⟩
  · rename_i hfew
    refine ⟨rfl, rfl, ?_⟩
    rcases hliterals : a.literals with _ | ⟨length, _ | ⟨start, rest⟩⟩
    · simp
    · simp
    · exact absurd hliterals (hfew length start rest)

/-- The topmost literal is the value of the constant. It is taken once the constant is defined. -/
theorem ensures_constant_top (name : String) :
    (named .constant name).Ensures
      (fun _ a' => ∃ value, a.literals = value :: a'.literals ∧
        Added a.dictionary.memory.allocated a.dictionary.head name
          (bytesAll (constantCode a.options.shortLiterals value)) a')
      (fun _ a' => a' = a ∧ ∀ value ∈ a.literals.head?,
        ¬ a.Accepts name (sizeAll (constantCode a.options.shortLiterals value))) a := by
  simp only [named, ensures_bind, ensures_get]
  split
  · rename_i hempty
    simp [hempty]
  · rename_i value rest hliterals
    rw [ensures_bind]
    apply (ensures_defineConstant_code name value).mono
    · intro address a' hadds
      have hadded := hadds.added
      rw [List.append_nil] at hadded
      have hkept : a'.literals = value :: rest := hadds.keeps.literals.trans hliterals
      simp only [ensures_bind, ensures_popLiteral, ensures_get, ensures_pure, hkept]
      constructor
      · exact fun hempty => absurd hempty (List.cons_ne_nil _ _)
      · rintro _ _ ⟨⟩
        exact ⟨value, hliterals, hadded.allocated, hadded.head, hadded.definition, hadded.legal⟩
    · rintro _ a' ⟨rfl, hrefused⟩
      simp [hliterals, hrefused]

end ForthAssembler.Action
