import ForthAssembler.Proofs.Text.Case
import ForthAssembler.Proofs.Token.Literals
import ForthAssembler.Proofs.Session.Attains

/-! Where names match in either case, words that differ only in the case of ASCII letters mean the
same. -/
namespace ForthAssembler
open Text

namespace Token

/-- A character between quotes, after an optional minus, and the cell that it stands for. -/
inductive Quoted : List Char → Int16 → Prop
  | positive (c : Char) : Quoted ['\x27', c, '\x27'] (Int16.ofInt c.toNat)
  | negative (c : Char) : Quoted ['-', '\x27', c, '\x27'] (Int16.ofInt (-c.toNat))

section Literals
variable {radix value : Nat} {s t : List Char} {n : Int16}

/-- Only a quoted character has another magnitude in the other case. -/
theorem Magnitude.recased (h : Magnitude radix s value) (hcase : Recased s t) :
    Magnitude radix t value ∨ ∃ c d, SameLetter c d ∧ s = ['\x27', c, '\x27'] ∧
      t = ['\x27', d, '\x27'] ∧ value = c.toNat := by
  cases h with
  | decimal h =>
    obtain ⟨rest, rfl, hrest⟩ := hcase.of_cons (by decide)
    exact .inl (.decimal (h.recased hrest))
  | hexadecimal h =>
    obtain ⟨rest, rfl, hrest⟩ := hcase.of_cons (by decide)
    exact .inl (.hexadecimal (h.recased hrest))
  | binary h =>
    obtain ⟨rest, rfl, hrest⟩ := hcase.of_cons (by decide)
    exact .inl (.binary (h.recased hrest))
  | plain h => exact .inl (.plain (h.recased hcase))
  | character c =>
    obtain ⟨rest, rfl, hrest⟩ := hcase.of_cons (by decide)
    cases hrest with
    | @cons _ d _ _ hletter hquote =>
      obtain ⟨rest, rfl, hnil⟩ := Recased.of_cons hquote (by decide)
      rw [List.forall₂_nil_left_iff.mp hnil]
      exact .inr ⟨c, d, hletter, rfl, rfl, rfl⟩

/-- Both cases of a letter are in the range of cells. -/
theorem le_of_sameLetter {c d : Char} (h : SameLetter c d) {limit : Nat} (hlimit : 127 ≤ limit)
    (hc : c.toNat ≤ limit) : d.toNat ≤ limit := by
  obtain rfl | ⟨-, hZ, hd⟩ | ⟨-, hZ, hd⟩ := h
  · exact hc
  · have : c.toNat ≤ 90 := hZ
    omega
  · omega

theorem Literal.recased (h : Literal radix s n) (hcase : Recased s t) :
    Literal radix t n ∨ ∃ m, Quoted s n ∧ Quoted t m ∧ Literal radix t m := by
  cases h with
  | positive h hle =>
    obtain ht | ⟨c, d, hletter, rfl, rfl, rfl⟩ := h.recased hcase
    · exact .inl (.positive ht hle)
    · have hle' := le_of_sameLetter hletter (by decide) hle
      exact .inr ⟨_, .positive c, .positive d, .positive (.character d) hle'⟩
  | negative h hle =>
    obtain ⟨rest, rfl, hrest⟩ := hcase.of_cons (by decide)
    obtain ht | ⟨c, d, hletter, rfl, rfl, rfl⟩ := h.recased hrest
    · exact .inl (.negative ht hle)
    · have hle' := le_of_sameLetter hletter (by decide) hle
      exact .inr ⟨_, .negative c, .negative d, .negative (.character d) hle'⟩

end Literals

variable {s t : String}

theorem parseNumber?_recased (radix : Nat) (h : Recased s.toList t.toList) :
    parseNumber? radix s = parseNumber? radix t ∨
      ∃ m n, (Quoted s.toList m ∧ Quoted t.toList n) ∧
        parseNumber? radix s = some m ∧ parseNumber? radix t = some n := by
  cases hs : parseNumber? radix s with
  | some m =>
    obtain ht | ⟨n, hsm, htn, ht⟩ := (parseNumber?_eq_some_iff.mp hs).recased h
    · exact .inl (parseNumber?_eq_some_iff.mpr ht).symm
    · exact .inr ⟨m, n, ⟨hsm, htn⟩, rfl, parseNumber?_eq_some_iff.mpr ht⟩
  | none =>
    cases ht : parseNumber? radix t with
    | none => exact .inl rfl
    | some n =>
      -- What is read in the other case is read in this one.
      have hread : ∃ m, parseNumber? radix s = some m := by
        obtain hs' | ⟨m, -, -, hs'⟩ := (parseNumber?_eq_some_iff.mp ht).recased h.symm
        · exact ⟨n, parseNumber?_eq_some_iff.mpr hs'⟩
        · exact ⟨m, parseNumber?_eq_some_iff.mpr hs'⟩
      obtain ⟨m, hm⟩ := hread
      cases hs.symm.trans hm

end Token

theorem Mnemonic.find?_recased {α : Type} {s t : String} (h : Recased s.toList t.toList)
    (table : List (Mnemonic α)) : find? true table s = find? true table t := by
  simp only [find?, h.sameName_eq]

theorem Token.builtin?_recased {s t : String} (h : Recased s.toList t.toList) (mode : Mode) :
    builtin? mode true s = builtin? mode true t := by
  cases mode <;> simp only [builtin?, modeWord?, Mnemonic.find?_recased h]

theorem Dictionary.find?_recased {s t : String} (h : Recased s.toList t.toList) (d : Dictionary) :
    d.find? true s = d.find? true t := by
  simp only [find?, sameName_comm true _ s, sameName_comm true _ t, h.sameName_eq]

theorem Token.classify_recased {s t : String} (h : Recased s.toList t.toList) (d : Dictionary)
    (mode : Mode) {options : Options} (hfold : options.foldCase = true) :
    classify d mode options s = classify d mode options t ∨
      (classify d mode options s = .unknown s ∧ classify d mode options t = .unknown t) ∨
      ∃ m n, (Quoted s.toList m ∧ Quoted t.toList n) ∧ classify d mode options s = .number m ∧
        classify d mode options t = .number n := by
  unfold classify
  rw [hfold, d.find?_recased h, builtin?_recased h]
  cases d.find? true t with
  | some entry => exact .inl rfl
  | none =>
    cases builtin? mode true t with
    | some token => exact .inl rfl
    | none =>
      obtain heq | ⟨m, n, hquoted, hs, ht⟩ := parseNumber?_recased options.radix h
      · rw [heq]
        cases parseNumber? options.radix t with
        | some value => exact .inl rfl
        | none => exact .inr (.inl ⟨rfl, rfl⟩)
      · rw [hs, ht]
        exact .inr (.inr ⟨m, n, hquoted, rfl, rfl⟩)

/-- What is asked of a dictionary by name has the same result for both names, or each is unknown. -/
theorem Dictionary.forget_recased {s t : String} (h : Recased s.toList t.toList) (d : Dictionary) :
    d.forget true s = d.forget true t ∨ d.forget true s = .error (.refused (.unknownWord s)) ∧
      d.forget true t = .error (.refused (.unknownWord t)) := by
  unfold forget
  rw [d.find?_recased h]
  cases d.find? true t with
  | none => exact .inr ⟨rfl, rfl⟩
  | some entry => exact .inl rfl

theorem Dictionary.see_recased {s t : String} (h : Recased s.toList t.toList) (d : Dictionary) :
    d.see true s = d.see true t ∨
      d.see true s = .error (.unknownWord s) ∧ d.see true t = .error (.unknownWord t) := by
  unfold see
  rw [d.find?_recased h]
  cases d.find? true t with
  | none => exact .inr ⟨rfl, rfl⟩
  | some entry => exact .inl rfl

theorem Assembler.find?_recased {s t : String} (h : Recased s.toList t.toList) (a : Assembler)
    (hfold : a.options.foldCase = true) : a.find? s = a.find? t := by
  rw [find?, find?, hfold, a.dictionary.find?_recased h]

theorem Assembler.lookup?_recased {s t : String} (h : Recased s.toList t.toList) (a : Assembler)
    (hfold : a.options.foldCase = true) : a.lookup? s = a.lookup? t := by
  rw [lookup?, lookup?, a.find?_recased h hfold]

namespace Operation
variable {s t : String} {a : Assembler}

/-- The operations that need a word of some name. -/
def naming : List (String → Operation) := [forget, require, see]

/-- They find the same entry for both names. -/
theorem naming_recased (h : Recased s.toList t.toList) (hfold : a.options.foldCase = true) :
    ∀ operation ∈ naming, (operation s).perform.run a = (operation t).perform.run a ∨
      (operation s).perform.run a = .error (.refused (.unknownWord s)) a ∧
        (operation t).perform.run a = .error (.refused (.unknownWord t)) a := by
  simp only [naming, List.forall_mem_cons, List.not_mem_nil, false_implies, implies_true, and_true]
  refine ⟨?_, ?_, ?_⟩
  · rw [run_forget, run_forget, hfold]
    cases a.isCompiling with
    | true => exact .inl rfl
    | false =>
      obtain heq | ⟨hs, ht⟩ := a.dictionary.forget_recased h
      · rw [heq]
        exact .inl rfl
      · rw [hs, ht]
        exact .inr ⟨rfl, rfl⟩
  · rw [run_require, run_require, a.lookup?_recased h hfold]
    cases a.lookup? t with
    | some code => exact .inl rfl
    | none => exact .inr ⟨rfl, rfl⟩
  · rw [run_see, run_see, hfold]
    obtain heq | ⟨hs, ht⟩ := a.dictionary.see_recased h
    · rw [heq]
      exact .inl rfl
    · rw [hs, ht]
      exact .inr ⟨rfl, rfl⟩

end Operation

/-- Where names match in either case, a word means the same in either case, whatever the dictionary,
the mode and the radix are. Only a quoted character is read as itself, and what means nothing is
given back as it is. So one entry is found for both names. -/
theorem Token.meaning_recased {s t : String} (h : Recased s.toList t.toList) :
    (∀ (d : Dictionary) (mode : Mode) (options : Options), options.foldCase = true →
      classify d mode options s = classify d mode options t ∨
        (classify d mode options s = .unknown s ∧ classify d mode options t = .unknown t) ∨
        ∃ m n, (Quoted s.toList m ∧ Quoted t.toList n) ∧ classify d mode options s = .number m ∧
          classify d mode options t = .number n) ∧
    ∀ a : Assembler, a.options.foldCase = true →
      a.find? s = a.find? t ∧ a.lookup? s = a.lookup? t ∧
        ∀ operation ∈ Operation.naming,
          (operation s).perform.run a = (operation t).perform.run a ∨
            (operation s).perform.run a = .error (.refused (.unknownWord s)) a ∧
              (operation t).perform.run a = .error (.refused (.unknownWord t)) a := by
  constructor
  · intro d mode options hfold
    exact classify_recased h d mode hfold
  · intro a hfold
    exact ⟨a.find?_recased h hfold, a.lookup?_recased h hfold, Operation.naming_recased h hfold⟩

/-- A name with letters that have no other case here. -/
theorem Token.meaning_recased_accents :
    let a := Operation.settleAll [.defineConstant "Été" 7, .defineConstant "étÉ" 8]
      (.new ⟨32, by decide, by decide⟩ { foldCase := true } .empty)
    Recased "Été".toList "ÉTé".toList ∧ a.options.foldCase = true ∧ a.lookup? "Été" = some 8 ∧
      a.lookup? "ÉTé" = some 8 := by
  intro a
  have h : Recased "Été".toList "ÉTé".toList := sameName_iff.mp (by decide +kernel)
  have hfold : a.options.foldCase = true := by decide +kernel
  have hlookup : a.lookup? "Été" = some 8 := by decide +kernel
  obtain ⟨-, heq, -⟩ := (meaning_recased h).2 a hfold
  exact ⟨h, hfold, hlookup, heq ▸ hlookup⟩

end ForthAssembler
