import ForthAssembler.Proofs.Assembler.Demand
import ForthAssembler.Proofs.Text.Case

/-! A string is begun only by a word for one. -/
namespace ForthAssembler
open Text

namespace Text

/-- A word that neither begins a string nor drops the rest of its line. -/
structure Unmarked (word : String) : Prop where
  line : word ≠ "\\"
  text : word ≠ ".\""
  shortText : sameName true word "DQ" = false

instance (word : String) : Decidable (Unmarked word) :=
  decidable_of_iff (word ≠ "\\" ∧ word ≠ ".\"" ∧ sameName true word "DQ" = false)
    ⟨fun h => ⟨h.1, h.2.1, h.2.2⟩, fun h => ⟨h.line, h.text, h.shortText⟩⟩

theorem eq_of_sameName_dotQuote {foldCase : Bool} {word : String}
    (h : sameName foldCase word ".\"" = true) : word = ".\"" := by
  cases foldCase with
  | false => simpa [sameName] using h
  | true =>
    have hcase : Recased ['.', '"'] word.toList := (sameName_iff.mp h).symm
    obtain ⟨rest, hword, hrest⟩ := hcase.of_cons (by decide)
    obtain ⟨_, rfl, hnil⟩ := hrest.of_cons (by decide)
    rw [List.forall₂_nil_left_iff.mp hnil] at hword
    exact String.toList_inj.mp hword

theorem Unmarked.sameName_shortText {word : String} (h : Unmarked word) (foldCase : Bool) :
    sameName foldCase word "DQ" = false := by
  cases foldCase with
  | true => exact h.shortText
  | false =>
    rw [Bool.eq_false_iff]
    intro hsame
    have heq : word = "DQ" := by simpa [sameName] using hsame
    have hshort := h.shortText
    rw [heq, sameName_refl] at hshort
    cases hshort

end Text

namespace Token

/-- Other words do not stand for a string. -/
theorem classify_ne_text {d : Dictionary} {mode : Mode} {options : Options} {word : String}
    (h : Unmarked word) : classify d mode options word ≠ .extended Extended.text.id := by
  have hextended : Mnemonic.find? options.foldCase Mnemonic.extendeds word ≠ some .text := by
    intro hfind
    obtain ⟨m, hm, hmeaning⟩ := Option.map_eq_some_iff.mp hfind
    have hmem := List.mem_of_find?_eq_some hm
    have hname := List.find?_some hm
    simp only [Mnemonic.extendeds, List.mem_cons, List.not_mem_nil, or_false] at hmem
    rcases hmem with rfl | rfl | rfl | rfl | rfl | rfl <;> simp at hmeaning
    simp only [h.sameName_shortText, Bool.false_or] at hname
    exact h.text (eq_of_sameName_dotQuote hname)
  have hbuiltin : ∀ token, builtin? mode options.foldCase word = some token →
      token ≠ .extended Extended.text.id := by
    rintro _ htoken rfl
    simp only [builtin?, Option.orElse_eq_orElse, Option.orElse_eq_or, Option.or_eq_some_iff,
      Option.map_eq_some_iff] at htoken
    rcases htoken with hmode | ⟨-, ⟨_, -, hprimitive⟩ | ⟨-, op, hop, hid⟩⟩
    · cases mode <;> simp [modeWord?] at hmode
    · cases hprimitive
    · have htext : Extended.ofId? op.id = some .text :=
        Extended.ofId?_eq_some_iff.mpr (Token.extended.inj hid).symm
      rw [Extended.ofId?_id] at htext
      exact hextended (hop.trans htext)
  unfold classify
  cases d.find? options.foldCase word with
  | some e => simp
  | none =>
    cases hb : builtin? mode options.foldCase word with
    | some token => simpa using hbuiltin token hb
    | none => cases parseNumber? options.radix word <;> simp

/-- Other tokens do not begin one. -/
theorem awaits?_ne_text {token : Token} (h : token ≠ .extended Extended.text.id) (mode : Mode)
    (collected : Option String) : token.awaits? mode ≠ some (.text collected) := by
  cases mode with
  | interpret =>
    cases token with
    | extended id =>
      have hid : id ≠ Extended.text.id := fun heq => h (heq ▸ rfl)
      simp [awaits?, hid]
    | command c => cases c <;> simp [awaits?, Command.awaits?]
    | _ => simp [awaits?]
  | compile =>
    cases token with
    | extended id =>
      intro htext
      obtain ⟨op, hop, hawaits⟩ := Option.bind_eq_some_iff.mp htext
      obtain rfl := Extended.ofId?_eq_some_iff.mp hop
      cases op with
      | text => exact h rfl
      | _ => cases hawaits
    | _ => simp [awaits?]

end Token

namespace Action
variable {a : Assembler}

/-- An unmarked word begins no string, in whatever state. -/
theorem quiet_feed {word : String} (h : Unmarked word) (hquiet : a.isCollecting = false) :
    (feed word).Meets (fun _ a' => a'.isCollecting = false) (fun _ a' => a'.isCollecting = false)
      True a := by
  have hawaits (collected : Option String) : (a.demand word).awaits ≠ some (.text collected) := by
    unfold Assembler.demand
    split
    · nofun
    · nofun
    · rename_i hawaiting
      simp [Assembler.isCollecting, hawaiting] at hquiet
    · exact Token.awaits?_ne_text (Token.classify_ne_text h) _ _
  have hdoes : (feed word).Does (a.demand word) { a with awaiting := .nothing } a := does_feed word
  apply (hdoes.accepts.with_refused hdoes.refuses).mono
  · intro _ a' heffect
    rw [Assembler.isCollecting, heffect.awaiting]
    cases hsome : (a.demand word).awaits with
    | none => rfl
    | some awaiting =>
      cases awaiting with
      | text collected => exact absurd hsome (hawaits collected)
      | _ => rfl
  · rintro _ _ rfl
    rfl
  · exact id

end Action
end ForthAssembler
