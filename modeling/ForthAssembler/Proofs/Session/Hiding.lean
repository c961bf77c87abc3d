import ForthAssembler.Proofs.Session.Courses

/-! A word is not seen inside its own definition: there all words mean what they meant where it was
opened. -/
namespace ForthAssembler
open Text Assembler

/-- Words mean the same where the same ones are found. -/
theorem Token.classify_congr {d d' : Dictionary} {mode : Mode} {options : Options} {text : String}
    (h : d.find? options.foldCase text = d'.find? options.foldCase text) :
    classify d mode options text = classify d' mode options text := by
  rw [classify, h, ← classify]

theorem Token.classify_of_find? {d : Dictionary} {mode : Mode} {options : Options} {text : String}
    {entry : Entry} (h : d.find? options.foldCase text = some entry) :
    classify d mode options text = .word entry.code := by
  simp [classify, h]

namespace Assembler
open Word
variable {s a : Assembler} {name : String} {words : List Word}

/-- While it is under way a definition is passed over in every search. -/
theorem Underway.find? (h : Underway s name a)
    (halloc : s.dictionary.memory.allocated = image words)
    (hhead : s.dictionary.head = latest words) (hlegal : Legal words) (foldCase : Bool)
    (text : String) : a.dictionary.find? foldCase text = s.dictionary.find? foldCase text := by
  obtain ⟨draft, hdefines⟩ := h.defines
  rw [halloc, hhead] at hdefines
  have hentries : a.dictionary.entries = entry words true name :: s.dictionary.entries := by
    rw [Dictionary.entries_eq halloc hhead hlegal]
    exact Dictionary.entries_eq_hidden hdefines.code.allocated hdefines.head hdefines.legal hlegal
  rw [Dictionary.find?, hentries, List.find?_cons_of_neg, ← Dictionary.find?]
  simp [hidden_entry hdefines.legal]

/-- A definition that has been closed is found by its name, and nothing else is found anew. -/
theorem Finished.find? (h : Finished s name a)
    (halloc : s.dictionary.memory.allocated = image words)
    (hhead : s.dictionary.head = latest words) (hlegal : Legal words) (foldCase : Bool)
    (text : String) : a.dictionary.find? foldCase text =
      if sameName foldCase name text then some (entry words false name)
      else s.dictionary.find? foldCase text := by
  obtain ⟨body, hadded⟩ := h.added
  rw [halloc, hhead] at hadded
  have hname : Legal (⟨name, body, .colon⟩ :: words) :=
    List.forall_mem_cons.mpr ⟨hadded.legal, hlegal⟩
  have hentries : a.dictionary.entries = entry words false name :: s.dictionary.entries := by
    rw [Dictionary.entries_eq halloc hhead hlegal]
    exact Dictionary.entries_eq hadded.allocated hadded.head hname
  have hvisible : (entry words false name).hidden = false := hidden_entry hadded.legal
  have hnamed : (entry words false name).name = name := rfl
  rw [Dictionary.find?, hentries]
  by_cases hsame : sameName foldCase name text
  · rw [if_pos hsame, List.find?_cons_of_pos]
    simpa [hvisible, hnamed] using hsame
  · rw [if_neg hsame, List.find?_cons_of_neg, ← Dictionary.find?]
    simpa [hvisible, hnamed] using hsame

end Assembler
open Word

/-- Every open definition of a session is in its course from a closed state. There every word of
input means what it would have meant in that state in a definition, so that the name of the
definition calls the older word of that name, if there is one. Once the definition is closed its
name means the new word, and all others mean what they did. -/
theorem Reachable.hides_definition {s : Assembler} (h : Reachable s) :
    (∀ definition, s.definition = some definition →
      ∃ r, Reachable r ∧ r.definition = none ∧ Course r definition.name s) ∧
    (s.definition = none → ∀ name a, Course s name a →
      (∀ text, a.classify text = Token.classify s.dictionary .compile s.options text) ∧
      (a.awaiting = .nothing → ∀ text,
        (Action.feed text).run a =
          (Action.compile (Token.classify s.dictionary .compile s.options text)).run a ∧
        ∀ code, s.lookup? text = some code →
          (Action.feed text).run a = (Action.emit [.call code] []).run a) ∧
      ∀ b, Closes a b →
        (∃ body, b.Added s.dictionary.memory.allocated s.dictionary.head name body) ∧
        ∀ text, b.classify text =
          if sameName s.options.foldCase name text then
            .word (s.here + Entry.nameOffset + (utf8 name).length)
          else s.classify text) := by
  refine ⟨h.begun.course, fun hclosed name a hcourse => ?_⟩
  obtain ⟨l, hl⟩ := h.exists_history
  obtain ⟨halloc, hhead⟩ := hl.follows.closed hclosed
  have hlegal := hl.follows.sound.legal
  have hunderway := hcourse.underway
  obtain ⟨draft, hdefines⟩ := hunderway.defines
  have hmode : a.mode = .compile := hdefines.mode
  have hclassify (text : String) :
      a.classify text = Token.classify s.dictionary .compile s.options text := by
    rw [classify, hmode, hunderway.options]
    exact Token.classify_congr (hunderway.find? halloc hhead hlegal _ text)
  refine ⟨hclassify, fun hawaiting text => ?_, fun b hcloses => ?_⟩
  · have hfeed : (Action.feed text).run a =
        (Action.compile (Token.classify s.dictionary .compile s.options text)).run a := by
      rw [← hclassify, Action.run_feed_compile hawaiting hmode]
    refine ⟨hfeed, fun code hcode => ?_⟩
    obtain ⟨e, he, rfl⟩ := Option.map_eq_some_iff.mp hcode
    rw [hfeed, Token.classify_of_find? he, Action.compile]
  · have hfinished := hcloses.finished hunderway
    obtain ⟨body, hadded⟩ := hfinished.added
    refine ⟨⟨body, hadded⟩, fun text => ?_⟩
    have hs : s.mode = .interpret := hl.follows.mode hclosed
    have hfind := hfinished.find? halloc hhead hlegal s.options.foldCase text
    rw [classify, hfinished.mode, hfinished.options]
    split
    · rename_i hsame
      rw [if_pos hsame] at hfind
      have hhere : s.here = (image l.words).length := by
        rw [here, Dictionary.here, ← Memory.length_allocated, halloc]
      rw [Token.classify_of_find? hfind, code_entry hadded.legal, code, hhere, Nat.add_assoc]
    · rename_i hother
      rw [if_neg hother] at hfind
      rw [classify, hs]
      exact Token.classify_congr hfind

/-- A definition that calls the older word of its name. -/
theorem Reachable.hides_definition_again :
    let s := (Operation.feed ":").settle ((Operation.run (utf8 ": A 1 ;")).settle
      (.new ⟨64, by decide, by decide⟩ {} .empty))
    let a := (Operation.feed "A").settle s
    let b := (Operation.feed "A").settle a
    let c := (Operation.feed ";").settle b
    Reachable s ∧ s.definition = none ∧ Course s "A" b ∧
      (Action.feed "A").run a = (Action.emit [.call 4] []).run a ∧ c.classify "A" = .word 12 := by
  intro s a b c
  have hfirst : Reachable ((Operation.run (utf8 ": A 1 ;")).settle
      (.new ⟨64, by decide, by decide⟩ {} .empty)) := .perform (.start _ _ rfl) trivial
  have h : Reachable s := hfirst.perform (show (Operation.feed ":").Ordinary from trivial)
  have hclosed : s.definition = none := by decide +kernel
  have hname : (Action.feed "A").run s = .ok .done a :=
    Operation.run_feed_of_reply (by decide +kernel)
  have hbody : (Action.feed "A").run a = .ok (.compiled 12 14) b :=
    Operation.run_feed_of_reply (by decide +kernel)
  have hend : (Action.feed ";").run b = .ok (.defined "A" 8 14 15) c :=
    Operation.run_feed_of_reply (by decide +kernel)
  have hcourse : Course s "A" a := .colon (by decide +kernel) hname
  have hlater : Course s "A" b :=
    hcourse.perform (show (Operation.feed "A").Single from trivial) (Operation.run_map_ok hbody)
      (by decide +kernel)
  obtain ⟨-, hfeed, -⟩ := (Reachable.hides_definition h).2 hclosed "A" a hcourse
  obtain ⟨-, -, hcloses⟩ := (Reachable.hides_definition h).2 hclosed "A" b hlater
  have hcall := (hfeed (by decide +kernel) "A").2 4 (by decide +kernel)
  have hmeans := (hcloses c (.feed hend (by decide +kernel))).2 "A"
  exact ⟨h, hclosed, hlater, hcall, hmeans.trans (by decide +kernel)⟩

end ForthAssembler
