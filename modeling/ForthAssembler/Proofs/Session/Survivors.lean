import ForthAssembler.Proofs.Session.Sources

/-! The image depends only on the definitions that survive: made again from their sources, they give
the same image. -/
namespace ForthAssembler
open Text Assembler Word

namespace Dictionary
variable {d d' : Dictionary} {words : List Word}

/-- What is left are the words older than the forgotten one. -/
theorem image_of_forget_eq_ok (halloc : d.memory.allocated = image words)
    (hhead : d.head = latest words) (hlegal : Legal words) {foldCase : Bool} {name : String}
    {address : Nat} (h : d.forget foldCase name = .ok (address, d')) :
    d'.memory.allocated = image (Word.forget foldCase name words) ∧
      d'.head = latest (Word.forget foldCase name words) ∧
      Legal (Word.forget foldCase name words) := by
  have hentries := entries_eq halloc hhead hlegal
  cases hfind : d.find? foldCase name with
  | none => simp [forget, hfind] at h
  | some e =>
    obtain ⟨word, older, newer, rfl, hforget, rfl⟩ :=
      of_find?_eq_some hlegal (.inl hentries) hfind
    -- The image is cut where the entry of the forgotten word begins.
    obtain ⟨rest, hrest⟩ := exists_image_append newer (word :: older)
    rw [hrest, image, List.append_assoc, List.append_assoc] at halloc
    obtain ⟨d'', htruncate, hlink, -, himage⟩ := truncate_eq_ok halloc fun n hn =>
      lt_of_mem_latest hn
    simp only [forget, hfind, Word.entry, htruncate, Except.ok.injEq, Prod.mk.injEq] at h
    obtain ⟨-, rfl⟩ := h
    rw [hforget]
    exact ⟨himage, hlink, fun w hw => hlegal w (by simp [hw])⟩

/-- The names that are listed are those of the words. -/
theorem words_eq (halloc : d.memory.allocated = image words) (hhead : d.head = latest words)
    (hlegal : Legal words) : d.words = words.map (·.name) := by
  rw [Dictionary.words, visible, entries_eq halloc hhead hlegal]
  clear halloc hhead
  induction words with
  | nil => rfl
  | cons word older ih =>
    obtain ⟨hword, holder⟩ := List.forall_mem_cons.mp hlegal
    rw [Word.entries, List.filter_cons_of_pos, List.map_cons, ih holder, List.map_cons]
    · rfl
    · simp [hidden_entry hword]

end Dictionary

namespace Session
variable {a b c : Assembler} {word : String}

theorem settle_of_ok {outcome : Outcome} (h : (Action.feed word).run a = .ok outcome b) :
    settle a word = b := by
  rw [settle, feed, h]

theorem settle_of_refused {e : Error} (h : (Action.feed word).run a = .error (.refused e) b)
    (habort : Action.abort.run b = .ok () c) : settle a word = c := by
  rw [settle, feed, h]
  simp only [habort]

end Session

/-- The journal accounts for the image: the sources make its words, and what the open definition has
taken so far brings an assembler that is ready for them to the same point. -/
structure Journaled (capacity : Capacity) (options : Options) (words : List Word) (j : Journal)
    (a : Assembler) : Prop extends Safe capacity a where
  legal : Legal words
  rules : options.SameRules a.options
  made : Made capacity options j.sources words
  image : a.definition = none →
    a.dictionary.memory.allocated = Word.image words ∧ a.dictionary.head = latest words
  defines : ∀ definition, a.definition = some definition → ∃ draft,
    a.Defines id (Word.image words) (latest words) definition.name draft
  replays : ∀ definition, a.definition = some definition → ∀ r, Ready capacity options words r →
    ∃ r', (Source.make ⟨a.options.hex, definition.name, .colon j.body⟩).run r = .ok () r' ∧
      r'.Shadows a

namespace Journaled
variable {capacity : Capacity} {options : Options} {words : List Word} {j : Journal}
  {a a' : Assembler} {word : String}

theorem of_closed (hsafe : Safe capacity a) (hlegal : Legal words)
    (hrules : options.SameRules a.options) {sources : List Source}
    (hmade : Made capacity options sources words) (hclosed : a.definition = none)
    (himage : a.dictionary.memory.allocated = Word.image words ∧ a.dictionary.head = latest words) :
    Journaled capacity options words ⟨sources, []⟩ a :=
  ⟨hsafe, hlegal, hrules, hmade, fun _ => himage, by simp [hclosed], by simp [hclosed]⟩

theorem of_defines (hsafe : Safe capacity a) (hlegal : Legal words)
    (hrules : options.SameRules a.options) {sources : List Source}
    (hmade : Made capacity options sources words) {name : String}
    {draft : Draft.Any Instr}
    (hdefines : a.Defines id (Word.image words) (latest words) name draft) {body : List String}
    (hreplays : ∀ r, Ready capacity options words r →
      ∃ r', (Source.make ⟨a.options.hex, name, .colon body⟩).run r = .ok () r' ∧ r'.Shadows a) :
    Journaled capacity options words ⟨sources, body⟩ a := by
  refine ⟨hsafe, hlegal, hrules, hmade, by simp [hdefines.definition], ?_, ?_⟩
  · intro definition hopen
    obtain rfl := Option.some.inj (hdefines.definition.symm.trans hopen)
    exact ⟨draft, hdefines⟩
  · intro definition hopen
    obtain rfl := Option.some.inj (hdefines.definition.symm.trans hopen)
    exact hreplays

theorem new (capacity : Capacity) (options : Options) (storage : Storage) :
    Journaled capacity options [] ⟨[], []⟩ (.new capacity options storage) :=
  of_closed (.new capacity options storage) (by simp [Legal]) ⟨rfl, rfl⟩ .nil rfl
    ⟨Memory.allocated_blank capacity, rfl⟩

theorem ensures_abort (h : Journaled capacity options words j a) :
    Action.abort.Ensures
      (fun _ c => c.definition = none ∧ c.dictionary.memory.allocated = Word.image words ∧
        c.dictionary.head = latest words ∧ c.options = a.options)
      (fun _ _ => False) { a with awaiting := .nothing } := by
  cases hdefinition : a.definition with
  | none =>
    obtain ⟨halloc, hhead⟩ := h.image hdefinition
    simp only [Action.abort, Action.ensures_bind, Action.ensures_await, Action.ensures_setFrames,
      Action.ensures_get]
    simp only [Action.ensures_setMode]
    exact ⟨trivial, halloc, hhead, trivial⟩
  | some definition =>
    obtain ⟨draft, hdefines⟩ := h.defines definition hdefinition
    rw [← hdefinition]
    apply (Action.ensures_abort (hdefines.await .nothing) fun n hn => lt_of_mem_latest hn).imp
    rintro _ c ⟨halloc, hhead, hclosed, -, -, -, -, hoptions, -⟩
    exact ⟨hclosed, halloc, hhead, hoptions⟩

/-- What is refused leaves no trace: the open definition, if any, is dropped. -/
theorem after_refused (h : Journaled capacity options words j a) {e : Error} {b : Assembler}
    (hrun : (Action.feed word).run a = .error (.refused e) b) :
    Journaled capacity options words (j.after a word) (Session.settle a word) := by
  obtain rfl := (Action.does_feed word).refuses.of_refused hrun
  have hsafe : Safe capacity { a with awaiting := .nothing } := h.toSafe.await (by simp)
  have habort := ((Safe.session capacity).abort _ hsafe).and_ensures h.ensures_abort
  obtain ⟨_, c, hrun', hsafe', hclosed, halloc, hhead, hoptions⟩ | ⟨e', c, -, -, hfalse⟩ :=
    habort.run_cases
  · rw [Session.settle_of_refused hrun hrun', Journal.after, hrun]
    exact of_closed hsafe' h.legal (hoptions ▸ h.rules) h.made hclosed ⟨halloc, hhead⟩
  · exact hfalse.elim

/-- One more word of the open definition is replayed. -/
theorem replays_word (h : Journaled capacity options words j a) {definition : Definition}
    (hopen : a.definition = some definition) {outcome : Outcome}
    (hrun : (Action.feed word).run a = .ok outcome a') {r : Assembler}
    (hr : Ready capacity options words r) :
    ∃ r', (Source.make ⟨a.options.hex, definition.name, .colon (j.body ++ [word])⟩).run r =
      .ok () r' ∧ r'.Shadows a' := by
  obtain ⟨draft, hdefines⟩ := h.defines definition hopen
  obtain ⟨r', hmake, hshadows⟩ := h.replays definition hopen r hr
  have hmode : a.mode ≠ .interpret := by simp [hdefines.mode]
  have hconstant : a.awaiting ≠ .name .constant := by
    intro hawaiting
    rw [Action.run_feed_name hawaiting] at hrun
    have hisOpen : ({ a with awaiting := .nothing } : Assembler).definition ≠ none := by simp [hopen]
    obtain ⟨-, hsee, -⟩ := (Action.ensures_named_opened hisOpen _ word).of_ok hrun
    cases hsee
  have huse : a.UsesStorage word → False := fun huses => hmode huses.2.1
  have haside : a.UsesLiterals → False ∧ False := by
    rintro (hawaiting | ⟨-, hinterpret⟩)
    · exact absurd hawaiting hconstant
    · exact absurd hinterpret hmode
  obtain ⟨_, r'', hfeed, rfl, hshadows'⟩ :=
    (Action.couples_feed hshadows huse haside).exists_of_ok hrun
  exact ⟨r'', Source.run_make_append hmake hfeed, hshadows'⟩

/-- A word of an open definition is taken up into it, or closes it. -/
theorem after_opened (h : Journaled capacity options words j a) {definition : Definition}
    (hopen : a.definition = some definition) {outcome : Outcome}
    (hrun : (Action.feed word).run a = .ok outcome a') :
    ∃ words', Journaled capacity options words' (j.after a word) a' := by
  obtain ⟨draft, hdefines⟩ := h.defines definition hopen
  have hcontinues := (Action.ensures_feed_opened hdefines word).of_ok hrun
  have hsafe : Safe capacity a' := ((Safe.session capacity).feed a word h.toSafe).of_ok hrun
  have hrules : options.SameRules a'.options := hcontinues.options ▸ h.rules
  simp only [Journal.after, hrun, hopen]
  obtain ⟨draft', hdefines'⟩ | ⟨hawaiting, hframes, hmode, body, hadded⟩ := hcontinues.outcome
  · rw [if_pos (by simp [isCompiling, hdefines'.definition])]
    refine ⟨words, of_defines hsafe h.legal hrules h.made hdefines' fun r hr => ?_⟩
    rw [hcontinues.options]
    exact h.replays_word hopen hrun hr
  · rw [if_neg (by simp [isCompiling, hadded.definition])]
    have hready : Ready capacity options (⟨definition.name, body, .colon⟩ :: words) a' :=
      ⟨⟨hadded.allocated, hadded.head, hadded.definition, hmode, hframes⟩, hsafe.size, hawaiting,
        hrules⟩
    refine ⟨⟨definition.name, body, .colon⟩ :: words, of_closed hsafe
      (List.forall_mem_cons.mpr ⟨hadded.legal, h.legal⟩) hrules (.cons h.made rfl fun r hr => ?_)
      hadded.definition ⟨hadded.allocated, hadded.head⟩⟩
    obtain ⟨r', hmake, hshadows⟩ := h.replays_word hopen hrun hr
    exact ⟨r', hmake, hready.of_shadows hshadows⟩

/-- Nothing is awaited any more when a name is used. -/
theorem ready (h : Journaled capacity options words j a) (hclosed : a.definition = none) :
    Ready capacity options words { a with awaiting := .nothing } where
  allocated := (h.image hclosed).1
  head := (h.image hclosed).2
  definition := hclosed
  mode := (h.closed hclosed).2.2
  frames := (h.closed hclosed).1
  size := h.size
  awaiting := rfl
  rules := h.rules

theorem of_untouched (h : Journaled capacity options words j a) (hclosed : a.definition = none)
    (hsafe : Safe capacity a') (hrules : options.SameRules a'.options) (hsame : a.Untouched a')
    {sources : List Source} (hsources : sources = j.sources) :
    Journaled capacity options words ⟨sources, []⟩ a' := by
  subst hsources
  exact of_closed hsafe h.legal hrules h.made hsame.2 (hsame.1 ▸ h.image hclosed)

/-- A definition begins like one of the same name in any assembler that is ready for it. -/
theorem of_opens (h : Journaled capacity options words j a) (hclosed : a.definition = none)
    (hsafe : Safe capacity a') (hrules : options.SameRules a'.options)
    (hawaiting : a.awaiting = .name .colon) {outcome : Outcome}
    (hrun : (Action.feed word).run a = .ok outcome a') :
    Journaled capacity options words ⟨j.sources, []⟩ a' := by
  rw [Action.run_feed_name hawaiting] at hrun
  simp only [Action.named] at hrun
  obtain ⟨address, _, hdefine, hdone⟩ := Action.exists_of_run_bind hrun
  cases hdone
  obtain ⟨-, -, hkeeps, hdefines⟩ := (Action.ensures_define id word).of_ok hdefine
  obtain ⟨halloc, hhead⟩ := h.image hclosed
  simp only [halloc, hhead] at hdefines
  refine of_defines hsafe h.legal hrules h.made hdefines fun r hr => ?_
  -- With the radix that the source records, `r` cannot be told from `a`.
  have hshadows := (hr.radix a.options.hex).shadows (h.ready hclosed) rfl
  obtain ⟨_, r', hrun', rfl, hshadows'⟩ :=
    (Action.blind_define word _ _ hshadows).exists_of_ok hdefine
  refine ⟨r', ?_, hshadows'⟩
  rw [hkeeps.options]
  exact Operation.run_performAll_cons (Operation.run_map_ok hrun')

/-- A word that is added whole is added alike to any assembler that is ready for it. What is done
with the literals afterwards does not matter. -/
theorem of_adds (h : Journaled capacity options words j a) (hclosed : a.definition = none)
    (hsafe : Safe capacity a') (hrules : options.SameRules a'.options) {x : Action Nat}
    (hadds : x.AddsWord word { a with awaiting := .nothing })
    (hblind : Action.Blind { storage := False, literals := False, tracing := False } x)
    {address : Nat} {c : Assembler} (hrun : x.run { a with awaiting := .nothing } = .ok address c)
    (hdictionary : a'.dictionary = c.dictionary) (hdefinition : a'.definition = c.definition)
    {content : Content} {operation : Operation}
    (hoperations : Source.operations ⟨a.options.hex, word, content⟩ = [operation])
    (hperform : operation.perform = Reply.number <$> x) :
    ∃ words', Journaled capacity options words'
      ⟨⟨a.options.hex, word, content⟩ :: j.sources, []⟩ a' := by
  obtain ⟨-, hkeeps, hframes, hmode, body, hadded⟩ := hadds.of_ok hrun
  obtain ⟨halloc, hhead⟩ := h.image hclosed
  rw [halloc, hhead] at hadded
  have hready : Ready capacity options (⟨word, body, .data⟩ :: words) c :=
    ⟨⟨hadded.allocated, hadded.head, hadded.definition, hmode.trans (h.closed hclosed).2.2,
      hframes.trans (h.closed hclosed).1⟩, hkeeps.size.trans h.size, hkeeps.awaiting,
      hkeeps.options ▸ h.rules⟩
  have hmake : ∀ r, Ready capacity options words r → ∃ r',
      (Source.make ⟨a.options.hex, word, content⟩).run r = .ok () r' ∧
        Ready capacity options (⟨word, body, .data⟩ :: words) r' := by
    intro r hr
    have hshadows := (hr.radix a.options.hex).shadows (h.ready hclosed) rfl
    obtain ⟨_, r', hrun', rfl, hshadows'⟩ := (hblind _ _ hshadows).exists_of_ok hrun
    refine ⟨r', ?_, hready.of_shadows hshadows'⟩
    rw [Source.run_make, hoperations]
    exact Operation.run_performAll_cons (hperform ▸ Operation.run_map_ok hrun')
  refine ⟨⟨word, body, .data⟩ :: words, of_closed hsafe
    (List.forall_mem_cons.mpr ⟨hadded.legal, h.legal⟩) hrules (.cons h.made rfl hmake)
    (hdefinition.trans hadded.definition) ?_⟩
  rw [hdictionary]
  exact ⟨hadded.allocated, hadded.head⟩

theorem of_variable (h : Journaled capacity options words j a) (hclosed : a.definition = none)
    (hsafe : Safe capacity a') (hrules : options.SameRules a'.options)
    (hawaiting : a.awaiting = .name .variable) {outcome : Outcome}
    (hrun : (Action.feed word).run a = .ok outcome a') :
    ∃ words', Journaled capacity options words'
      ⟨⟨a.options.hex, word, .variable⟩ :: j.sources, []⟩ a' := by
  rw [Action.run_feed_name hawaiting] at hrun
  simp only [Action.named] at hrun
  obtain ⟨address, _, hdefine, hdone⟩ := Action.exists_of_run_bind hrun
  cases hdone
  exact h.of_adds hclosed hsafe hrules (Action.adds_defineVariable word)
    (Action.blind_defineVariable word) hdefine rfl rfl rfl rfl

/-- The value is the literal that the constant takes. -/
theorem of_constant (h : Journaled capacity options words j a) (hclosed : a.definition = none)
    (hsafe : Safe capacity a') (hrules : options.SameRules a'.options)
    (hawaiting : a.awaiting = .name .constant) {outcome : Outcome}
    (hrun : (Action.feed word).run a = .ok outcome a') :
    ∃ words' value rest, a.literals = value :: rest ∧ Journaled capacity options words'
      ⟨⟨a.options.hex, word, .constant value⟩ :: j.sources, []⟩ a' := by
  rw [Action.run_feed_name hawaiting] at hrun
  simp only [Action.named] at hrun
  obtain ⟨_, _, hget, hrun⟩ := Action.exists_of_run_bind hrun
  cases hget
  split at hrun
  · cases hrun
  rename_i value rest hliterals
  obtain ⟨address, c, hdefine, hrun⟩ := Action.exists_of_run_bind hrun
  obtain ⟨popped, b, hpop, hdone⟩ := Action.exists_of_run_bind hrun
  cases hdone
  -- The literal is taken off only after the word has been added.
  have hsame : Action.popLiteral.Meets
      (fun _ b => b.dictionary = c.dictionary ∧ b.definition = c.definition) (fun _ _ => True) True
      c := by simp
  obtain ⟨hdictionary, hdefinition⟩ := hsame.of_ok hpop
  have hadded : ∃ words', Journaled capacity options words'
      ⟨⟨a.options.hex, word, .constant value⟩ :: j.sources, []⟩ a' :=
    h.of_adds hclosed hsafe hrules (Action.adds_defineConstant word value)
      (Action.blind_defineConstant word value) hdefine hdictionary hdefinition rfl rfl
  obtain ⟨words', h'⟩ := hadded
  exact ⟨words', value, rest, hliterals, h'⟩

/-- A word of input that is accepted while no definition is open. -/
theorem after_closed (h : Journaled capacity options words j a) (hclosed : a.definition = none)
    {outcome : Outcome} (hrun : (Action.feed word).run a = .ok outcome a')
    (hload : Session.loads a word = false) :
    ∃ words', Journaled capacity options words' (j.after a word) a' := by
  have hinterprets := (h.toSafe.ensures_feed_closed hclosed word).of_ok hrun
  have hsafe : Safe capacity a' := ((Safe.session capacity).feed a word h.toSafe).of_ok hrun
  have hrules : options.SameRules a'.options := h.rules.trans hinterprets.rules
  have himage := hinterprets.image
  simp only [Journal.after, hrun, hclosed, survivors]
  cases hawaiting : a.awaiting with
  | name use =>
    simp only [Retouches, hawaiting] at himage
    cases use with
    | colon => exact ⟨words, h.of_opens hclosed hsafe hrules hawaiting hrun⟩
    | «variable» => exact h.of_variable hclosed hsafe hrules hawaiting hrun
    | constant =>
      obtain ⟨words', value, rest, hliterals, h'⟩ :=
        h.of_constant hclosed hsafe hrules hawaiting hrun
      simp only [hliterals]
      exact ⟨words', h'⟩
    | forget =>
      obtain ⟨hclosed', -, address, hforget⟩ := himage
      obtain ⟨halloc, hhead⟩ := h.image hclosed
      obtain ⟨halloc', hhead', hlegal⟩ :=
        Dictionary.image_of_forget_eq_ok halloc hhead h.legal hforget
      exact ⟨_, of_closed hsafe hlegal hrules (h.made.forget _ _) hclosed' ⟨halloc', hhead'⟩⟩
    | see => exact ⟨words, h.of_untouched hclosed hsafe hrules himage rfl⟩
  | operand => exact absurd hawaiting (h.closed hclosed).2.1
  | text collected =>
    simp only [Retouches, hawaiting] at himage
    exact ⟨words, h.of_untouched hclosed hsafe hrules himage rfl⟩
  | nothing =>
    simp only [Retouches, hawaiting] at himage
    dsimp only
    split at himage
    · rename_i hcommand
      simp [Session.loads, hrun, hawaiting, hcommand] at hload
    · rename_i hcommand
      rw [if_pos hcommand]
      exact ⟨[], of_closed hsafe (by simp [Legal]) hrules .nil himage.1 himage.2⟩
    · rename_i hreset
      exact ⟨words, h.of_untouched hclosed hsafe hrules himage (if_neg hreset)⟩

theorem settle (h : Journaled capacity options words j a) (hload : Session.loads a word = false) :
    ∃ words', Journaled capacity options words' (j.after a word) (Session.settle a word) := by
  obtain ⟨outcome, b, hrun, -⟩ | ⟨e, b, hrun, -⟩ := (h.toSafe.ensures_feed word).run_cases
  · rw [Session.settle_of_ok hrun]
    cases hdefinition : a.definition with
    | none => exact h.after_closed hdefinition hrun hload
    | some definition => exact h.after_opened hdefinition hrun
  · exact ⟨words, h.after_refused hrun⟩

/-- By induction on the words of input. -/
theorem settleAll (h : Journaled capacity options words j a) {input : List String}
    (hunloaded : Session.unloaded input a) :
    ∃ words', Journaled capacity options words' (Session.journal input a j)
      (input.foldl Session.settle a) := by
  induction input generalizing a j words with
  | nil => exact ⟨words, h⟩
  | cons word rest ih =>
    simp only [Session.unloaded, Bool.and_eq_true, Bool.not_eq_true'] at hunloaded
    obtain ⟨words', h'⟩ := h.settle hunloaded.1
    exact ih h' hunloaded.2

end Journaled

/-- Whatever was fed, as long as no image was loaded: once no definition is open, the image is that
of a fresh assembler in which only the surviving words are defined, from their sources and in their
order. Refusals, definitions that were dropped or forgotten and words that were interpreted leave no
trace in it. -/
theorem Session.rebuilds (capacity : Capacity) (options : Options) (storage : Storage)
    {input : List String} (hunloaded : unloaded input (.new capacity options storage))
    (hclosed : (input.foldl settle (.new capacity options storage)).definition = none)
    (storage' : Storage) :
    let s : Assembler := .new capacity options storage
    let a := input.foldl settle s
    let sources := (journal input s ⟨[], []⟩).sources
    a.dictionary.words = sources.map (·.name) ∧
      ∃ r, (forM sources.reverse Source.make : Action Unit).run
          (.new capacity options storage') = .ok () r ∧
        r.definition = none ∧
        r.dictionary.memory.allocated = a.dictionary.memory.allocated ∧
        r.dictionary.head = a.dictionary.head := by
  intro s a sources
  obtain ⟨words, h⟩ := (Journaled.new capacity options storage).settleAll hunloaded
  obtain ⟨halloc, hhead⟩ := h.image hclosed
  obtain ⟨r, hrun, hr⟩ := h.made.exists_run (.new capacity options storage')
  refine ⟨?_, r, hrun, hr.definition, hr.allocated.trans halloc.symm, hr.head.trans hhead.symm⟩
  exact (Dictionary.words_eq halloc hhead h.legal).trans h.made.names

/-- One definition fails, a variable is forgotten with what came after it, and the radix changes. -/
theorem Session.rebuilds_forgotten :
    let capacity : Capacity := ⟨64, by decide, by decide⟩
    let s : Assembler := .new capacity {} .empty
    let input := Text.words ": A 10 ; HEX 7 VAL K : B x VAR V : A K ; FGT V : A 10 A ;"
    let a := input.foldl settle s
    let sources : List Source :=
      [⟨true, "A", .colon ["10", "A", ";"]⟩, ⟨true, "K", .constant 7⟩,
        ⟨false, "A", .colon ["10", ";"]⟩]
    unloaded input s ∧ a.definition = none ∧ (journal input s ⟨[], []⟩).sources = sources ∧
      ∃ r, (forM sources.reverse Source.make : Action Unit).run s = .ok () r ∧
        r.dictionary.memory.allocated = a.dictionary.memory.allocated := by
  intro capacity s input a sources
  have hunloaded : unloaded input s := by decide +kernel
  have hclosed : (input.foldl settle s).definition = none := by decide +kernel
  have hsources : (journal input s ⟨[], []⟩).sources = sources := by decide +kernel
  obtain ⟨-, r, hrun, -, halloc, -⟩ :=
    @rebuilds capacity {} .empty input hunloaded hclosed .empty
  refine ⟨hunloaded, hclosed, hsources, r, ?_, ?_⟩
  · rw [← hsources]
    exact hrun
  · rw [halloc]

end ForthAssembler
