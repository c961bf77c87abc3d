import ForthAssembler.Image
import ForthAssembler.Proofs.Code.Bytes
import ForthAssembler.Proofs.Dictionary.Header

/-! The words of a dictionary as a list, the newest first, and the image that holds them. -/
namespace ForthAssembler
open Text

/-- How a word was made. -/
inductive Making
  /-- By `:` and `;`. -/
  | colon
  /-- As a variable or a constant. -/
  | data
  deriving DecidableEq, Repr

structure Word where
  name : String
  /-- What follows the header. -/
  body : List UInt8
  making : Making
  deriving DecidableEq, Repr

namespace Word

mutual

/-- The entries of all words, the oldest first: a header with a link to the one before, and the
body. -/
def image : List Word → List UInt8
  | [] => []
  | word :: older => image older ++ Entry.header (latest older) false word.name ++ word.body

/-- The offset of the newest entry. -/
def latest : List Word → Link
  | [] => none
  | _ :: older => some (image older).length

end

/-- The code offset of a word on top of others. -/
def code (older : List Word) (name : String) : Nat :=
  (image older).length + (Entry.nameOffset + (utf8 name).length)

def codes : List Word → List Nat
  | [] => []
  | word :: older => code older word.name :: codes older

/-- The entry of a word on top of others. -/
def entry (older : List Word) (hidden : Bool) (name : String) : Entry :=
  ⟨(image older).length, latest older, Tag.ofName hidden (utf8 name).length, name⟩

def entries : List Word → List Entry
  | [] => []
  | word :: older => entry older false word.name :: entries older

/-- The words older than the newest one with a name. -/
def forget (foldCase : Bool) (name : String) : List Word → List Word
  | [] => []
  | word :: older => if sameName foldCase word.name name then older else forget foldCase name older

/-- All names fit their entries. -/
def Legal (words : List Word) : Prop := ∀ word ∈ words, Entry.Legal word.name

variable {words older : List Word}

theorem exists_image_append (newer older : List Word) :
    ∃ rest, image (newer ++ older) = image older ++ rest := by
  induction newer with
  | nil => exact ⟨[], (List.append_nil _).symm⟩
  | cons word newer ih =>
    obtain ⟨rest, hrest⟩ := ih
    rw [List.cons_append, image, hrest, List.append_assoc, List.append_assoc]
    exact ⟨_, rfl⟩

theorem length_image_le (newer older : List Word) :
    (image older).length ≤ (image (newer ++ older)).length := by
  obtain ⟨rest, hrest⟩ := exists_image_append newer older
  simp [hrest]

theorem length_image_cons (word : Word) (older : List Word) :
    (image (word :: older)).length = code older word.name + word.body.length := by
  simp [image, code, Nat.add_assoc]

theorem lt_of_mem_latest {n : Nat} (h : n ∈ latest words) : n < (image words).length := by
  cases words with
  | nil => simp [latest] at h
  | cons word older =>
    simp only [latest, Option.mem_def, Option.some.injEq] at h
    simp only [image, List.length_append, Entry.length_header, Entry.nameOffset]
    omega

theorem code_entry {hidden : Bool} {name : String} (h : Entry.Legal name) :
    (entry older hidden name).code = code older name := by
  simp only [entry, Entry.code, code, Tag.nameLength_ofName h.2, Nat.add_assoc]

theorem hidden_entry {hidden : Bool} {name : String} (h : Entry.Legal name) :
    (entry older hidden name).hidden = hidden := by
  simp only [entry, Entry.hidden, Tag.isHidden_ofName h.2]

theorem mem_codes_iff {target : Nat} : target ∈ codes words ↔
    ∃ newer word older, words = newer ++ word :: older ∧ target = code older word.name := by
  induction words with
  | nil => simp [codes]
  | cons word older ih =>
    rw [codes, List.mem_cons, ih]
    constructor
    · rintro (rfl | ⟨newer, w, rest, rfl, rfl⟩)
      · exact ⟨[], word, older, rfl, rfl⟩
      · exact ⟨word :: newer, w, rest, rfl, rfl⟩
    · intro hmem
      obtain ⟨newer, w, rest, hwords, rfl⟩ := hmem
      cases newer with
      | nil =>
        cases hwords
        exact .inl rfl
      | cons v newer =>
        cases hwords
        exact .inr ⟨newer, w, rest, rfl, rfl⟩

theorem entry_mem_entries (newer : List Word) (word : Word) (older : List Word) :
    entry older false word.name ∈ entries (newer ++ word :: older) := by
  induction newer with
  | nil => exact List.mem_cons_self
  | cons v newer ih => exact List.mem_cons_of_mem _ ih

/-- No younger word has the code offset of an older one. -/
theorem find?_code_entries {newer : List Word} {word : Word}
    (hlegal : Legal (newer ++ word :: older)) :
    ((entries (newer ++ word :: older)).find? fun e => e.code == code older word.name) =
      some (entry older false word.name) := by
  induction newer with
  | nil =>
    have hname : Entry.Legal word.name := hlegal word List.mem_cons_self
    rw [List.nil_append, entries, List.find?_cons_of_pos]
    simp [code_entry hname]
  | cons v newer ih =>
    obtain ⟨hname, hlegal⟩ := List.forall_mem_cons.mp hlegal
    have hle := length_image_le newer (word :: older)
    rw [length_image_cons] at hle
    rw [List.cons_append, entries, List.find?_cons_of_neg, ih hlegal]
    rw [code_entry hname, beq_iff_eq, code, Entry.nameOffset]
    omega

/-- The entry above a word starts where the word ends. -/
theorem takeWhile_entries (newer : List Word) (word : Word) (older : List Word) :
    ((((entries (newer ++ word :: older)).takeWhile fun e =>
      e.address != (image older).length).getLast?.map (·.address)).getD
        (image (newer ++ word :: older)).length) = (image (word :: older)).length := by
  induction newer with
  | nil =>
    rw [List.nil_append, entries, List.takeWhile_cons_of_neg]
    · rfl
    · simp [entry]
  | cons v newer ih =>
    have hle := length_image_le newer (word :: older)
    rw [length_image_cons, code] at hle
    rw [List.cons_append, entries, List.takeWhile_cons_of_pos, List.getLast?_cons, Option.map_some,
      Option.getD_some]
    · rw [← ih]
      cases ((entries (newer ++ word :: older)).takeWhile _).getLast? <;> rfl
    · simp only [entry, bne_iff_ne]
      simp only [Entry.nameOffset] at hle
      omega

/-- An entry on top of others reads as what was written. -/
theorem read_entry {m : Memory} {hidden : Bool} {name : String} {rest : List UInt8}
    (hm : m.allocated = image older ++ Entry.header (latest older) hidden name ++ rest)
    (hname : Entry.Legal name) : Entry.read m (image older).length = entry older hidden name := by
  have hlimit : (image older).length < Link.endCell := by
    refine Link.lt_endCell ?_ m.length_allocated_le
    simp only [hm, List.length_append, Entry.length_header, Entry.nameOffset]
    omega
  have hlink := Entry.link_read_header hm fun n hn => Nat.lt_trans (lt_of_mem_latest hn) hlimit
  rw [Entry.read_header hm hname, hlink, entry]

theorem entriesFrom_eq {m : Memory} {hidden : Bool} {name : String} {rest : List UInt8}
    (hm : m.allocated = image older ++ Entry.header (latest older) hidden name ++ rest)
    (hname : Entry.Legal name) (hlegal : Legal older) :
    m.entriesFrom (image older).length = entry older hidden name :: entries older := by
  induction older generalizing hidden name rest with
  | nil =>
    rw [Memory.entriesFrom]
    simp only [read_entry hm hname]
    rfl
  | cons word older ih =>
    have hword := List.forall_mem_cons.mp hlegal
    rw [Memory.entriesFrom]
    simp only [read_entry hm hname]
    have hlt : (image older).length < (image (word :: older)).length := lt_of_mem_latest rfl
    have hm' : m.allocated = image older ++ Entry.header (latest older) false word.name ++
        (word.body ++ (Entry.header (latest (word :: older)) hidden name ++ rest)) := by
      rw [hm, image]
      simp only [List.append_assoc]
    rw [show (entry (word :: older) hidden name).link = some (image older).length from rfl]
    simp only [hlt, if_true]
    rw [ih hm' hword.1 hword.2]
    rfl

end Word

namespace Dictionary
open Word
variable {d : Dictionary} {words : List Word}

/-- The entries of a dictionary that holds some words. -/
theorem entries_eq (hd : d.memory.allocated = image words) (hhead : d.head = latest words)
    (hlegal : Legal words) : d.entries = Word.entries words := by
  cases words with
  | nil =>
    rw [entries, hhead]
    rfl
  | cons word older =>
    obtain ⟨hword, holder⟩ := List.forall_mem_cons.mp hlegal
    rw [entries, hhead]
    exact entriesFrom_eq hd hword holder

/-- The entries while a further word is hidden on top of the others. -/
theorem entries_eq_hidden {name : String} {code : List UInt8}
    (hd : d.memory.allocated = image words ++ Entry.header (latest words) true name ++ code)
    (hhead : d.head = some (image words).length) (hname : Entry.Legal name) (hlegal : Legal words) :
    d.entries = entry words true name :: Word.entries words := by
  rw [entries, hhead]
  exact entriesFrom_eq hd hname hlegal

private theorem find?_entries (foldCase : Bool) (name : String) (hlegal : Legal words) :
    ((Word.entries words).find? fun e => !e.hidden && sameName foldCase e.name name) =
      none ∨ ∃ word older newer, words = newer ++ word :: older ∧
        Word.forget foldCase name words = older ∧
        ((Word.entries words).find? fun e => !e.hidden && sameName foldCase e.name name) =
          some (entry older false word.name) := by
  induction words with
  | nil => exact .inl rfl
  | cons word older ih =>
    obtain ⟨hword, holder⟩ := List.forall_mem_cons.mp hlegal
    by_cases hname : sameName foldCase word.name name
    · refine .inr ⟨word, older, [], rfl, by simp [Word.forget, hname], ?_⟩
      rw [Word.entries, List.find?_cons_of_pos]
      simp [hidden_entry hword, show (entry older false word.name).name = word.name from rfl, hname]
    · have hfind : ((Word.entries (word :: older)).find? fun e =>
          !e.hidden && sameName foldCase e.name name) =
          (Word.entries older).find? fun e => !e.hidden && sameName foldCase e.name name := by
        rw [Word.entries, List.find?_cons_of_neg]
        simp [show (entry older false word.name).name = word.name from rfl, hname]
      rw [hfind, Word.forget, if_neg hname]
      rcases ih holder with hnone | ⟨w, rest, newer, rfl, hforget, hsome⟩
      · exact .inl hnone
      · exact .inr ⟨w, rest, word :: newer, rfl, hforget, hsome⟩

/-- What is found by a name is the newest word that has it, also while another one is hidden. -/
theorem of_find?_eq_some {foldCase : Bool} {name : String} {e : Entry} (hlegal : Legal words)
    (hentries : d.entries = Word.entries words ∨ ∃ hidden, hidden.hidden = true ∧
      d.entries = hidden :: Word.entries words)
    (h : d.find? foldCase name = some e) :
    ∃ word older newer, words = newer ++ word :: older ∧ Word.forget foldCase name words = older ∧
      e = entry older false word.name := by
  have hfind : d.find? foldCase name = (Word.entries words).find? fun e =>
      !e.hidden && sameName foldCase e.name name := by
    rcases hentries with heq | ⟨top, hhidden, heq⟩
    · rw [find?, heq]
    · rw [find?, heq, List.find?_cons_of_neg]
      simp [hhidden]
  rw [hfind] at h
  rcases find?_entries foldCase name hlegal with hnone | ⟨word, older, newer, hw, hforget, hsome⟩
  · rw [hnone] at h
    cases h
  · rw [hsome] at h
    exact ⟨word, older, newer, hw, hforget, (Option.some.inj h).symm⟩

end Dictionary

namespace Word
variable {words : List Word}

/-- The chain of legal words is valid, whatever follows them. By induction on the words. -/
theorem check_image (hlegal : Legal words) (hlimit : (image words).length ≤ maxCapacity)
    (rest : List UInt8) {upper : Nat} (hupper : ∀ n ∈ latest words, n < upper) :
    Chain.check (image words ++ rest) upper (latest words) = .ok () := by
  induction words generalizing rest upper with
  | nil => rw [latest, Chain.check]
  | cons word older ih =>
    obtain ⟨hname, holder⟩ := List.forall_mem_cons.mp hlegal
    have hle : (image older).length ≤ maxCapacity :=
      Nat.le_trans (length_image_le [word] older) hlimit
    have hlink : ∀ n ∈ latest older, n < Link.endCell := fun n hn =>
      Link.lt_endCell (lt_of_mem_latest hn) hle
    have hbytes : image (word :: older) ++ rest = image older ++
        (Cell.bytes (latest older).cell ++ Tag.ofName false (utf8 word.name).length ::
          (utf8 word.name ++ (word.body ++ rest))) := by
      simp [image, Entry.header]
    have hheader : ((image (word :: older) ++ rest).drop (image older).length).take
        Entry.nameOffset = [UInt8.ofNat ((latest older).cell / 256),
          UInt8.ofNat (latest older).cell, Tag.ofName false (utf8 word.name).length] := by
      rw [hbytes, List.drop_left]
      rfl
    have htext : ((image (word :: older) ++ rest).drop ((image older).length +
        Entry.nameOffset)).take (utf8 word.name).length = utf8 word.name := by
      rw [hbytes, ← List.drop_drop, List.drop_left]
      exact List.take_left
    have hlength : (utf8 word.name).length ≠ 0 := Nat.ne_of_gt hname.1
    rw [latest, Chain.check, dif_pos (hupper _ rfl), hheader]
    simp only [Tag.nameLength_ofName hname.2, htext, Nat.lt_irrefl, if_false, ofUtf8?_utf8,
      hlength, reduceCtorEq, or_self, Cell.value_bytes (Link.cell_lt hlink),
      Link.ofCell_cell hlink]
    rw [image, List.append_assoc, List.append_assoc]
    exact ih holder hle _ fun n hn => lt_of_mem_latest hn

end Word

/-- The image of legal words can be restored wherever it fits. -/
theorem Dictionary.exists_restore_image {d : Dictionary} {words : List Word}
    (hlegal : Word.Legal words) (hfits : (Word.image words).length ≤ d.memory.size) :
    ∃ d', d.restore (Word.image words) (Word.latest words) = .ok d' := by
  have hlimit := Nat.le_trans hfits d.memory.size_le
  have hcheck := Word.check_image hlegal hlimit [] fun n hn => Word.lt_of_mem_latest hn
  rw [List.append_nil] at hcheck
  have hrestore := Memory.restore?_eq d.memory (Word.image words)
  rw [if_pos hfits] at hrestore
  obtain ⟨m, hm, -⟩ := Option.map_eq_some_iff.mp hrestore
  refine ⟨⟨m, Word.latest words⟩, ?_⟩
  simp only [restore, bind, Except.bind, if_neg (Nat.not_lt_of_le hfits), hcheck, hm]
  rfl

namespace Image

/-- What is read from a saved image is what was saved, if it fits. -/
theorem decode_encode {capacity : Nat} {image : Image} (hlength : image.bytes.length < 65536)
    (hlatest : ∀ n ∈ image.latest, n < Link.endCell) :
    decode capacity (encode image) =
      if capacity < image.bytes.length then .error .tooLarge
      else if image.latest.any (image.bytes.length ≤ ·) then .error .latestOutside
      else .ok image := by
  have hcell := Link.cell_lt hlatest
  have hsignature : autorun? (Cell.value
      (UInt8.ofNat ((if image.autorun then autorunSignature else signature) / 256))
      (UInt8.ofNat (if image.autorun then autorunSignature else signature))) =
        some image.autorun := by
    cases image.autorun <;> decide
  simp only [encode, Cell.bytes, List.cons_append, List.nil_append, decode,
    Cell.value_bytes hcell, Cell.value_bytes hlength, Link.ofCell_cell hlatest, hsignature]
  simp

/-- What is read from the saved image of some words. -/
theorem decode_image {words : List Word} (hlimit : (Word.image words).length ≤ maxCapacity)
    (autorun : Bool) (capacity : Nat) :
    decode capacity (encode ⟨autorun, Word.latest words, Word.image words⟩) =
      if (Word.image words).length ≤ capacity then
        .ok ⟨autorun, Word.latest words, Word.image words⟩
      else .error .tooLarge := by
  have hcell : (Word.image words).length < 65536 := Nat.lt_of_le_of_lt hlimit (by decide)
  have hinside : (Word.latest words).any ((Word.image words).length ≤ ·) = false := by
    cases hlatest : Word.latest words with
    | none => rfl
    | some n => simpa using Word.lt_of_mem_latest hlatest
  rw [decode_encode hcell fun n hn => Link.lt_endCell (Word.lt_of_mem_latest hn) hlimit]
  simp only [hinside]
  by_cases hfits : (Word.image words).length ≤ capacity
  · rw [if_neg (Nat.not_lt_of_le hfits), if_pos hfits]
    simp
  · rw [if_pos (Nat.lt_of_not_le hfits), if_neg hfits]

end Image
end ForthAssembler
