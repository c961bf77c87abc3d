import ForthAssembler.Proofs.Session.History
import ForthAssembler.Report.Listing

/-! Compiled code refers only to itself and to words that are still there. -/
namespace ForthAssembler
open Instr Word

/-- The code of an entry is whole and ends with a return. It branches only to its own instructions,
and calls only older entries, by the names of which the calls are listed. -/
structure Dictionary.Intact (d : Dictionary) (entry : Entry) : Prop where
  whole : ∀ line ∈ d.trace entry.code (d.codeEnd entry), line.instr.isSome
  returns : ∃ line, (d.trace entry.code (d.codeEnd entry)).getLast? = some line ∧
    line.instr = some .ret ∧ line.address + 1 = d.codeEnd entry
  branches : ∀ line ∈ d.trace entry.code (d.codeEnd entry), ∀ target,
    line.instr = some (.jumpZero target) ∨ line.instr = some (.jump target) →
      ∃ other ∈ d.trace entry.code (d.codeEnd entry), other.address = target
  calls : ∀ line ∈ d.trace entry.code (d.codeEnd entry), ∀ target,
    line.instr = some (.call target) → ∃ callee ∈ d.entries, callee.code = target ∧
      callee.address < entry.address ∧ d.annotate line = line.render ++ " " ++ callee.name

/-- The instruction branches to one of the offsets, if it does, and calls one of the known words. -/
def Instr.Refers (offsets codes : List Nat) : Instr → Prop
  | .call target => target ∈ codes
  | .jumpZero target | .jump target => target ∈ offsets
  | _ => True

theorem Instr.Simple.refers {offsets codes : List Nat} {i : Instr} (h : i.Simple codes) :
    i.Refers offsets codes := by
  cases i with
  | jumpZero target => exact h.elim
  | jump target => exact h.elim
  | call target => exact h
  | _ => trivial

namespace Dictionary
variable {d : Dictionary} {newer older : List Word} {word : Word}

/-- The code of a word ends where its body does. -/
theorem codeEnd_entry (hd : d.memory.allocated = image (newer ++ word :: older))
    (hhead : d.head = latest (newer ++ word :: older)) (hlegal : Legal (newer ++ word :: older)) :
    d.codeEnd (Word.entry older false word.name) = code older word.name + word.body.length := by
  have hhere : d.here = (image (newer ++ word :: older)).length := by
    rw [← hd, Memory.length_allocated]
    rfl
  have hend := takeWhile_entries newer word older
  rw [codeEnd, entries_eq hd hhead hlegal, hhere, ← length_image_cons]
  exact hend

theorem range_body (hd : d.memory.allocated = image (newer ++ word :: older)) :
    d.memory.range (code older word.name) (code older word.name + word.body.length) =
      word.body := by
  obtain ⟨rest, hrest⟩ := exists_image_append newer (word :: older)
  have hheader : (image older ++ Entry.header (latest older) false word.name).length =
      code older word.name := by
    simp [code]
  rw [Memory.range_eq, hd, hrest, image, ← hheader, List.append_assoc _ word.body,
    List.take_length_add_append, List.take_left, List.drop_left]

/-- A call is listed with the name of its callee. -/
theorem annotate_call (hd : d.memory.allocated = image (newer ++ word :: older))
    (hhead : d.head = latest (newer ++ word :: older)) (hlegal : Legal (newer ++ word :: older))
    {line : Line} (hline : line.instr = some (.call (code older word.name))) :
    d.annotate line = line.render ++ " " ++ word.name := by
  have hfind := find?_code_entries hlegal
  simp only [annotate, hline, entryOfCode?, entries_eq hd hhead hlegal, hfind, Option.map_some]
  rfl

end Dictionary

/-- All branches of a body stay inside of it. -/
theorem Body.refers_layout {codes : List Nat} {b : Body Instr none}
    (hitems : ∀ i ∈ b.items, i.Simple codes) (base : Nat) :
    ∀ i ∈ b.layout id base 0, i.Refers (boundaries base (b.layout id base 0)) codes :=
  forall_mem_layout id (fun i hi => (hitems i hi).refers) ⟨trivial, trivial, trivial⟩
    (fun _ htarget => ⟨htarget, htarget⟩) nofun

namespace Dictionary
variable {d : Dictionary} {newer older : List Word} {word : Word}

/-- The code of a colon definition is listed as it was meant. -/
theorem exists_trace_eq (hd : d.memory.allocated = image (newer ++ word :: older))
    (hhead : d.head = latest (newer ++ word :: older)) (hlegal : Legal (newer ++ word :: older))
    (hword : Compiled older word) : ∃ instrs : List Instr,
      d.codeEnd (Word.entry older false word.name) = code older word.name + sizeAll instrs + 1 ∧
      d.trace (Word.entry older false word.name).code
          (d.codeEnd (Word.entry older false word.name)) =
        listing (code older word.name) (instrs ++ [.ret]) ∧
      ∀ i ∈ instrs ++ [.ret],
        i.Refers (boundaries (code older word.name) instrs) (codes older) := by
  obtain ⟨b, hbody, hitems⟩ := hword
  have hname : Entry.Legal word.name := hlegal word (by simp)
  have hlength : word.body.length = b.size id + 1 := by
    simp [hbody, length_bytes]
  have hend := codeEnd_entry hd hhead hlegal
  have hrange := range_body hd
  refine ⟨b.layout id (code older word.name) 0, ?_, ?_, ?_⟩
  · rw [hend, hlength, Body.sizeAll_layout, Nat.add_assoc]
  · rw [code_entry hname, hend, trace, hrange, hbody]
    refine disassemble_bytesAll ?_ _
    -- All of the code lies in the memory, so that its branches fit their fields.
    have hle := length_image_le newer (word :: older)
    have hhere := d.memory.here_le
    have hsize := d.memory.size_le
    rw [length_image_cons, hlength, ← hd, Memory.length_allocated] at hle
    simp only [List.forall_mem_append, List.forall_mem_singleton]
    refine ⟨Body.encodable_layout id (fun i hi => (hitems i hi).2) ?_ (Nat.zero_le _), trivial⟩
    simp only [maxCapacity] at hsize
    omega
  · rw [List.forall_mem_append, List.forall_mem_singleton]
    exact ⟨Body.refers_layout (fun i hi => (hitems i hi).1) _, trivial⟩

/-- What a word of a sound dictionary calls is listed, and older. -/
theorem exists_callee (hd : d.memory.allocated = image (newer ++ word :: older))
    (hhead : d.head = latest (newer ++ word :: older)) (hlegal : Legal (newer ++ word :: older))
    {line : Line} {target : Nat} (hline : line.instr = some (.call target))
    (htarget : target ∈ codes older) : ∃ callee ∈ d.entries, callee.code = target ∧
      callee.address < (Word.entry older false word.name).address ∧
      d.annotate line = line.render ++ " " ++ callee.name := by
  obtain ⟨between, callee, rest, rfl, rfl⟩ := mem_codes_iff.mp htarget
  rw [← List.cons_append, ← List.append_assoc] at hd hhead hlegal
  have hname : Entry.Legal callee.name := hlegal callee (by simp)
  refine ⟨Word.entry rest false callee.name, ?_, code_entry hname, ?_,
    annotate_call hd hhead hlegal hline⟩
  · rw [entries_eq hd hhead hlegal]
    exact entry_mem_entries _ callee rest
  · have hlt : (image rest).length < (image (callee :: rest)).length := lt_of_mem_latest rfl
    exact Nat.lt_of_lt_of_le hlt (length_image_le between (callee :: rest))

/-- The code of a colon definition refers only to itself and to older words. -/
theorem intact_entry (hd : d.memory.allocated = image (newer ++ word :: older))
    (hhead : d.head = latest (newer ++ word :: older)) (hlegal : Legal (newer ++ word :: older))
    (hword : Compiled older word) : d.Intact (Word.entry older false word.name) := by
  obtain ⟨instrs, hend, htrace, hrefers⟩ := exists_trace_eq hd hhead hlegal hword
  have hline {line : Line} (hmem : line ∈ listing (code older word.name) (instrs ++ [.ret]))
      {i : Instr} (hinstr : line.instr = some i) :
      i.Refers (boundaries (code older word.name) instrs) (codes older) := by
    obtain ⟨j, hj, hj'⟩ := exists_instr_of_mem_listing hmem
    rw [hinstr] at hj'
    obtain rfl := Option.some.inj hj'
    exact hrefers i hj
  constructor <;> rw [htrace]
  · intro line hmem
    obtain ⟨i, -, hi⟩ := exists_instr_of_mem_listing hmem
    simp [hi]
  · rw [listing_append, hend]
    exact ⟨_, List.getLast?_concat, rfl, rfl⟩
  · intro line hmem target hbranch
    have htarget : target ∈ boundaries (code older word.name) instrs := by
      rcases hbranch with hbranch | hbranch
      · exact hline hmem hbranch
      · exact hline hmem hbranch
    exact exists_mem_listing_of_mem_boundaries .ret htarget
  · intro line hmem target hcall
    exact exists_callee hd hhead hlegal hcall (hline hmem hcall)

end Dictionary

namespace Reachable

end Reachable
end ForthAssembler
