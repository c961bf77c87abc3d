import ForthAssembler.Assembler.Persist
import ForthAssembler.Proofs.Assembler.Atomic
import ForthAssembler.Proofs.Dictionary.Chain
import ForthAssembler.Proofs.Dictionary.Words

/-! Which bytes can be loaded, and what an assembler is then. -/
namespace ForthAssembler
open Chain

namespace Image
variable {capacity : Nat} {blob : List UInt8} {image : Image} {items : List Chain.Item}

theorem eq_of_autorun?_eq_some {cell : Nat} {autorun : Bool} (h : autorun? cell = some autorun) :
    cell = if autorun then autorunSignature else signature := by
  unfold autorun? at h
  split at h
  · cases h
    assumption
  · split at h
    · cases h
      assumption
    · cases h

/-- Bytes are read as an image just if they are that image, its length fits a cell and the
capacity, and its head lies in it. -/
theorem decode_eq_ok_iff : decode capacity blob = .ok image ↔
    blob = image.encode ∧ image.bytes.length < 65536 ∧ image.bytes.length ≤ capacity ∧
      ∀ n ∈ image.latest, n < image.bytes.length := by
  constructor
  · intro h
    unfold decode at h
    split at h
    · rename_i s₁ s₀ l₁ l₀ h₁ h₀ bytes
      split at h
      · cases h
      · rename_i autorun hsignature
        dsimp only at h
        split at h
        · cases h
        rename_i hfits
        split at h
        · cases h
        rename_i hinside
        split at h
        · cases h
        rename_i hlength
        cases h
        have hlength := Decidable.not_not.mp hlength
        refine ⟨?_, ?_, ?_, ?_⟩
        · simp only [encode, ← eq_of_autorun?_eq_some hsignature, hlength, Link.cell_ofCell,
            Cell.bytes_value, List.cons_append, List.nil_append]
        · dsimp only
          rw [hlength]
          exact Cell.value_lt h₁ h₀
        · dsimp only
          omega
        · intro n hn
          simp only [Option.mem_def] at hn
          simp only [hn, Option.any_some, decide_eq_true_eq] at hinside
          dsimp only
          omega
    · cases h
  · rintro ⟨rfl, hcell, hfits, hinside⟩
    have hany : image.latest.any (image.bytes.length ≤ ·) = false := by
      cases hlatest : image.latest with
      | none => rfl
      | some n => simpa using hinside n hlatest
    have hend (n : Nat) (hn : n ∈ image.latest) : n < Link.endCell := by
      have := hinside n hn
      simp only [Link.endCell]
      omega
    rw [decode_encode hcell hend, if_neg (Nat.not_lt_of_le hfits), hany]
    rfl

/-- An image is read back from what it is saved as, if its length fits a cell and the capacity and
its head is in it or ends the chain. Nothing else is read: the fields of what is read are such, and
are saved as the same bytes again. -/
theorem decode_inverse (capacity : Nat) :
    (∀ autorun last bytes, bytes.length ≤ 65535 → bytes.length ≤ capacity →
      (last = Link.endCell ∨ last < bytes.length) →
        decode capacity (encode ⟨autorun, Link.ofCell last, bytes⟩) =
          .ok ⟨autorun, Link.ofCell last, bytes⟩) ∧
    ∀ blob image, decode capacity blob = .ok image →
      encode image = blob ∧ image.bytes.length ≤ capacity ∧
        (image.latest.cell = Link.endCell ∨ image.latest.cell < image.bytes.length) := by
  constructor
  · intro autorun last bytes hlength hfits hlast
    refine decode_eq_ok_iff.mpr ⟨rfl, Nat.lt_succ_of_le hlength, hfits, fun n hn => ?_⟩
    rcases hlast with rfl | hinside
    · simp [Link.ofCell] at hn
    · simp only [Link.ofCell] at hn
      split at hn <;> cases hn
      exact hinside
  · intro blob image h
    obtain ⟨rfl, -, hfits, hinside⟩ := decode_eq_ok_iff.mp h
    refine ⟨rfl, hfits, ?_⟩
    cases hlatest : image.latest with
    | none => exact .inl rfl
    | some n => exact .inr (hinside n hlatest)

/-- An image of two bytes, of which the last is its head. -/
theorem decode_inverse_two :
    decode 2 [0xce, 0xb4, 0, 1, 0, 2, 7, 8] = .ok ⟨true, some 1, [7, 8]⟩ ∧
      encode ⟨true, some 1, [7, 8]⟩ = [0xce, 0xb4, 0, 1, 0, 2, 7, 8] := by
  have hread : decode 2 [0xce, 0xb4, 0, 1, 0, 2, 7, 8] = .ok ⟨true, some 1, [7, 8]⟩ :=
    (decode_inverse 2).1 true 1 [7, 8] (by decide) (by decide) (.inr (by decide))
  exact ⟨hread, ((decode_inverse 2).2 _ _ hread).1⟩

/-- The blob is an image that fits a memory, and the image holds the entries. -/
structure Describes (capacity : Nat) (blob : List UInt8) (image : Image)
    (items : List Chain.Item) : Prop where
  blob : blob = image.encode
  fits : image.bytes.length ≤ capacity
  holds : Holds image.bytes image.latest items

theorem Describes.decode_eq (h : Describes capacity blob image items)
    (hcapacity : capacity ≤ maxCapacity) : decode capacity blob = .ok image := by
  have hlimit : image.bytes.length ≤ maxCapacity := Nat.le_trans h.fits hcapacity
  have hcell : image.bytes.length < 65536 := Nat.lt_of_le_of_lt hlimit (by decide)
  refine decode_eq_ok_iff.mpr ⟨h.blob, hcell, h.fits, fun n hn => ?_⟩
  have := h.holds.lt_length n hn
  omega

end Image

namespace Action
open Image
variable {a : Assembler} {blob : List UInt8} {image : Image} {items : List Chain.Item}

/-- What loading gives: the code offset of the newest word, if that is to run. -/
def loaded (image : Image) (items : List Chain.Item) : Option Nat :=
  if image.autorun then items.head?.map Chain.Item.stop else none

/-- A blob that describes an image is loaded. -/
theorem load_of_describes (hclosed : a.definition = none)
    (h : Describes a.dictionary.memory.size blob image items) : ∃ d : Dictionary,
      (load blob).run a = .ok (loaded image items)
          { a with dictionary := d, frames := [], mode := .interpret } ∧
        d.memory.allocated = image.bytes ∧ d.head = image.latest ∧
        d.entries.map Entry.item = items := by
  have hdecode := h.decode_eq a.dictionary.memory.size_le
  have hrestores : ∃ d, a.dictionary.restore image.bytes image.latest = .ok d :=
    Dictionary.exists_restore_iff.mpr ⟨h.fits, items, h.holds⟩
  obtain ⟨d, hrestore⟩ := hrestores
  obtain ⟨halloc, hhead, -, -⟩ := Dictionary.of_restore_eq_ok hrestore
  have hholds : Holds d.memory.allocated d.head items := by
    rw [halloc, hhead]
    exact h.holds
  have hcode : d.latest?.map (·.code) = items.head?.map Chain.Item.stop := by
    cases items with
    | nil => rw [Dictionary.latest?, holds_nil.mp hholds]; rfl
    | cons item older =>
      obtain ⟨hfirst, hstands, -, -⟩ := holds_cons.mp hholds
      rw [Dictionary.latest?, hfirst]
      simpa using hstands.read.2.2
  have hload : (load blob).Ensures
      (fun code a' => code = loaded image items ∧
        a' = { a with dictionary := d, frames := [], mode := .interpret })
      (fun _ _ => False) a := by
    simp only [load, ensures_bind, ensures_requireClosed, ensures_get, ensures_ofExcept_mapError,
      ensures_setDictionary, ensures_setFrames, ensures_setMode, ensures_pure]
    refine ⟨fun hopen => hopen hclosed, fun _ => ⟨fun decoded hdecoded => ?_, fun e he => ?_⟩⟩
    · obtain rfl := Except.ok.inj (hdecode.symm.trans hdecoded)
      refine ⟨fun restored hrestored => ?_, fun e he => ?_⟩
      · obtain rfl := Except.ok.inj (hrestore.symm.trans hrestored)
        exact ⟨by rw [loaded, hcode], rfl⟩
      · simp [hrestore] at he
    · simp [hdecode] at he
  obtain ⟨code, a', hrun, rfl, rfl⟩ := hload.exists_run
  exact ⟨d, hrun, halloc, hhead, Dictionary.map_item_entries hholds⟩

/-- What is loaded is described by an image. What is not is refused for its format. -/
theorem ensures_load (hclosed : a.definition = none) (blob : List UInt8) :
    (load blob).Ensures
      (fun _ _ => ∃ image items, Describes a.dictionary.memory.size blob image items)
      (fun e a' => a' = a ∧ ∃ fault, e = .badImage fault) a := by
  simp only [load, ensures_bind, ensures_requireClosed, ensures_get, ensures_ofExcept_mapError,
    ensures_setDictionary, ensures_setFrames, ensures_setMode, ensures_pure]
  refine ⟨fun hopen => absurd hclosed hopen, fun _ => ⟨fun image hdecode => ⟨fun d hrestore => ?_,
    fun fault _ => ⟨trivial, fault, rfl⟩⟩, fun fault _ => ⟨trivial, fault, rfl⟩⟩⟩
  obtain ⟨hblob, -, hfits, -⟩ := decode_eq_ok_iff.mp hdecode
  obtain ⟨-, items, hholds⟩ := Dictionary.exists_restore_iff.mp ⟨d, hrestore⟩
  exact ⟨image, items, hblob, hfits, hholds⟩

/-- While no definition is open, just the bytes that describe an image are loaded. Then the image is
theirs, its entries are those of the description, and saving gives the same bytes again. Any other
bytes are refused for their format, and nothing changes. -/
theorem load_accepts (hclosed : a.definition = none) (blob : List UInt8) :
    ((∃ code a', (load blob).run a = .ok code a') ↔
      ∃ image items, Describes a.dictionary.memory.size blob image items) ∧
    (∀ image items, Describes a.dictionary.memory.size blob image items →
      ∃ d : Dictionary,
        let a' : Assembler := { a with dictionary := d, frames := [], mode := .interpret }
        (load blob).run a = .ok (loaded image items) a' ∧
          d.memory.allocated = image.bytes ∧ d.head = image.latest ∧
          d.entries.map Entry.item = items ∧ (save image.autorun).run a' = .ok blob a') ∧
    ∀ halt a', (load blob).run a = .error halt a' →
      a' = a ∧ ∃ fault, halt = .refused (.badImage fault) := by
  refine ⟨⟨?_, ?_⟩, ?_, ?_⟩
  · rintro ⟨code, a', hrun⟩
    exact (ensures_load hclosed blob).of_ok hrun
  · rintro ⟨image, items, hdescribes⟩
    obtain ⟨d, hrun, -⟩ := load_of_describes hclosed hdescribes
    exact ⟨_, _, hrun⟩
  · intro image items hdescribes
    obtain ⟨d, hrun, halloc, hhead, hentries⟩ := load_of_describes hclosed hdescribes
    have hsave : (save image.autorun).Ensures
        (fun saved a' => saved = blob ∧
          a' = { a with dictionary := d, frames := [], mode := .interpret })
        (fun _ _ => False) { a with dictionary := d, frames := [], mode := .interpret } := by
      simp [save, hclosed, halloc, hhead, hdescribes.blob]
    obtain ⟨_, _, hsaved, rfl, rfl⟩ := hsave.exists_run
    exact ⟨d, hrun, halloc, hhead, hentries, hsaved⟩
  · intro halt a' hrun
    cases halt with
    | refused e =>
      obtain ⟨rfl, fault, rfl⟩ := (ensures_load hclosed blob).of_refused hrun
      exact ⟨rfl, fault, rfl⟩
    | violated assertion => exact absurd hrun ((ensures_load hclosed blob).not_violated _ _)

/-- An image of 5 bytes with one entry, whose name is of two characters. -/
theorem load_accepts_entry :
    let a : Assembler := .new ⟨5, by decide, by decide⟩ {} .empty
    let blob : List UInt8 := [0xce, 0xb4, 0, 0, 0, 5, 0xff, 0xff, 2, 0x61, 0x62]
    ∃ d : Dictionary,
      let a' : Assembler := { a with dictionary := d, frames := [], mode := .interpret }
      (load blob).run a = .ok (some 5) a' ∧
        d.entries.map Entry.item = [⟨0, "ab"⟩] ∧ (save true).run a' = .ok blob a' := by
  intro a blob
  have hdescribes : Describes a.dictionary.memory.size blob
      ⟨true, some 0, [0xff, 0xff, 2, 0x61, 0x62]⟩ [⟨0, "ab"⟩] := by
    refine ⟨by decide, by decide, ?_⟩
    rw [holds_cons]
    exact ⟨rfl, ⟨by decide, ⟨2, by decide⟩, by decide⟩, nofun, holds_nil.mpr rfl⟩
  obtain ⟨d, hrun, -, -, hentries, hsaved⟩ := (load_accepts rfl blob).2.1 _ _ hdescribes
  exact ⟨d, hrun, hentries, hsaved⟩

end Action
end ForthAssembler
