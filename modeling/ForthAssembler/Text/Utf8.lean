/-! UTF-8 forms of texts, as lists of bytes. -/
namespace ForthAssembler.Text

/-- The UTF-8 bytes of a text. -/
def utf8 (text : String) : List UInt8 :=
  text.toByteArray.data.toList

/-- The text with these UTF-8 bytes, `none` when they are ill-formed. -/
def ofUtf8? (bytes : List UInt8) : Option String :=
  String.fromUTF8? ⟨bytes.toArray⟩

theorem length_utf8 (text : String) : (utf8 text).length = text.utf8ByteSize := rfl

theorem utf8_inj {s t : String} : utf8 s = utf8 t ↔ s = t := by
  constructor
  · intro h
    exact String.toByteArray_inj.mp (ByteArray.ext (Array.toList_inj.mp h))
  · rintro rfl
    rfl

theorem ofUtf8?_utf8 (text : String) : ofUtf8? (utf8 text) = some text := by
  have h : (ByteArray.mk (utf8 text).toArray) = text.toByteArray := by simp [utf8]
  simp only [ofUtf8?, String.fromUTF8?, h, text.isValidUTF8, dite_true]
  rfl

theorem ofUtf8?_eq_some_iff {bytes : List UInt8} {text : String} :
    ofUtf8? bytes = some text ↔ bytes = utf8 text := by
  constructor
  · intro h
    simp only [ofUtf8?, String.fromUTF8?] at h
    split at h
    · simp only [Option.some.injEq] at h
      subst h
      simp [utf8, String.fromUTF8]
    · cases h
  · rintro rfl
    exact ofUtf8?_utf8 text

/-- The value bits of a lead byte and the ranges of the bytes that must follow it, `none` for a
byte that starts no sequence. The narrowed first ranges leave out overlong forms, surrogates and
values past U+10FFFF. -/
def lead? (b : UInt8) : Option (Nat × List (UInt8 × UInt8)) :=
  let next : UInt8 × UInt8 := (0x80, 0xbf)
  if b < 0x80 then some (b.toNat, [])
  else if b < 0xc2 then none
  else if b < 0xe0 then some (b.toNat % 32, [next])
  else if b = 0xe0 then some (b.toNat % 16, [(0xa0, 0xbf), next])
  else if b = 0xed then some (b.toNat % 16, [(0x80, 0x9f), next])
  else if b < 0xf0 then some (b.toNat % 16, [next, next])
  else if b = 0xf0 then some (b.toNat % 8, [(0x90, 0xbf), next, next])
  else if b < 0xf4 then some (b.toNat % 8, [next, next, next])
  else if b = 0xf4 then some (b.toNat % 8, [(0x80, 0x8f), next, next])
  else none

/-- Reads the bytes after a lead byte as far as they fit the ranges. -/
def follow (value : Nat) : List (UInt8 × UInt8) → List UInt8 → Option Nat × List UInt8
  | [], bytes => (some value, bytes)
  | _ :: _, [] => (none, [])
  | (low, high) :: ranges, b :: bytes =>
    if low ≤ b ∧ b ≤ high then follow (value * 64 + b.toNat % 64) ranges bytes
    else (none, b :: bytes)

theorem length_follow_le (value : Nat) (ranges : List (UInt8 × UInt8)) (bytes : List UInt8) :
    (follow value ranges bytes).2.length ≤ bytes.length := by
  fun_induction follow value ranges bytes with
  | case3 value low high ranges b bytes h ih =>
    rw [List.length_cons]
    omega
  | _ => simp

/-- Characters of a byte string, with U+FFFD for each longest part that is a cut-off sequence, or
else for a single byte. -/
def lossyChars : List UInt8 → List Char
  | [] => []
  | b :: bytes =>
    match lead? b with
    | none => '\ufffd' :: lossyChars bytes
    | some (value, ranges) =>
      ((follow value ranges bytes).1.map Char.ofNat).getD '\ufffd' ::
        lossyChars (follow value ranges bytes).2
termination_by bytes => bytes.length
decreasing_by
  · simp
  · have := length_follow_le value ranges bytes
    simp only [List.length_cons]
    omega

/-- Reads any byte string as text, replacing what is ill-formed. -/
def ofUtf8Lossy (bytes : List UInt8) : String :=
  String.ofList (lossyChars bytes)

end ForthAssembler.Text
