import Gcode.Text.Basic

/-!
# UTF-8

Texts as bytes. Decoding is strict: bytes that are no well-formed UTF-8 are refused, and a byte
order mark is a character like any other.
-/

namespace Gcode.Text

/-- The text that the bytes encode. -/
def ofUtf8? (bytes : ByteArray) : Option Text := (String.fromUTF8? bytes).map String.toList

/-- The bytes that encode a text. -/
def toUtf8 (t : Text) : ByteArray := (String.ofList t).toUTF8

/-- A text is read back from its bytes. -/
theorem ofUtf8?_toUtf8 (t : Text) : ofUtf8? (toUtf8 t) = some t := by
  have valid : (String.ofList t).toUTF8.IsValidUTF8 := by
    rw [String.toUTF8_eq_toByteArray]
    exact (String.ofList t).isValidUTF8
  rw [ofUtf8?, toUtf8, String.fromUTF8?, dif_pos valid, Option.map_some, Option.some.injEq]
  exact String.toList_ofList

end Gcode.Text
