/-!
# UTF-8

Texts as bytes and bytes as texts. `decode?_eq_some_iff` says that reading bytes accepts exactly
what writing a text produces, so no text has two encodings.
-/
namespace HornLogic.Text.Utf8

set_option autoImplicit false

def encode (text : String) : List UInt8 :=
  text.toByteArray.data.toList

/-- Bytes that are not UTF-8 have no text. -/
def decode? (bytes : List UInt8) : Option String :=
  String.fromUTF8? bytes.toByteArray

/-- How many bytes the characters take. -/
def size : List Char → Nat
  | [] => 0
  | first :: rest => first.utf8Size + size rest

theorem toByteArray_encode (text : String) : (encode text).toByteArray = text.toByteArray := by
  apply ByteArray.ext
  simp [encode, List.data_toByteArray]

theorem decode?_eq_some_iff {bytes : List UInt8} {text : String} :
    decode? bytes = some text ↔ bytes = encode text := by
  constructor
  · intro decoded
    unfold decode? String.fromUTF8? at decoded
    split at decoded
    · cases decoded
      simp [encode, String.fromUTF8, List.data_toByteArray]
    · cases decoded
  · intro encoded
    subst encoded
    unfold decode? String.fromUTF8?
    rw [toByteArray_encode, dif_pos text.isValidUTF8]
    simp [String.fromUTF8]

theorem decode?_encode (text : String) : decode? (encode text) = some text :=
  decode?_eq_some_iff.mpr rfl

theorem size_nil : size [] = 0 := rfl

theorem size_cons (first : Char) (rest : List Char) :
    size (first :: rest) = first.utf8Size + size rest := rfl

theorem size_append (left right : List Char) : size (left ++ right) = size left + size right := by
  induction left with
  | nil => rw [List.nil_append, size_nil, Nat.zero_add]
  | cons first rest ih => rw [List.cons_append, size_cons, size_cons, ih, Nat.add_assoc]

end HornLogic.Text.Utf8
