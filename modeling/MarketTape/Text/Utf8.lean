/-!
# Texts from bytes

Bytes are a text if they are well-formed UTF-8 throughout.
-/

namespace MarketTape.Text

/-- Where the well-formed beginning of some bytes ends, from a place on and for
up to a number of characters. -/
def validFrom (bytes : ByteArray) : Nat → Nat → Nat
  | 0, place => place
  | count + 1, place =>
    match bytes.utf8DecodeChar? place with
    | some c => validFrom bytes count (place + c.utf8Size)
    | none => place

/-- How many bytes make up the well-formed beginning. -/
def validLength (bytes : ByteArray) : Nat := validFrom bytes bytes.size 0

/-- The text of some bytes; where they are not well-formed, the length of their
well-formed beginning. -/
def ofBytes (bytes : ByteArray) : Except Nat String :=
  match String.fromUTF8? bytes with
  | some text => .ok text
  | none => .error (validLength bytes)

end MarketTape.Text
