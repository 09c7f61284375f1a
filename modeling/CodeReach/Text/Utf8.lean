namespace CodeReach.Text.Utf8

def replacement : Char := '�'

/-- A character begun: its bits so far, how many bytes follow the next one, and between which bounds
the next one lies. -/
structure Begun where
  bits : Nat
  later : Nat
  low : Nat
  high : Nat
deriving DecidableEq

inductive Lead where
  | whole (c : Char)
  | begun (b : Begun)
  | stray

/-- What a byte means where a character starts. The bounds exclude overlong forms, surrogates and
what lies beyond the last code point. -/
def lead (byte : UInt8) : Lead :=
  let n := byte.toNat
  if n < 0x80 then .whole (Char.ofNat n)
  else if n < 0xc2 then .stray
  else if n < 0xe0 then .begun ⟨n - 0xc0, 0, 0x80, 0xbf⟩
  else if n < 0xf0 then
    .begun ⟨n - 0xe0, 1, if n = 0xe0 then 0xa0 else 0x80, if n = 0xed then 0x9f else 0xbf⟩
  else if n < 0xf5 then
    .begun ⟨n - 0xf0, 2, if n = 0xf0 then 0x90 else 0x80, if n = 0xf4 then 0x8f else 0xbf⟩
  else .stray

/-- The text read so far is kept in reverse. -/
structure Decoder where
  begun : Option Begun
  text : List Char

def Decoder.start : Decoder := ⟨none, []⟩

/-- Reads a byte where no character is begun. -/
def Decoder.enter (text : List Char) (byte : UInt8) : Decoder :=
  match lead byte with
  | .whole c => ⟨none, c :: text⟩
  | .begun b => ⟨some b, text⟩
  | .stray => ⟨none, replacement :: text⟩

/-- Where the bytes are no UTF-8, a character that cannot go on becomes one replacement character,
and reading goes on with the byte that broke it off. -/
def Decoder.step (d : Decoder) (byte : UInt8) : Decoder :=
  match d.begun with
  | none => enter d.text byte
  | some b =>
    if b.low ≤ byte.toNat ∧ byte.toNat ≤ b.high then
      let bits := b.bits * 64 + (byte.toNat - 0x80)
      match b.later with
      | 0 => ⟨none, Char.ofNat bits :: d.text⟩
      | later + 1 => ⟨some ⟨bits, later, 0x80, 0xbf⟩, d.text⟩
    else enter (replacement :: d.text) byte

def Decoder.finish (d : Decoder) : List Char :=
  match d.begun with
  | none => d.text.reverse
  | some _ => (replacement :: d.text).reverse

def lossy (bytes : List UInt8) : List Char := (bytes.foldl Decoder.step .start).finish

/-- The text of a file: exact where the bytes are UTF-8, and lossy otherwise. -/
def decode (bytes : ByteArray) : String :=
  (String.fromUTF8? bytes).getD (String.ofList (lossy bytes.data.toList))

end CodeReach.Text.Utf8
