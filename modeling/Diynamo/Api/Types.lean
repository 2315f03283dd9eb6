import Diynamo.Lib.Utf8

/-! # The bodies of requests and responses

A put carries a value, or a value with a timestamp, as JSON. The server reads a body up to
`bodyLimit`, and then as the one its handler takes: a field that the handler does not know is
ignored, a missing one rejected. -/

namespace Diynamo.Api.Types

open Diynamo.Lib.Utf8

/-- The body of a get response. -/
structure GetResponse where
  value : String
  timestamp : ℕ
deriving DecidableEq, Repr

/-- The body of a put that takes its timestamp from the receiving node. -/
structure PutBody where
  value : String
deriving DecidableEq, Repr

/-- The body of a put with an explicit timestamp. -/
structure PutVersionedBody where
  value : String
  timestamp : ℕ
deriving DecidableEq, Repr

/-! ### JSON -/

/-- A hexadecimal digit in lower case. -/
def lowerHexDigit (n : ℕ) : UInt8 := UInt8.ofNat (if n < 10 then 0x30 + n else 0x57 + n)

/-- One byte of a JSON string: a quotation mark, a backslash and the controls are escaped. -/
def escapeByte (b : UInt8) : Bytes :=
  if b = 0x22 then [0x5C, 0x22]
  else if b = 0x5C then [0x5C, 0x5C]
  else if b = 0x08 then [0x5C, 0x62]
  else if b = 0x0C then [0x5C, 0x66]
  else if b = 0x0A then [0x5C, 0x6E]
  else if b = 0x0D then [0x5C, 0x72]
  else if b = 0x09 then [0x5C, 0x74]
  else if b < 0x20 then
    [0x5C, 0x75, 0x30, 0x30, lowerHexDigit (b.toNat / 16), lowerHexDigit (b.toNat % 16)]
  else [b]

/-- A JSON string. -/
def jsonString (s : String) : Bytes := 0x22 :: ((utf8 s).flatMap escapeByte ++ [0x22])

/-- What a put sends. -/
inductive SentBody where
  | put (body : PutBody)
  | putVersioned (body : PutVersionedBody)
deriving DecidableEq, Repr

namespace SentBody

/-- **The JSON of a body.** -/
def json : SentBody → Bytes
  | .put body => utf8 "\x7b\"value\":" ++ jsonString body.value ++ utf8 "\x7d"
  | .putVersioned body =>
    utf8 "\x7b\"value\":" ++ jsonString body.value ++ utf8 ",\"timestamp\":" ++
      utf8 body.timestamp.repr ++ utf8 "\x7d"

def value : SentBody → String
  | .put body => body.value
  | .putVersioned body => body.value

end SentBody

/-- The largest body that a handler reads: 2 MiB. -/
def bodyLimit : ℕ := 2097152

/-- **The body is not too large.** -/
def Fits (body : SentBody) : Prop := body.json.length ≤ bodyLimit

instance (body : SentBody) : Decidable (Fits body) :=
  inferInstanceAs (Decidable (body.json.length ≤ bodyLimit))

/-- A body with a quotation mark and a control. -/
example : (SentBody.putVersioned ⟨"a\"\x01", 7⟩).json =
    utf8 "\x7b\"value\":\"a\\\"\\u0001\",\"timestamp\":7\x7d" := by
  decide

end Diynamo.Api.Types
