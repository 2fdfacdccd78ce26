import FlushDB.Engine.PageToken
import FlushDB.Lib.Base64

/-! Bytes as text: page tokens for the client, and the keys of a table in the manifest. -/

namespace FlushDB
open Lib

namespace ReadPath

def base64Encode (bytes : Bytes) : String := Base64.encode bytes.data

def base64Decode (s : String) : FlushResult Bytes :=
  (Base64.decode FlushError.invalidArgument s).map Bytes.mk

end ReadPath

namespace PageToken

def toBase64 (token : PageToken) : String := ReadPath.base64Encode token.encode

def fromBase64 (s : String) : FlushResult PageToken := do
  let bytes ← ReadPath.base64Decode s
  decode bytes

end PageToken

/-! The copy of the manifest. Its errors are the messages alone. -/
namespace Base64Bytes

def base64Encode (bytes : Bytes) : Except String String := .ok (Base64.encode bytes.data)

def base64Decode (s : String) : Except String Bytes := (Base64.decode id s).map Bytes.mk

end Base64Bytes

theorem ReadPath.base64Decode_encode (bytes : Bytes) :
    base64Decode (base64Encode bytes) = .ok bytes := by
  rw [base64Decode, base64Encode, Base64.decode_encode]
  rfl

theorem Base64Bytes.base64Decode_encode (bytes : Bytes) :
    (base64Encode bytes).bind base64Decode = .ok bytes := by
  rw [base64Encode, Except.bind, base64Decode, Base64.decode_encode]
  rfl

namespace PageToken

theorem fromBase64_toBase64 (token : PageToken) :
    fromBase64 token.toBase64 = decode token.encode := by
  rw [fromBase64, toBase64, ReadPath.base64Decode_encode]
  rfl

/-- A token comes back from its bytes and from its text, and any bytes from their text in either
copy. -/
theorem base64_round_trip {token : PageToken} (fits : token.Fits) (bytes : Bytes) :
    (decode token.encode = .ok token ∧ fromBase64 token.toBase64 = .ok token) ∧
      ReadPath.base64Decode (ReadPath.base64Encode bytes) = .ok bytes ∧
        (Base64Bytes.base64Encode bytes).bind Base64Bytes.base64Decode = .ok bytes := by
  refine ⟨⟨decode_encode fits, ?_⟩, ReadPath.base64Decode_encode bytes,
    Base64Bytes.base64Decode_encode bytes⟩
  rw [fromBase64_toBase64, decode_encode fits]

section Example

/-- The last item of a page, with the average of the items before it. -/
def lastItem : PageToken := ⟨CompositeKey.encode ⟨[114]⟩ [7], 41, some 250⟩

theorem lastItem_round_trip : fromBase64 lastItem.toBase64 = .ok lastItem :=
  (@base64_round_trip lastItem ⟨by decide, by decide, by decide⟩ ⟨[0xFF]⟩).1.2

end Example

end PageToken

end FlushDB
