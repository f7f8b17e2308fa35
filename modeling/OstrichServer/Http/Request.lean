import Mathlib.Tactic

/-!
# The request record and its buffer

The data of `http.h`, `http_request.h` and `osbuf.h` that request-line handling reads and writes.
A pointer into the header buffer is its offset from `b->start`, and `none` is `NULL`.
-/

namespace OstrichServer
namespace Http

/-- A statement about all bytes is decided by trying them. -/
instance decidableForallByte (p : UInt8 → Prop) [DecidablePred p] : Decidable (∀ c, p c) :=
  decidable_of_iff (∀ n : Fin 256, p (UInt8.ofFin n))
    ⟨fun all c => all c.toFin, fun all n => all (UInt8.ofFin n)⟩

/-- A character constant as a `u_char`. -/
@[simp]
def chr (c : Char) : UInt8 := UInt8.ofNat c.toNat

/-- The line feed byte `LF`. -/
abbrev lf : UInt8 := 10

/-- The carriage return byte `CR`. -/
abbrev cr : UInt8 := 13

/-- The space byte `' '`. -/
abbrev sp : UInt8 := 32

def osHttpGet : UInt32 := 0x0002
def osHttpHead : UInt32 := 0x0004
def osHttpPost : UInt32 := 0x0008
def osHttpPut : UInt32 := 0x0010
def osHttpDelete : UInt32 := 0x0020
def osHttpMkcol : UInt32 := 0x0040
def osHttpCopy : UInt32 := 0x0080
def osHttpMove : UInt32 := 0x0100
def osHttpOptions : UInt32 := 0x0200
def osHttpPropfind : UInt32 := 0x0400
def osHttpProppatch : UInt32 := 0x0800
def osHttpLock : UInt32 := 0x1000
def osHttpUnlock : UInt32 := 0x2000
def osHttpPatch : UInt32 := 0x4000
def osHttpTrace : UInt32 := 0x8000

/-- `OS_HTTP_VERSION_10`. -/
def osHttpVersion10 : UInt32 := 1000

/-- The parser states of `http_parse_request_line`. -/
inductive LineState
  | swStart
  | swMethod
  | swSpacesBeforeUri
  | swSchema
  | swSchemaSlash
  | swSchemaSlashSlash
  | swHostStart
  | swHost
  | swHostEnd
  | swHostIpLiteral
  | swPort
  | swHostHttp09
  | swAfterSlashInUri
  | swCheckUri
  | swCheckUriHttp09
  | swUri
  | swHttp09
  | swHttpH
  | swHttpHT
  | swHttpHTT
  | swHttpHTTP
  | swFirstMajorDigit
  | swMajorDigit
  | swFirstMinorDigit
  | swMinorDigit
  | swSpacesAfterDigit
  | swAlmostDone
  deriving DecidableEq, Repr, Inhabited

/-- The return codes of `http_parse_request_line`. -/
inductive LineCode
  | osOk
  | osAgain
  | invalidMethod
  | invalidRequest
  | invalid09Method
  deriving DecidableEq, Repr

/-- Where the `data` of a `string` points: nowhere, into the header buffer, or to the start of a
block fresh from `os_malloc`, whose bytes nobody has written. -/
inductive DataPtr
  | null
  | header (offset : Nat)
  | fresh (size : Int)
  deriving DecidableEq, Repr

/-- The source's `string`; its length is a signed `int`. -/
structure OsString where
  data : DataPtr
  len : Int
  deriving DecidableEq, Repr

/-- `null_string`, which is also what zeroed memory holds. -/
def OsString.nullString : OsString := ⟨.null, 0⟩

/-- The fields of `http_request` that request-line handling uses. -/
structure HttpRequest where
  method : UInt32
  httpVersion : UInt32
  requestLength : Int
  requestLine : OsString
  uri : OsString
  args : OsString
  exten : OsString
  unparsedUri : OsString
  methodName : OsString
  httpProtocol : OsString
  validUnparsedUri : Bool
  complexUri : Bool
  quotedUri : Bool
  plusInUri : Bool
  spaceInUri : Bool
  state : LineState
  uriStart : Option Nat
  uriEnd : Option Nat
  uriExt : Option Nat
  argsStart : Option Nat
  requestStart : Option Nat
  requestEnd : Option Nat
  methodEnd : Option Nat
  schemaStart : Option Nat
  schemaEnd : Option Nat
  hostStart : Option Nat
  hostEnd : Option Nat
  portEnd : Option Nat
  httpMinor : UInt16
  httpMajor : UInt16
  deriving DecidableEq, Repr

/-- The zeroed record `http_create_request` gets from `os_calloc`. -/
def HttpRequest.fresh : HttpRequest where
  method := 0
  httpVersion := 0
  requestLength := 0
  requestLine := .nullString
  uri := .nullString
  args := .nullString
  exten := .nullString
  unparsedUri := .nullString
  methodName := .nullString
  httpProtocol := .nullString
  validUnparsedUri := false
  complexUri := false
  quotedUri := false
  plusInUri := false
  spaceInUri := false
  state := .swStart
  uriStart := none
  uriEnd := none
  uriExt := none
  argsStart := none
  requestStart := none
  requestEnd := none
  methodEnd := none
  schemaStart := none
  schemaEnd := none
  hostStart := none
  hostEnd := none
  portEnd := none
  httpMinor := 0
  httpMajor := 0

namespace HttpRequest

/-! Assignments to one field, as the parser makes them. -/

def setRequestStart (r : HttpRequest) (p : Nat) : HttpRequest := { r with requestStart := some p }
def setRequestEnd (r : HttpRequest) (p : Nat) : HttpRequest := { r with requestEnd := some p }
def setMethodEnd (r : HttpRequest) (p : Nat) : HttpRequest := { r with methodEnd := some p }
def setMethod (r : HttpRequest) (code : UInt32) : HttpRequest := { r with method := code }
def setSchemaStart (r : HttpRequest) (p : Nat) : HttpRequest := { r with schemaStart := some p }
def setSchemaEnd (r : HttpRequest) (p : Nat) : HttpRequest := { r with schemaEnd := some p }
def setHostStart (r : HttpRequest) (p : Nat) : HttpRequest := { r with hostStart := some p }
def setHostEnd (r : HttpRequest) (p : Nat) : HttpRequest := { r with hostEnd := some p }
def setPortEnd (r : HttpRequest) (p : Nat) : HttpRequest := { r with portEnd := some p }
def setUriStart (r : HttpRequest) (p : Nat) : HttpRequest := { r with uriStart := some p }
def setUriEnd (r : HttpRequest) (p : Nat) : HttpRequest := { r with uriEnd := some p }
def setUriExt (r : HttpRequest) (p : Option Nat) : HttpRequest := { r with uriExt := p }
def setArgsStart (r : HttpRequest) (p : Nat) : HttpRequest := { r with argsStart := some p }
def setComplexUri (r : HttpRequest) : HttpRequest := { r with complexUri := true }
def setQuotedUri (r : HttpRequest) : HttpRequest := { r with quotedUri := true }
def setPlusInUri (r : HttpRequest) : HttpRequest := { r with plusInUri := true }
def setSpaceInUri (r : HttpRequest) : HttpRequest := { r with spaceInUri := true }
def setHttpMajor (r : HttpRequest) (n : UInt16) : HttpRequest := { r with httpMajor := n }
def setHttpMinor (r : HttpRequest) (n : UInt16) : HttpRequest := { r with httpMinor := n }
def setState (r : HttpRequest) (state : LineState) : HttpRequest := { r with state := state }

/-- `r->http_protocol.data = p` -/
def setHttpProtocolData (r : HttpRequest) (p : Nat) : HttpRequest :=
  { r with httpProtocol := ⟨.header p, r.httpProtocol.len⟩ }

/-- `r->uri_start = r->schema_end + 1; r->uri_end = r->schema_end + 2`: the single "/" of the
request line which stands for an absent path. -/
def setUriToSlash (r : HttpRequest) : HttpRequest :=
  { r with uriStart := r.schemaEnd.map (· + 1), uriEnd := r.schemaEnd.map (· + 2) }

end HttpRequest

/-- The fields of `os_buf` that header reading uses, over the block `[start, end)`. -/
structure OsBuf where
  mem : List UInt8
  pos : Nat
  last : Nat
  «end» : Nat
  deriving DecidableEq, Repr

namespace OsBuf

/-- The pointers of a buffer are in order and stay inside its block. -/
structure WellFormed (b : OsBuf) : Prop where
  pos_le : b.pos ≤ b.last
  last_le : b.last ≤ b.end
  size : b.mem.length = b.end

/-- The byte at an offset of the block. -/
def byte (b : OsBuf) (p : Nat) : UInt8 := b.mem.getD p 0

/-- The bytes received so far. -/
def received (b : OsBuf) : List UInt8 := b.mem.take b.last

/-- The received bytes the parser has not been given yet. -/
def pending (b : OsBuf) : List UInt8 := b.received.drop b.pos

/-- Bytes written by `os_recv` at `b->last`, which moves past them. -/
def append (b : OsBuf) (chunk : List UInt8) : OsBuf :=
  { b with
    mem := b.mem.take b.last ++ chunk ++ b.mem.drop (b.last + chunk.length)
    last := b.last + chunk.length }

/-- A buffer fresh from `os_calloc`. -/
def zeroed (size : Nat) : OsBuf := ⟨List.replicate size 0, 0, 0, size⟩

theorem zeroed_wellFormed (size : Nat) : (zeroed size).WellFormed :=
  ⟨by simp [zeroed], by simp [zeroed], by simp [zeroed]⟩

@[simp]
theorem zeroed_received (size : Nat) : (zeroed size).received = [] := by
  simp [zeroed, received]

namespace WellFormed

variable {b : OsBuf} (wf : b.WellFormed)
include wf

@[simp]
theorem received_length : b.received.length = b.last := by
  have := wf.last_le
  have := wf.size
  simp only [received, List.length_take]
  omega

theorem byte_of_lt {p : Nat} (inside : p < b.last) :
    b.received[p]? = some (b.byte p) := by
  have := wf.last_le
  have := wf.size
  have bound : p < b.mem.length := by omega
  simp [received, byte, inside, List.getD_eq_getElem?_getD, List.getElem?_eq_getElem bound]

theorem append_received (chunk : List UInt8) :
    (b.append chunk).received = b.received ++ chunk := by
  have := wf.last_le
  have := wf.size
  have split : (b.mem.take b.last ++ chunk).length = b.last + chunk.length := by
    simp only [List.length_append, List.length_take]
    omega
  simp only [append, received]
  rw [List.take_append_of_le_length (le_of_eq split.symm), List.take_of_length_le (le_of_eq split)]

theorem append_pending (chunk : List UInt8) : (b.append chunk).pending = b.pending ++ chunk := by
  have position : b.pos ≤ b.received.length := by
    rw [wf.received_length]
    exact wf.pos_le
  rw [pending, wf.append_received, pending]
  exact List.drop_append_of_le_length position

/-- Bytes that arrive later leave the received ones alone. -/
theorem append_byte {chunk : List UInt8} {p : Nat} (inside : p < b.last) :
    (b.append chunk).byte p = b.byte p := by
  have := wf.last_le
  have := wf.size
  have bound : p < (b.mem.take b.last).length := by
    rw [List.length_take]
    omega
  simp only [byte, OsBuf.append, List.getD_eq_getElem?_getD, List.append_assoc]
  rw [List.getElem?_append_left bound, List.getElem?_take, if_pos inside]

theorem append {chunk : List UInt8} (room : chunk.length ≤ b.end - b.last) :
    (b.append chunk).WellFormed := by
  have := wf.pos_le
  have := wf.last_le
  have := wf.size
  refine ⟨?_, ?_, ?_⟩ <;> simp only [OsBuf.append, List.length_append, List.length_take,
    List.length_drop] <;> omega

/-- Two receptions in a row are one. -/
theorem append_append (left right : List UInt8) :
    (b.append left).append right = b.append (left ++ right) := by
  have := wf.last_le
  have := wf.size
  have split : (b.mem.take b.last ++ left).length = b.last + left.length := by
    simp only [List.length_append, List.length_take]
    omega
  have front : (b.append left).mem.take (b.last + left.length) = b.mem.take b.last ++ left :=
    List.take_left' split
  have back : (b.append left).mem.drop (b.last + left.length + right.length) =
      b.mem.drop (b.last + left.length + right.length) := by
    have drop_left : (b.append left).mem.drop (b.last + left.length) =
        b.mem.drop (b.last + left.length) := List.drop_left' split
    rw [← List.drop_drop, drop_left, List.drop_drop]
  have joined : (b.append left).append right = { b.append left with
      mem := (b.append left).mem.take (b.last + left.length) ++ right ++
        (b.append left).mem.drop (b.last + left.length + right.length)
      last := b.last + left.length + right.length } := rfl
  rw [joined, front, back]
  simp only [OsBuf.append, List.length_append, List.append_assoc, Nat.add_assoc]

end WellFormed

theorem append_nil (b : OsBuf) : b.append [] = b := by
  simp [append]

end OsBuf

end Http
end OstrichServer
