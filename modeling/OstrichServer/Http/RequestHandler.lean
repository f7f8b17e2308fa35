import OstrichServer.Http.ParseLine
import Mathlib.Logic.Relation

/-!
# The request-line handlers of `http_request.c`

`http_wait_request_handler`, `http_read_request_header` and `http_process_request_line` with what
they call, and a connection which moves between them as `os_recv` hands over the client's bytes.
No call of `os_recv` or of the allocator fails and no event has timed out.
-/

namespace OstrichServer
namespace Http

/-! ## Pointers -/

/-- A pointer as the `data` of a `string`. -/
def dataPtr : Option Nat → DataPtr
  | none => .null
  | some p => .header p

/-- The difference of two pointers. -/
def ptrDiff (p q : Option Nat) : Int := (p.getD 0 : Int) - q.getD 0

/-! ## `os_http_validate_host` -/

/-- `os_tolower` -/
def osTolower (c : UInt8) : UInt8 := if chr 'A' ≤ c ∧ c ≤ chr 'Z' then c ||| 0x20 else c

/-- `os_strlow` -/
def osStrlow (src : List UInt8) : List UInt8 := src.map osTolower

/-- The `state` of `os_http_validate_host`. -/
inductive HostState
  | swUsual
  | swLiteral
  | swRest
  deriving DecidableEq

/-- The other variables of `os_http_validate_host`; the positions are of type `size_t`. -/
structure HostScan where
  state : HostState
  dotPos : UInt64
  hostLen : UInt64
  alloc : Bool

/-- One turn of the `switch (ch)` at `h[i]`; `none` is `OS_DECLINED`. -/
def hostScanStep (scan : HostScan) (i : UInt64) (ch : UInt8) : Option HostScan :=
  if ch = chr '.' then
    if scan.dotPos = i - 1 then none else some { scan with dotPos := i }
  else if ch = chr ':' then
    match scan.state with
    | .swUsual => some { scan with hostLen := i, state := .swRest }
    | _ => some scan
  else if ch = chr '[' then
    some (if i = 0 then { scan with state := .swLiteral } else scan)
  else if ch = chr ']' then
    match scan.state with
    | .swLiteral => some { scan with hostLen := i + 1, state := .swRest }
    | _ => some scan
  else if ch = 0 then none
  else if ch = chr '/' then none
  else if chr 'A' ≤ ch ∧ ch ≤ chr 'Z' then some { scan with alloc := true }
  else some scan

/-- The loop of `os_http_validate_host` from position `i` on. -/
def hostScanLoop (scan : HostScan) (i : UInt64) : List UInt8 → Option HostScan
  | [] => some scan
  | ch :: h =>
      match hostScanStep scan i ch with
      | none => none
      | some scan => hostScanLoop scan (i + 1) h

/-- `os_http_validate_host` on the bytes of `host`: the bytes it leaves there with `OS_OK`, or
`none` for `OS_DECLINED`. -/
def osHttpValidateHost (h : List UInt8) (alloc : Bool) : Option (List UInt8) :=
  let length := UInt64.ofNat h.length
  match hostScanLoop ⟨.swUsual, length, length, alloc⟩ 0 h with
  | none => none
  | some scan =>
      let hostLen := if scan.dotPos = scan.hostLen - 1 then scan.hostLen - 1 else scan.hostLen
      if hostLen = 0 then none
      else
        let host := h.take hostLen.toNat
        some (if scan.alloc then osStrlow host else host)

/-! ## `http_process_request_uri` -/

/-- `http_process_request_uri`, which returns `OS_OK` as `os_malloc` does not fail. -/
def httpProcessRequestUri (r : HttpRequest) : HttpRequest :=
  let pathEnd := match r.argsStart with
    | some args => some (args - 1)
    | none => r.uriEnd
  { r with
    uri :=
      ⟨if r.complexUri ∨ r.quotedUri then .fresh (ptrDiff pathEnd r.uriStart + 1)
        else dataPtr r.uriStart,
        ptrDiff pathEnd r.uriStart⟩
    unparsedUri := ⟨dataPtr r.uriStart, ptrDiff r.uriEnd r.uriStart⟩
    validUnparsedUri := ¬ r.spaceInUri
    exten :=
      match r.uriExt with
      | some ext => ⟨.header ext, ptrDiff pathEnd ext⟩
      | none => r.exten
    args :=
      match r.argsStart with
      | some args =>
          if args < r.uriEnd.getD 0 then ⟨.header args, ptrDiff r.uriEnd args⟩ else r.args
      | none => r.args }

/-! ## `http_process_request_line` -/

/-- What a call of `os_recv` does: return `OS_AGAIN`, or write some bytes and return their
number. -/
inductive Recv
  | again
  | data (chunk : List UInt8)

/-- The return values of `http_read_request_header`. -/
inductive ReadCode
  | osAgain
  | osErr
  | ready
  deriving DecidableEq

/-- `http_read_request_header`, whose call of `os_recv` would do `recv`. -/
def httpReadRequestHeader (b : OsBuf) (recv : Recv) : ReadCode × OsBuf :=
  if b.pos < b.last then (.ready, b)
  else
    match recv with
    | .again => (.osAgain, b)
    | .data [] => (.osErr, b)
    | .data chunk => (.ready, b.append chunk)

/-- Where request-line handling ends. -/
inductive Verdict
  /-- The connection closed before its first byte. -/
  | closed
  /-- `http_finalize_request(r, OS_HTTP_BAD_REQUEST)` -/
  | reject
  /-- `http_process_request(r)` -/
  | processRequest
  /-- `http_process_request_headers(rev)` -/
  | processRequestHeaders
  deriving DecidableEq

/-- The event handler of a connection, or the verdict it reached. -/
inductive Phase
  /-- `http_wait_request_handler` -/
  | waiting
  /-- `http_process_request_line`, at the top of its loop with `rc == OS_AGAIN`: the handler goes
  round its loop or was entered again. -/
  | reading
  | judged (verdict : Verdict)
  deriving DecidableEq

/-- What `http_process_request_line` records once the parser returned `OS_OK`. -/
def recordRequestLine (r : HttpRequest) (b : OsBuf) : HttpRequest :=
  { r with
    requestLine := ⟨dataPtr r.requestStart, ptrDiff r.requestEnd r.requestStart⟩
    requestLength := ptrDiff (some b.pos) r.requestStart
    methodName := ⟨dataPtr r.requestStart, ptrDiff r.methodEnd r.requestStart + 1⟩
    httpProtocol :=
      match r.httpProtocol.data with
      | .header data => ⟨.header data, ptrDiff r.requestEnd data⟩
      | _ => r.httpProtocol }

/-- The `len` bytes at `p`; a negative `int` becomes a huge `size_t`. -/
def OsBuf.bytes (b : OsBuf) (p : Nat) (len : Int) : List UInt8 :=
  (List.range (len % 2 ^ 64).toNat).map fun i => b.byte (p + i)

/-- Whether `http_process_request_line` accepts the host of the request. -/
def hostAccepted (r : HttpRequest) (b : OsBuf) : Bool :=
  match r.hostStart, r.hostEnd with
  | some start, some stop => (osHttpValidateHost (b.bytes start (ptrDiff stop start)) false).isSome
  | _, _ => true

/-- The part of `http_process_request_line` after the parser returned `OS_OK`. -/
def finishRequestLine (r : HttpRequest) (b : OsBuf) : HttpRequest × Verdict :=
  let r := httpProcessRequestUri (recordRequestLine r b)
  if ¬ hostAccepted r b then (r, .reject)
  else if r.httpVersion < osHttpVersion10 then (r, .processRequest)
  else (r, .processRequestHeaders)

/-- One turn of the loop of `http_process_request_line`. -/
def httpProcessRequestLine (r : HttpRequest) (b : OsBuf) (recv : Recv) :
    HttpRequest × OsBuf × Phase :=
  match httpReadRequestHeader b recv with
  | (.osAgain, b) => (r, b, .reading)
  | (.osErr, b) => (r, b, .judged .reject)
  | (.ready, b) =>
      match httpParseRequestLine r b with
      | (.osOk, r, b) =>
          let (r, verdict) := finishRequestLine r b
          (r, b, .judged verdict)
      | (.osAgain, r, b) => (r, b, .reading)
      | (_, r, b) => (r, b, .judged .reject)

/-- What the loop does with the outcome of the parser. -/
def afterParse : LineCode × HttpRequest × OsBuf → HttpRequest × OsBuf × Phase
  | (.osOk, r, b) => ((finishRequestLine r b).1, b, .judged (finishRequestLine r b).2)
  | (.osAgain, r, b) => (r, b, .reading)
  | (_, r, b) => (r, b, .judged .reject)

/-- Over received bytes a turn of the loop does not read from the client. -/
theorem httpProcessRequestLine_ready (r : HttpRequest) {b : OsBuf} (bytes : b.pos < b.last)
    (recv : Recv) :
    httpProcessRequestLine r b recv = afterParse (httpParseRequestLine r b) := by
  simp only [httpProcessRequestLine, httpReadRequestHeader, if_pos bytes]
  rfl

/-- Otherwise it first appends what the client sent. -/
theorem httpProcessRequestLine_data (r : HttpRequest) {b : OsBuf} (used : ¬ b.pos < b.last)
    {chunk : List UInt8} (nonempty : chunk ≠ []) :
    httpProcessRequestLine r b (.data chunk) =
      afterParse (httpParseRequestLine r (b.append chunk)) := by
  obtain ⟨ch, tail, rfl⟩ := List.exists_cons_of_ne_nil nonempty
  simp only [httpProcessRequestLine, httpReadRequestHeader, if_neg used]
  rfl

/-! ## `http_wait_request_handler` -/

/-- `MAX_REQUEST_LINE_SIZE` -/
def maxRequestLineSize : Nat := 1024

/-- `http_wait_request_handler` up to its call of `http_process_request_line`. -/
def httpWaitRequestHandler (recv : Recv) : HttpRequest × OsBuf × Phase :=
  let b := OsBuf.zeroed maxRequestLineSize
  match recv with
  | .again => (.fresh, b, .waiting)
  | .data [] => (.fresh, b, .judged .closed)
  | .data chunk => (.fresh, b.append chunk, .reading)

/-! ## The connection -/

/-- A connection: the bytes `os_recv` has not delivered yet, and what the handlers keep. -/
structure Conn where
  stream : List UInt8
  r : HttpRequest
  b : OsBuf
  phase : Phase

/-- A connection whose client is going to send `stream`. -/
def Conn.initial (stream : List UInt8) : Conn :=
  ⟨stream, .fresh, .zeroed maxRequestLineSize, .waiting⟩

/-- `os_recv` with `room` bytes to write to delivers the first bytes of `stream`, in order; it
returns 0 when it has no room or when the client closed after its last byte. -/
inductive Delivers (stream : List UInt8) (room : Nat) : Recv → List UInt8 → Prop
  | again : Delivers stream room .again stream
  | nothing (stuck : room = 0 ∨ stream = []) : Delivers stream room (.data []) stream
  | some {chunk rest : List UInt8} (split : stream = chunk ++ rest) (nonempty : chunk ≠ [])
      (fits : chunk.length ≤ room) : Delivers stream room (.data chunk) rest

/-- One call of `os_recv` and what the handler does until the next, or one turn of the loop over
bytes already received. -/
inductive Conn.Step : Conn → Conn → Prop
  | wait {stream rest : List UInt8} {r : HttpRequest} {b : OsBuf} {recv : Recv}
      (delivered : Delivers stream maxRequestLineSize recv rest) :
      Step ⟨stream, r, b, .waiting⟩
        ⟨rest, (httpWaitRequestHandler recv).1, (httpWaitRequestHandler recv).2.1,
          (httpWaitRequestHandler recv).2.2⟩
  | held {stream : List UInt8} {r : HttpRequest} {b : OsBuf} (recv : Recv)
      (bytes : b.pos < b.last) :
      Step ⟨stream, r, b, .reading⟩
        ⟨stream, (httpProcessRequestLine r b recv).1, (httpProcessRequestLine r b recv).2.1,
          (httpProcessRequestLine r b recv).2.2⟩
  | read {stream rest : List UInt8} {r : HttpRequest} {b : OsBuf} {recv : Recv}
      (empty : ¬ b.pos < b.last) (delivered : Delivers stream (b.end - b.last) recv rest) :
      Step ⟨stream, r, b, .reading⟩
        ⟨rest, (httpProcessRequestLine r b recv).1, (httpProcessRequestLine r b recv).2.1,
          (httpProcessRequestLine r b recv).2.2⟩

/-- The states a connection can reach. -/
def Conn.Reaches : Conn → Conn → Prop := Relation.ReflTransGen Conn.Step

end Http
end OstrichServer
