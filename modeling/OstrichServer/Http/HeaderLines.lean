import OstrichServer.Foundations.RecordLayout
import OstrichServer.Http.Request
import OstrichServer.Strings.Search

/-!
# The header handlers of `http.c`

`http_headers` maps header names to offsets in `headers_in` and to handlers, which write there
through untyped pointers.  `headers_in` is words of eight bytes, laid out as the macros of a build
select its fields.
-/

namespace OstrichServer
namespace Http

open Strings

/-! ## `headers_in` -/

/-- The macros that select fields and headers. -/
structure Build where
  gzip : Bool
  xForwardedFor : Bool
  realip : Bool
  headers : Bool
  dav : Bool

/-- The fields of `http_request_headers_in` before the bit fields. -/
inductive HeaderField
  | host | connection | ifModifiedSince | ifUnmodifiedSince | ifMatch | ifNoneMatch | userAgent
  | referer | contentLength | contentType | range | ifRange | transferEncoding | expect | upgrade
  | acceptEncoding | via | authorization | keepAlive | xForwardedFor | xRealIp | accept
  | acceptLanguage | depth | destination | overwrite | date | cookies
  deriving DecidableEq

/-- The number of words of a field, a pointer or an `http_header_array`. -/
def HeaderField.size : HeaderField → Nat
  | .xForwardedFor | .cookies => 2
  | _ => 1

/-- A declaration or table row under `#if`. -/
def onlyIf {α : Type} (defined : Bool) (rows : List α) : List α := if defined then rows else []

/-- The fields of a build, in the order of their declarations. -/
def headerFields (build : Build) : List HeaderField :=
  List.flatten [
    [.host, .connection, .ifModifiedSince, .ifUnmodifiedSince, .ifMatch, .ifNoneMatch, .userAgent,
      .referer, .contentLength, .contentType, .range, .ifRange, .transferEncoding, .expect,
      .upgrade],
    onlyIf build.gzip [.acceptEncoding, .via],
    [.authorization, .keepAlive],
    onlyIf build.xForwardedFor [.xForwardedFor],
    onlyIf build.realip [.xRealIp],
    onlyIf build.headers [.accept, .acceptLanguage],
    onlyIf build.dav [.depth, .destination, .overwrite, .date],
    [.cookies]]

/-- `offsetof(http_request_headers_in, field)`, in bytes. -/
def offsetof (build : Build) (field : HeaderField) : Nat :=
  8 * RecordLayout.offset HeaderField.size field (headerFields build)

/-- An `http_header` at a non-null address; a NUL follows the bytes of its value. -/
structure HttpHeader where
  address : UInt64
  value : List UInt8
  deriving DecidableEq

/-- What a word holds: zero (`NULL` as a pointer), a header, or the parts of an `http_header_array`,
with the pointers in the memory `elts` refers to. -/
inductive HeaderWord
  | zero
  | header (h : HttpHeader)
  | nelts (count : Int32)
  | elts (lines : List HttpHeader)
  deriving DecidableEq

/-- A word as an `int`. -/
def HeaderWord.count : HeaderWord → Int32
  | .nelts count => count
  | _ => 0

/-- The pointers a word refers to as an `http_header **`. -/
def HeaderWord.lines : HeaderWord → List HttpHeader
  | .elts lines => lines
  | _ => []

/-- The bit fields that `http_process_user_agent` sets. -/
structure Browser where
  msie : Bool
  msie6 : Bool
  opera : Bool
  gecko : Bool
  chrome : Bool
  safari : Bool
  konqueror : Bool

/-- The bit field `connection_type`. -/
inductive ConnectionType
  | unset
  | close
  | keepAlive
  deriving DecidableEq

/-- `http_request_headers_in` -/
structure HeadersIn where
  words : Nat → HeaderWord
  connectionType : ConnectionType
  browser : Browser

namespace HeadersIn

/-- `headers_in` as `os_calloc` leaves it. -/
def zeroed : HeadersIn where
  words _ := .zero
  connectionType := .unset
  browser := ⟨false, false, false, false, false, false, false⟩

/-- The word at an offset in bytes. -/
def load (r : HeadersIn) (offset : Nat) : HeaderWord := r.words (offset / 8)

/-- Writing the word at an offset in bytes. -/
def store (r : HeadersIn) (offset : Nat) (word : HeaderWord) : HeadersIn :=
  { r with words := Function.update r.words (offset / 8) word }

end HeadersIn

/-! ## Handlers -/

def osOk : Int := 0

/-- `os_strstrn` on a header's value. -/
def valueSearch (value : List UInt8) (pattern : String) : Option Nat :=
  (osStrstrn (value ++ [0]) (pattern.toList.map chr ++ [0]) (pattern.length - 1)).join

/-- `os_strcasestrn` on a header's value. -/
def valueCaseSearch (value : List UInt8) (pattern : String) : Option Nat :=
  (osStrcasestrn (value ++ [0]) (pattern.toList.map chr ++ [0]) (pattern.length - 1)).join

section Handlers

variable (build : Build) (r : HeadersIn) (h : HttpHeader) (offset : Nat)

/-- `http_process_unique_header_line` -/
def httpProcessUniqueHeaderLine : HeadersIn × Int := (r.store offset (.header h), osOk)

/-- `http_process_connection` -/
def httpProcessConnection : HeadersIn × Int :=
  if (valueCaseSearch h.value "close").isSome then ({ r with connectionType := .close }, osOk)
  else if (valueCaseSearch h.value "keep-alive").isSome then
    ({ r with connectionType := .keepAlive }, osOk)
  else (r, osOk)

/-- The block of `http_process_user_agent` for `"MSIE "` at position `msie`. -/
def setMsie (userAgent : List UInt8) (msie : Nat) (b : Browser) : Browser :=
  let b := { b with msie := true }
  if (userAgent ++ [0])[msie + 6]? = some (chr '.') then
    let version := (userAgent ++ [0])[msie + 5]?
    if version = some (chr '4') ∨ version = some (chr '5') then { b with msie6 := true }
    else if version = some (chr '6') then
      if valueSearch (userAgent.drop (msie + 8)) "SV1" = none then { b with msie6 := true } else b
    else b
  else b

/-- The bit fields that `http_process_user_agent` sets for a value. -/
def setBrowser (userAgent : List UInt8) (b : Browser) : Browser :=
  let b :=
    match valueSearch userAgent "MSIE " with
    | none => b
    | some msie => if msie + 7 < userAgent.length then setMsie userAgent msie b else b
  let b :=
    if (valueSearch userAgent "Opera").isSome then
      { b with opera := true, msie := false, msie6 := false }
    else b
  if b.msie = false ∧ b.opera = false then
    if (valueSearch userAgent "Gecko/").isSome then { b with gecko := true }
    else if (valueSearch userAgent "Chrome/").isSome then { b with chrome := true }
    else if (valueSearch userAgent "Safari/").isSome ∧
        (valueSearch userAgent "Mac OS X").isSome then
      { b with safari := true }
    else if (valueSearch userAgent "Konqueror").isSome then { b with konqueror := true }
    else b
  else b

/-- `http_process_user_agent`, which goes to its field by name and not by `offset`. -/
def httpProcessUserAgent : HeadersIn × Int :=
  if r.load (offsetof build .userAgent) ≠ .zero then (r, osOk)
  else
    let r := r.store (offsetof build .userAgent) (.header h)
    ({ r with browser := setBrowser h.value r.browser }, osOk)

/-- `http_process_header_line` -/
def httpProcessHeaderLine : HeadersIn × Int :=
  if r.load offset = .zero then (r.store offset (.header h), osOk) else (r, osOk)

/-- `TAB_INIT(headers->nelts, headers->elts)` -/
def tabInit : HeadersIn := (r.store offset .zero).store (offset + 8) .zero

/-- `TAB_APPEND(headers->nelts, headers->elts, h)`; the count is an `int`, and what follows is not
defined when it overflows. -/
def tabAppend : HeadersIn :=
  let nelts := (r.load offset).count
  -- os_realloc keeps the elements there were, os_malloc has none
  let kept := if nelts > 0 then (r.load (offset + 8)).lines.take nelts.toNatClampNeg else []
  (r.store (offset + 8) (.elts (kept ++ [h]))).store offset (.nelts (nelts + 1))

/-- `http_process_multi_header_lines` -/
def httpProcessMultiHeaderLines : HeadersIn × Int :=
  let r := if r.load (offset + 8) = .zero then tabInit r offset else r
  (tabAppend r h offset, osOk)

end Handlers

/-! ## `http_headers` -/

/-- The functions in the column `header_parser`. -/
inductive HeaderParser
  | uniqueHeaderLine
  | connection
  | userAgent
  | headerLine
  | multiHeaderLines
  deriving DecidableEq

/-- Calling a handler. -/
def HeaderParser.run (build : Build) : HeaderParser → HeadersIn → HttpHeader → Nat → HeadersIn × Int
  | .uniqueHeaderLine => httpProcessUniqueHeaderLine
  | .connection => fun r h _ => httpProcessConnection r h
  | .userAgent => fun r h _ => httpProcessUserAgent build r h
  | .headerLine => httpProcessHeaderLine
  | .multiHeaderLines => httpProcessMultiHeaderLines

/-- `http_header_meta`, with the field that `offset` is the offset of. -/
structure HeaderMeta where
  name : String
  field : HeaderField
  headerParser : HeaderParser
  deriving DecidableEq

/-- `http_headers`, without the row that ends it. -/
def httpHeaders (build : Build) : List HeaderMeta :=
  List.flatten [
    [⟨"Host", .host, .uniqueHeaderLine⟩,
      ⟨"Connection", .connection, .connection⟩,
      ⟨"If-Modified-Since", .ifModifiedSince, .uniqueHeaderLine⟩,
      ⟨"If-Unmodified-Since", .ifUnmodifiedSince, .uniqueHeaderLine⟩,
      ⟨"If-Match", .ifMatch, .uniqueHeaderLine⟩,
      ⟨"If-None-Match", .ifNoneMatch, .uniqueHeaderLine⟩,
      ⟨"User-Agent", .userAgent, .userAgent⟩,
      ⟨"Referer", .referer, .headerLine⟩,
      ⟨"Content-Length", .contentLength, .uniqueHeaderLine⟩,
      ⟨"Content-Type", .contentType, .headerLine⟩,
      ⟨"Range", .range, .headerLine⟩,
      ⟨"If-Range", .ifRange, .uniqueHeaderLine⟩,
      ⟨"Transfer-Encoding", .transferEncoding, .headerLine⟩,
      ⟨"Expect", .expect, .uniqueHeaderLine⟩,
      ⟨"Upgrade", .upgrade, .headerLine⟩],
    onlyIf build.gzip
      [⟨"Accept-Encoding", .acceptEncoding, .headerLine⟩,
        ⟨"Via", .via, .headerLine⟩],
    [⟨"Authorization", .authorization, .uniqueHeaderLine⟩,
      ⟨"Keep-Alive", .keepAlive, .headerLine⟩],
    onlyIf build.xForwardedFor [⟨"X-Forwarded-For", .xForwardedFor, .multiHeaderLines⟩],
    onlyIf build.realip [⟨"X-Real-IP", .xRealIp, .headerLine⟩],
    onlyIf build.headers
      [⟨"Accept", .accept, .headerLine⟩,
        ⟨"Accept-Language", .acceptLanguage, .headerLine⟩],
    onlyIf build.dav
      [⟨"Depth", .depth, .headerLine⟩,
        ⟨"Destination", .destination, .headerLine⟩,
        ⟨"Overwrite", .overwrite, .headerLine⟩,
        ⟨"Date", .date, .headerLine⟩],
    [⟨"Cookie", .cookies, .multiHeaderLines⟩]]

/-- A header line with the row of the table for its name. -/
structure HeaderLine (build : Build) where
  entry : HeaderMeta
  listed : entry ∈ httpHeaders build
  header : HttpHeader

/-- A line given to its handler. -/
def processLine {build : Build} (r : HeadersIn) (line : HeaderLine build) : HeadersIn × Int :=
  line.entry.headerParser.run build r line.header (offsetof build line.entry.field)

/-- Lines in the order they arrive. -/
def processLines {build : Build} (lines : List (HeaderLine build)) : HeadersIn :=
  lines.foldl (fun r line => (processLine r line).1) .zeroed

section Values

variable (value : List UInt8) {pattern : String} (plain : 0 ∉ pattern.toList.map chr)
  (nonempty : pattern.toList.map chr ≠ [])
include plain nonempty

/-- `os_strstrn` reads nothing after the NUL of a value. -/
theorem osStrstrn_value :
    osStrstrn (value ++ [0]) (pattern.toList.map chr ++ [0]) (pattern.length - 1) =
      some (valueSearch value pattern) := by
  have terminated : 0 ∈ value ++ [0] := List.mem_append_right value List.mem_cons_self
  obtain ⟨answer, found⟩ := exists_osStrstrn terminated plain nonempty
  rw [List.length_map, String.length_toList] at found
  rw [valueSearch, found, Option.join_some]

/-- `os_strcasestrn` reads nothing after the NUL of a value. -/
theorem osStrcasestrn_value (ascii : ∀ c ∈ pattern.toList.map chr, c < 128) :
    osStrcasestrn (value ++ [0]) (pattern.toList.map chr ++ [0]) (pattern.length - 1) =
      some (valueCaseSearch value pattern) := by
  have terminated : 0 ∈ value ++ [0] := List.mem_append_right value List.mem_cons_self
  obtain ⟨answer, found⟩ := exists_osStrcasestrn terminated plain nonempty ascii
  rw [List.length_map, String.length_toList] at found
  rw [valueCaseSearch, found, Option.join_some]

end Values

/-! ## The table and the layout -/

section Layout

variable {build : Build}

theorem httpHeaders_map_field (build : Build) :
    (httpHeaders build).map HeaderMeta.field = headerFields build := by
  obtain ⟨gzip, xForwardedFor, realip, headers, dav⟩ := build
  cases gzip <;> cases xForwardedFor <;> cases realip <;> cases headers <;> cases dav <;> rfl

private theorem httpHeaders_facts : ∀ gzip xForwardedFor realip headers dav : Bool,
    ((httpHeaders ⟨gzip, xForwardedFor, realip, headers, dav⟩).map HeaderMeta.name).Nodup ∧
    ((httpHeaders ⟨gzip, xForwardedFor, realip, headers, dav⟩).map HeaderMeta.field).Nodup ∧
    ∀ entry ∈ httpHeaders ⟨gzip, xForwardedFor, realip, headers, dav⟩,
      (entry.headerParser = .userAgent → entry.field = .userAgent) ∧
      (entry.headerParser = .multiHeaderLines ↔ entry.field.size = 2) := by
  decide +kernel

variable {entry other : HeaderMeta} (listed : entry ∈ httpHeaders build)
include listed

theorem name_inj (other_listed : other ∈ httpHeaders build) :
    entry.name = other.name ↔ entry = other := by
  obtain ⟨distinct, _⟩ := httpHeaders_facts build.gzip build.xForwardedFor build.realip
    build.headers build.dav
  exact ⟨fun same => List.inj_on_of_nodup_map distinct listed other_listed same,
    congrArg HeaderMeta.name⟩

theorem field_inj (other_listed : other ∈ httpHeaders build) :
    entry.field = other.field ↔ entry = other := by
  obtain ⟨_, distinct, _⟩ := httpHeaders_facts build.gzip build.xForwardedFor build.realip
    build.headers build.dav
  exact ⟨fun same => List.inj_on_of_nodup_map distinct listed other_listed same,
    congrArg HeaderMeta.field⟩

theorem field_of_userAgent (parser : entry.headerParser = .userAgent) : entry.field = .userAgent :=
  ((httpHeaders_facts _ _ _ _ _).2.2 entry listed).1 parser

/-- The arrays are the fields with the handler that appends. -/
theorem size_eq_two_iff : entry.headerParser = .multiHeaderLines ↔ entry.field.size = 2 :=
  ((httpHeaders_facts _ _ _ _ _).2.2 entry listed).2

theorem field_mem : entry.field ∈ headerFields build := by
  rw [← httpHeaders_map_field]
  exact List.mem_map_of_mem listed

end Layout

end Http
end OstrichServer
