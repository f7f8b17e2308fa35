import OstrichServer.Http.Request

/-!
# `http_parse_request_line`

The request-line parser of `http_parse.c`: one turn of its `switch`, the `for` loop over the
received bytes, and its three exits.
-/

namespace OstrichServer
namespace Http

/-- The bit table `usual`, for a build without `OS_WIN32`. -/
def usual : List UInt32 :=
  [0xffffdbfe, 0x7fff37d6, 0xffffffff, 0xffffffff, 0xffffffff, 0xffffffff, 0xffffffff, 0xffffffff]

/-- `usual[ch >> 5] & (1 << (ch & 0x1f))` -/
def isUsual (ch : UInt8) : Bool :=
  usual.getD (ch >>> 5).toNat 0 &&& ((1 : UInt32) <<< (ch &&& 0x1f).toUInt32) ≠ 0

/-- `c = ch | 0x20; c >= 'a' && c <= 'z'` -/
def isLetter (ch : UInt8) : Bool :=
  chr 'a' ≤ ch ||| 0x20 && ch ||| 0x20 ≤ chr 'z'

/-- `ch >= '0' && ch <= '9'` -/
def isDigit (ch : UInt8) : Bool :=
  chr '0' ≤ ch && ch ≤ chr '9'

/-- The negation of `(ch < 'A' || ch > 'Z') && ch != '_'`. -/
def isMethodByte (ch : UInt8) : Bool :=
  (chr 'A' ≤ ch && ch ≤ chr 'Z') || ch == chr '_'

/-- The unreserved characters and sub-delims which `sw_host_ip_literal` lists. -/
def isLiteralMark (ch : UInt8) : Bool :=
  [chr ':', chr '-', chr '.', chr '_', chr '~', chr '!', chr '$', chr '&', chr '\'', chr '(',
    chr ')', chr '*', chr '+', chr ',', chr ';', chr '='].contains ch

/-- The `switch (p - m)` that recognises the method in the bytes `m[0]`, `m[1]`, ...; an unknown
method leaves the old value. -/
def methodCode (m : Nat → UInt8) (length : Nat) (method : UInt32) : UInt32 :=
  match length with
  | 3 =>
      if m 0 = chr 'G' ∧ m 1 = chr 'E' ∧ m 2 = chr 'T' then osHttpGet
      else if m 0 = chr 'P' ∧ m 1 = chr 'U' ∧ m 2 = chr 'T' then osHttpPut
      else method
  | 4 =>
      if m 1 = chr 'O' then
        if m 0 = chr 'P' ∧ m 2 = chr 'S' ∧ m 3 = chr 'T' then osHttpPost
        else if m 0 = chr 'C' ∧ m 2 = chr 'P' ∧ m 3 = chr 'Y' then osHttpCopy
        else if m 0 = chr 'M' ∧ m 2 = chr 'V' ∧ m 3 = chr 'E' then osHttpMove
        else if m 0 = chr 'L' ∧ m 2 = chr 'C' ∧ m 3 = chr 'K' then osHttpLock
        else method
      else if m 0 = chr 'H' ∧ m 1 = chr 'E' ∧ m 2 = chr 'A' ∧ m 3 = chr 'D' then osHttpHead
      else method
  | 5 =>
      if m 0 = chr 'M' ∧ m 1 = chr 'K' ∧ m 2 = chr 'C' ∧ m 3 = chr 'O' ∧ m 4 = chr 'L' then
        osHttpMkcol
      else if m 0 = chr 'P' ∧ m 1 = chr 'A' ∧ m 2 = chr 'T' ∧ m 3 = chr 'C' ∧ m 4 = chr 'H' then
        osHttpPatch
      else if m 0 = chr 'T' ∧ m 1 = chr 'R' ∧ m 2 = chr 'A' ∧ m 3 = chr 'C' ∧ m 4 = chr 'E' then
        osHttpTrace
      else method
  | 6 =>
      if m 0 = chr 'D' ∧ m 1 = chr 'E' ∧ m 2 = chr 'L' ∧ m 3 = chr 'E' ∧ m 4 = chr 'T' ∧
          m 5 = chr 'E' then osHttpDelete
      else if m 0 = chr 'U' ∧ m 1 = chr 'N' ∧ m 2 = chr 'L' ∧ m 3 = chr 'O' ∧ m 4 = chr 'C' ∧
          m 5 = chr 'K' then osHttpUnlock
      else method
  | 7 =>
      if m 0 = chr 'O' ∧ m 1 = chr 'P' ∧ m 2 = chr 'T' ∧ m 3 = chr 'I' ∧ m 4 = chr 'O' ∧
          m 5 = chr 'N' ∧ m 6 = chr 'S' then osHttpOptions
      else method
  | 8 =>
      if m 0 = chr 'P' ∧ m 1 = chr 'R' ∧ m 2 = chr 'O' ∧ m 3 = chr 'P' ∧ m 4 = chr 'F' ∧
          m 5 = chr 'I' ∧ m 6 = chr 'N' ∧ m 7 = chr 'D' then osHttpPropfind
      else method
  | 9 =>
      if m 0 = chr 'P' ∧ m 1 = chr 'R' ∧ m 2 = chr 'O' ∧ m 3 = chr 'P' ∧ m 4 = chr 'P' ∧
          m 5 = chr 'A' ∧ m 6 = chr 'T' ∧ m 7 = chr 'C' ∧ m 8 = chr 'H' then osHttpProppatch
      else method
  | _ => method

/-- The method that `m = r->request_start` leads to, where the byte after it is at `p`. From a null
`m` to `p` it is farther than any method is long. -/
def recognizedMethod (b : OsBuf) (p : Nat) (r : HttpRequest) : UInt32 :=
  match r.requestStart with
  | none => r.method
  | some m => methodCode (fun i => b.byte (m + i)) (p - m) r.method

/-- How one turn of the `switch` ends. -/
inductive LineMove
  /-- `break`: the loop goes on with the next byte. -/
  | next (state : LineState) (r : HttpRequest)
  /-- `p--; break`: the loop examines the same byte again. -/
  | back (state : LineState) (r : HttpRequest)
  /-- `return` of an error code. -/
  | fail (code : LineCode) (r : HttpRequest)
  /-- `goto done` -/
  | done (r : HttpRequest)
  deriving DecidableEq

/-- The label `sw_host_end`, which `sw_host` falls through to. -/
def lineHostEnd (p : Nat) (ch : UInt8) (r : HttpRequest) : LineMove :=
  let r := r.setHostEnd p
  if ch = chr ':' then .next .swPort r
  else if ch = chr '/' then .next .swAfterSlashInUri (r.setUriStart p)
  else if ch = sp then .next .swHostHttp09 r.setUriToSlash
  else .fail .invalidRequest r

/-- The label `sw_host`, which `sw_host_start` falls through to. -/
def lineHost (p : Nat) (ch : UInt8) (r : HttpRequest) : LineMove :=
  if isLetter ch then .next .swHost r
  else if isDigit ch ∨ ch = chr '.' ∨ ch = chr '-' then .next .swHost r
  else lineHostEnd p ch r

/-- One turn of `switch (state)` on the byte `ch` at `p`. -/
def lineStep (b : OsBuf) (p : Nat) (ch : UInt8) (state : LineState) (r : HttpRequest) : LineMove :=
  match state with
  | .swStart =>
      let r := r.setRequestStart p
      if ch = cr ∨ ch = lf then .next .swStart r
      else if ¬ isMethodByte ch then .fail .invalidMethod r
      else .next .swMethod r
  | .swMethod =>
      if ch = sp then
        let r := r.setMethodEnd (p - 1)
        .next .swSpacesBeforeUri (r.setMethod (recognizedMethod b p r))
      else if ¬ isMethodByte ch then .fail .invalidMethod r
      else .next .swMethod r
  | .swSpacesBeforeUri =>
      if ch = chr '/' then .next .swAfterSlashInUri (r.setUriStart p)
      else if isLetter ch then .next .swSchema (r.setSchemaStart p)
      else if ch = sp then .next .swSpacesBeforeUri r
      else .fail .invalidRequest r
  | .swSchema =>
      if isLetter ch then .next .swSchema r
      else if ch = chr ':' then .next .swSchemaSlash (r.setSchemaEnd p)
      else .fail .invalidRequest r
  | .swSchemaSlash =>
      if ch = chr '/' then .next .swSchemaSlashSlash r else .fail .invalidRequest r
  | .swSchemaSlashSlash =>
      if ch = chr '/' then .next .swHostStart r else .fail .invalidRequest r
  | .swHostStart =>
      let r := r.setHostStart p
      if ch = chr '[' then .next .swHostIpLiteral r
      else lineHost p ch r
  | .swHost => lineHost p ch r
  | .swHostEnd => lineHostEnd p ch r
  | .swHostIpLiteral =>
      if isDigit ch then .next .swHostIpLiteral r
      else if isLetter ch then .next .swHostIpLiteral r
      else if ch = chr ']' then .next .swHostEnd r
      else if isLiteralMark ch then .next .swHostIpLiteral r
      else .fail .invalidRequest r
  | .swPort =>
      if isDigit ch then .next .swPort r
      else if ch = chr '/' then .next .swAfterSlashInUri ((r.setPortEnd p).setUriStart p)
      else if ch = sp then .next .swHostHttp09 (r.setPortEnd p).setUriToSlash
      else .fail .invalidRequest r
  | .swHostHttp09 =>
      if ch = sp then .next .swHostHttp09 r
      else if ch = cr then .next .swAlmostDone (r.setHttpMinor 9)
      else if ch = lf then .done (r.setHttpMinor 9)
      else if ch = chr 'H' then .next .swHttpH (r.setHttpProtocolData p)
      else .fail .invalidRequest r
  | .swAfterSlashInUri =>
      if isUsual ch then .next .swCheckUri r
      else if ch = sp then .next .swCheckUriHttp09 (r.setUriEnd p)
      else if ch = cr then .next .swAlmostDone ((r.setUriEnd p).setHttpMinor 9)
      else if ch = lf then .done ((r.setUriEnd p).setHttpMinor 9)
      else if ch = chr '.' then .next .swUri r.setComplexUri
      else if ch = chr '%' then .next .swUri r.setQuotedUri
      else if ch = chr '/' then .next .swUri r.setComplexUri
      else if ch = chr '?' then .next .swUri (r.setArgsStart (p + 1))
      else if ch = chr '#' then .next .swUri r.setComplexUri
      else if ch = chr '+' then .next .swAfterSlashInUri r.setPlusInUri
      else if ch = 0 then .fail .invalidRequest r
      else .next .swCheckUri r
  | .swCheckUri =>
      if isUsual ch then .next .swCheckUri r
      else if ch = chr '/' then .next .swAfterSlashInUri (r.setUriExt none)
      else if ch = chr '.' then .next .swCheckUri (r.setUriExt (some (p + 1)))
      else if ch = sp then .next .swCheckUriHttp09 (r.setUriEnd p)
      else if ch = cr then .next .swAlmostDone ((r.setUriEnd p).setHttpMinor 9)
      else if ch = lf then .done ((r.setUriEnd p).setHttpMinor 9)
      else if ch = chr '%' then .next .swUri r.setQuotedUri
      else if ch = chr '?' then .next .swUri (r.setArgsStart (p + 1))
      else if ch = chr '#' then .next .swUri r.setComplexUri
      else if ch = chr '+' then .next .swCheckUri r.setPlusInUri
      else if ch = 0 then .fail .invalidRequest r
      else .next .swCheckUri r
  | .swCheckUriHttp09 =>
      if ch = sp then .next .swCheckUriHttp09 r
      else if ch = cr then .next .swAlmostDone (r.setHttpMinor 9)
      else if ch = lf then .done (r.setHttpMinor 9)
      else if ch = chr 'H' then .next .swHttpH (r.setHttpProtocolData p)
      else .back .swCheckUri r.setSpaceInUri
  | .swUri =>
      if isUsual ch then .next .swUri r
      else if ch = sp then .next .swHttp09 (r.setUriEnd p)
      else if ch = cr then .next .swAlmostDone ((r.setUriEnd p).setHttpMinor 9)
      else if ch = lf then .done ((r.setUriEnd p).setHttpMinor 9)
      else if ch = chr '#' then .next .swUri r.setComplexUri
      else if ch = 0 then .fail .invalidRequest r
      else .next .swUri r
  | .swHttp09 =>
      if ch = sp then .next .swHttp09 r
      else if ch = cr then .next .swAlmostDone (r.setHttpMinor 9)
      else if ch = lf then .done (r.setHttpMinor 9)
      else if ch = chr 'H' then .next .swHttpH (r.setHttpProtocolData p)
      else .back .swUri r.setSpaceInUri
  | .swHttpH => if ch = chr 'T' then .next .swHttpHT r else .fail .invalidRequest r
  | .swHttpHT => if ch = chr 'T' then .next .swHttpHTT r else .fail .invalidRequest r
  | .swHttpHTT => if ch = chr 'P' then .next .swHttpHTTP r else .fail .invalidRequest r
  | .swHttpHTTP => if ch = chr '/' then .next .swFirstMajorDigit r else .fail .invalidRequest r
  | .swFirstMajorDigit =>
      if ch < chr '1' ∨ chr '9' < ch then .fail .invalidRequest r
      else .next .swMajorDigit (r.setHttpMajor (ch.toUInt16 - 48))
  | .swMajorDigit =>
      if ch = chr '.' then .next .swFirstMinorDigit r
      else if ¬ isDigit ch then .fail .invalidRequest r
      else .next .swMajorDigit (r.setHttpMajor (r.httpMajor * 10 + ch.toUInt16 - 48))
  | .swFirstMinorDigit =>
      if ¬ isDigit ch then .fail .invalidRequest r
      else .next .swMinorDigit (r.setHttpMinor (ch.toUInt16 - 48))
  | .swMinorDigit =>
      if ch = cr then .next .swAlmostDone r
      else if ch = lf then .done r
      else if ch = sp then .next .swSpacesAfterDigit r
      else if ¬ isDigit ch then .fail .invalidRequest r
      else .next .swMinorDigit (r.setHttpMinor (r.httpMinor * 10 + ch.toUInt16 - 48))
  | .swSpacesAfterDigit =>
      if ch = sp then .next .swSpacesAfterDigit r
      else if ch = cr then .next .swAlmostDone r
      else if ch = lf then .done r
      else .fail .invalidRequest r
  | .swAlmostDone =>
      let r := r.setRequestEnd (p - 1)
      if ch = lf then .done r else .fail .invalidRequest r

/-- The two states that look ahead after a run of spaces and may step back. -/
def LineState.looksAhead : LineState → Bool
  | .swCheckUriHttp09 | .swHttp09 => true
  | _ => false

/-- Each way to end a turn meets its own condition. -/
def LineMove.Ensures (next back : LineState → HttpRequest → Prop)
    (fail : LineCode → HttpRequest → Prop) (done : HttpRequest → Prop) : LineMove → Prop
  | .next state r => next state r
  | .back state r => back state r
  | .fail code r => fail code r
  | .done r => done r

/-- Only a look-ahead state steps back, and never into a look-ahead state. -/
theorem lineStep_ensures_back (b : OsBuf) (p : Nat) (ch : UInt8) (state : LineState)
    (r : HttpRequest) :
    (lineStep b p ch state r).Ensures (fun _ _ => True)
      (fun state' _ => state.looksAhead = true ∧ state'.looksAhead = false)
      (fun _ _ => True) (fun _ => True) := by
  cases state <;> simp only [lineStep, lineHost, lineHostEnd] <;>
    (repeat' refine iteInduction (fun _ => ?_) (fun _ => ?_)) <;> trivial

theorem lineStep_back {b : OsBuf} {p : Nat} {ch : UInt8} {state state' : LineState}
    {r r' : HttpRequest} (step : lineStep b p ch state r = .back state' r') :
    state.looksAhead = true ∧ state'.looksAhead = false := by
  have ensures := lineStep_ensures_back b p ch state r
  rwa [step] at ensures

/-- How the `for` loop is left. -/
inductive LineExit
  | again (p : Nat) (state : LineState) (r : HttpRequest)
  | fail (code : LineCode) (r : HttpRequest)
  | done (p : Nat) (r : HttpRequest)

/-- The `for` loop from `p` in a parser state. -/
def lineLoop (b : OsBuf) (p : Nat) (state : LineState) (r : HttpRequest) : LineExit :=
  if _inside : p < b.last then
    match _step : lineStep b p (b.byte p) state r with
    | .next state r => lineLoop b (p + 1) state r
    | .back state r => lineLoop b p state r
    | .fail code r => .fail code r
    | .done r => .done p r
  else .again p state r
termination_by (b.last - p, state.looksAhead.toNat)
decreasing_by
  · exact .left _ _ (by omega)
  · obtain ⟨ahead, behind⟩ := lineStep_back _step
    exact .right _ (by simp [ahead, behind])

/-- `r->request_end` at the label `done`, where the loop stands on the byte at `p`. -/
def lineDone (p : Nat) (r : HttpRequest) : HttpRequest :=
  { r with
    requestEnd := some (r.requestEnd.getD p)
    httpVersion := r.httpMajor.toUInt32 * 1000 + r.httpMinor.toUInt32
    state := .swStart }

/-- The return value at the label `done`. -/
def doneCode (r : HttpRequest) : LineCode :=
  if r.httpVersion = 9 ∧ r.method ≠ osHttpGet then .invalid09Method else .osOk

/-- `http_parse_request_line`: the return code with the request and the buffer it leaves. -/
def httpParseRequestLine (r : HttpRequest) (b : OsBuf) : LineCode × HttpRequest × OsBuf :=
  match lineLoop b b.pos r.state r with
  | .again p state r => (.osAgain, r.setState state, { b with pos := p })
  | .fail code r => (code, r, b)
  | .done p r =>
      let r := lineDone p r
      (doneCode r, r, { b with pos := p + 1 })

end Http
end OstrichServer
