import OstrichServer.Foundations.TransitionSystem
import OstrichServer.Http.LoopTurns
import OstrichServer.Http.RequestHandler

/-!
# Calls of the request-line parser

A call of `http_parse_request_line` makes at most two turns a byte, reads inside the buffer and
leaves its pointers in order.  So they stay in order while `http_process_request_line` goes round
its loop, whatever `os_recv` returns.
-/

namespace OstrichServer
namespace Http

/-! ## One call -/

/-- The turns of a call of `http_parse_request_line`. -/
def callTurns (r : HttpRequest) (b : OsBuf) : List LineConfig := lineTurns b b.pos r.state r

section Call

variable {b : OsBuf} (wf : b.WellFormed)

/-- An exit of the loop leaves `p` inside the buffer. -/
def LineExit.Inside (b : OsBuf) : LineExit → Prop
  | .again p _ _ => p ≤ b.last
  | .fail _ _ => True
  | .done p _ => p < b.last

theorem lineLoop_inside (p : Nat) (state : LineState) (r : HttpRequest) (start : p ≤ b.last) :
    (lineLoop b p state r).Inside b := by
  fun_induction lineLoop b p state r with
  | case1 p state r inside state' r' step induction => exact induction inside
  | case2 p state r inside state' r' step induction => exact induction start
  | case3 => trivial
  | case4 p state r inside r' step => exact inside
  | case5 p state r outside => exact start

include wf in
/-- A call leaves the block and `last` alone, and moves `pos` to `last` at most. -/
theorem httpParseRequestLine_wellFormed (r : HttpRequest) :
    (httpParseRequestLine r b).2.2.WellFormed := by
  have inside := lineLoop_inside b.pos r.state r wf.pos_le
  rw [httpParseRequestLine]
  cases out : lineLoop b b.pos r.state r with
  | again p state r' =>
      rw [out] at inside
      exact ⟨inside, wf.last_le, wf.size⟩
  | fail code r' => exact wf
  | done p r' =>
      rw [out] at inside
      exact ⟨inside, wf.last_le, wf.size⟩

/-- What is required of a call of `http_parse_request_line`. -/
structure BoundedCall (r : HttpRequest) (b : OsBuf) : Prop where
  /-- The loop is left after two rounds a byte and one more, whatever happens. -/
  terminates : ∀ fuel > 2 * (b.last - b.pos),
    Loop.run (lineRound b) fuel ⟨b.pos, r.state, r⟩ = some (lineLoop b b.pos r.state r)
  /-- The bytes that the loop examines are those given to the call. -/
  examined : ∀ turn ∈ callTurns r b, b.pos ≤ turn.p ∧ turn.p < b.last
  twice : ∀ q, (callTurns r b).countP (fun turn => turn.p = q) ≤ 2
  /-- The method is read from `request_start` on and below `p`. -/
  methodReads : ∀ turn ∈ callTurns r b, ∀ q ∈ turn.methodReads b,
    ∃ start, turn.r.requestStart = some start ∧ start ≤ q ∧ q < turn.p
  /-- No other byte is read: the call does the same over any buffer that agrees on these. -/
  readsOnly : ∀ b' : OsBuf, b'.pos = b.pos → b'.last = b.last →
    (∀ turn ∈ callTurns r b, ∀ q ∈ turn.reads b, b.byte q = b'.byte q) →
    (httpParseRequestLine r b').1 = (httpParseRequestLine r b).1 ∧
      (httpParseRequestLine r b').2.1 = (httpParseRequestLine r b).2.1 ∧
      (httpParseRequestLine r b').2.2.pos = (httpParseRequestLine r b).2.2.pos
  /-- The pointers are left in order, inside the same block. -/
  wellFormed : (httpParseRequestLine r b).2.2.WellFormed
  block : (httpParseRequestLine r b).2.2.mem = b.mem

theorem httpParseRequestLine_mem (r : HttpRequest) (b : OsBuf) :
    (httpParseRequestLine r b).2.2.mem = b.mem := by
  rw [httpParseRequestLine]
  cases lineLoop b b.pos r.state r with
  | again | fail | done => rfl

theorem httpParseRequestLine_readsOnly (r : HttpRequest) {b' : OsBuf} (pos : b'.pos = b.pos)
    (last : b'.last = b.last)
    (same : ∀ turn ∈ callTurns r b, ∀ q ∈ turn.reads b, b.byte q = b'.byte q) :
    (httpParseRequestLine r b').1 = (httpParseRequestLine r b).1 ∧
      (httpParseRequestLine r b').2.1 = (httpParseRequestLine r b).2.1 ∧
      (httpParseRequestLine r b').2.2.pos = (httpParseRequestLine r b).2.2.pos := by
  have loops : lineLoop b b.pos r.state r = lineLoop b' b'.pos r.state r := by
    rw [pos, ← tracedLoop_exit b, ← tracedLoop_exit b', tracedLoop_eq_of_reads last.symm same]
  rw [httpParseRequestLine, httpParseRequestLine, ← loops]
  cases lineLoop b b.pos r.state r with
  | again | done => exact ⟨rfl, rfl, rfl⟩
  | fail => exact ⟨rfl, rfl, pos⟩

include wf in
theorem boundedCall (r : HttpRequest) : BoundedCall r b where
  terminates _ enough := run_lineRound_of_lt enough r.state r
  examined := (lineTurns_sweep b b.pos r.state r).between
  twice := (lineTurns_sweep b b.pos r.state r).twice
  methodReads turn _ _ read := turn.methodReads_between read
  readsOnly _ pos last same := httpParseRequestLine_readsOnly r pos last same
  wellFormed := httpParseRequestLine_wellFormed wf r
  block := httpParseRequestLine_mem r b

end Call

/-! ## Runs of `http_process_request_line` -/

/-- Every result of a call of `os_recv`: it may also fail. -/
inductive RecvResult
  | osErr
  | returned (recv : Recv)

/-- `os_recv` writes into the space it is offered. -/
def RecvResult.Fits (room : Nat) : RecvResult → Prop
  | .returned (.data chunk) => chunk.length ≤ room
  | .returned .again | .osErr => True

/-- `http_read_request_header` over every result of `os_recv`. -/
def readRequestHeader (b : OsBuf) : RecvResult → ReadCode × OsBuf
  | .osErr => if b.pos < b.last then (.ready, b) else (.osErr, b)
  | .returned recv => httpReadRequestHeader b recv

/-- Where a thread is in `http_process_request_line`. -/
inductive HandlerPlace
  /-- Called for an event. -/
  | called
  /-- At the top of the loop, with `rc == OS_AGAIN`. -/
  | loopTop
  /-- Before the call of `http_parse_request_line`. -/
  | parsing
  | parsed (rc : LineCode)
  /-- Returned; the next event calls the function again. -/
  | returned
  /-- Returned, with `http_process_request_headers` as the handler of later events. -/
  | passedOn
  /-- Returned from `http_close_request`. -/
  | closed
  deriving DecidableEq

/-- A thread in `http_process_request_line`. -/
structure LineHandler where
  r : HttpRequest
  b : OsBuf
  place : HandlerPlace

/-- The place after `http_read_request_header`. -/
def ReadCode.place : ReadCode → HandlerPlace
  | .ready => .parsing
  | .osAgain | .osErr => .returned

/-- The place a verdict on the request line leads to. -/
def Verdict.place : Verdict → HandlerPlace
  | .processRequestHeaders => .passedOn
  | .processRequest | .reject | .closed => .returned

/-- From one call that `http_process_request_line` makes to the next. -/
inductive LineHandler.Step : LineHandler → LineHandler → Prop
  | timedOut {r : HttpRequest} {b : OsBuf} : Step ⟨r, b, .called⟩ ⟨r, b, .closed⟩
  | enter {r : HttpRequest} {b : OsBuf} : Step ⟨r, b, .called⟩ ⟨r, b, .loopTop⟩
  | read {r : HttpRequest} {b : OsBuf} {result : RecvResult} (fits : result.Fits (b.end - b.last)) :
      Step ⟨r, b, .loopTop⟩
        ⟨r, (readRequestHeader b result).2, (readRequestHeader b result).1.place⟩
  /-- `epoll_event_add` failed after `os_recv` returned `OS_AGAIN`. -/
  | unwatched {r : HttpRequest} {b : OsBuf} (empty : ¬ b.pos < b.last) :
      Step ⟨r, b, .loopTop⟩ ⟨r, b, .closed⟩
  | parse {r : HttpRequest} {b : OsBuf} :
      Step ⟨r, b, .parsing⟩
        ⟨(httpParseRequestLine r b).2.1, (httpParseRequestLine r b).2.2,
          .parsed (httpParseRequestLine r b).1⟩
  | again {r : HttpRequest} {b : OsBuf} : Step ⟨r, b, .parsed .osAgain⟩ ⟨r, b, .loopTop⟩
  | refuse {r : HttpRequest} {b : OsBuf} {rc : LineCode} (bad : rc ≠ .osOk)
      (stopped : rc ≠ .osAgain) :
      Step ⟨r, b, .parsed rc⟩ ⟨r, b, .returned⟩
  | finish {r : HttpRequest} {b : OsBuf} :
      Step ⟨r, b, .parsed .osOk⟩ ⟨(finishRequestLine r b).1, b, (finishRequestLine r b).2.place⟩
  /-- `os_malloc` failed in `http_process_request_uri` or `os_http_validate_host`, and the request
  is freed as it is by then. -/
  | unallocated {r r' : HttpRequest} {b : OsBuf} : Step ⟨r, b, .parsed .osOk⟩ ⟨r', b, .closed⟩
  | event {r : HttpRequest} {b : OsBuf} : Step ⟨r, b, .returned⟩ ⟨r, b, .called⟩

/-- The runs of `http_process_request_line` from a request and a buffer. -/
def lineHandling (r : HttpRequest) (b : OsBuf) : TransitionSystem LineHandler where
  initial h := h = ⟨r, b, .called⟩
  step := LineHandler.Step

/-- The pointers of a buffer are in order and inside the block that ends at `limit`. -/
def OsBuf.InBlock (limit : Nat) (b : OsBuf) : Prop := b.WellFormed ∧ b.end = limit

theorem httpReadRequestHeader_inBlock {limit : Nat} {b : OsBuf} (inside : b.InBlock limit)
    {recv : Recv} (fits : (RecvResult.returned recv).Fits (b.end - b.last)) :
    (httpReadRequestHeader b recv).2.InBlock limit := by
  by_cases bytes : b.pos < b.last
  · simpa only [httpReadRequestHeader, if_pos bytes] using inside
  · cases recv with
    | again => simpa only [httpReadRequestHeader, if_neg bytes] using inside
    | data chunk =>
        cases chunk with
        | nil => simpa only [httpReadRequestHeader, if_neg bytes] using inside
        | cons ch chunk =>
            simp only [httpReadRequestHeader, if_neg bytes]
            exact ⟨inside.1.append fits, inside.2⟩

theorem readRequestHeader_inBlock {limit : Nat} {b : OsBuf} (inside : b.InBlock limit)
    {result : RecvResult} (fits : result.Fits (b.end - b.last)) :
    (readRequestHeader b result).2.InBlock limit := by
  cases result with
  | osErr =>
      rw [readRequestHeader]
      split
      · exact inside
      · exact inside
  | returned recv => exact httpReadRequestHeader_inBlock inside fits

theorem httpParseRequestLine_inBlock {limit : Nat} {b : OsBuf} (inside : b.InBlock limit)
    (r : HttpRequest) : (httpParseRequestLine r b).2.2.InBlock limit := by
  have kept := httpParseRequestLine_wellFormed inside.1 r
  refine ⟨kept, ?_⟩
  rw [← kept.size, httpParseRequestLine_mem, inside.1.size]
  exact inside.2

/-- Every step keeps the pointers in order. -/
theorem LineHandler.Step.inBlock {limit : Nat} {h h' : LineHandler} (step : LineHandler.Step h h')
    (inside : h.b.InBlock limit) : h'.b.InBlock limit := by
  cases step with
  | read fits => exact readRequestHeader_inBlock inside fits
  | parse => exact httpParseRequestLine_inBlock inside _
  | timedOut | enter | unwatched | again | refuse | finish | unallocated | event => exact inside

theorem lineHandling_invariant (r : HttpRequest) {b : OsBuf} (wf : b.WellFormed) :
    (lineHandling r b).IsInvariant fun h => h.b.InBlock b.end where
  initial h start := by
    rw [start]
    exact ⟨wf, rfl⟩
  step inside step := step.inBlock inside

/-- A call of the parser is bounded and reads inside the buffer, and over every run of the handler
the pointers of the buffer stay in order. -/
theorem requestLine_bounded (r : HttpRequest) {b : OsBuf} (wf : b.WellFormed) :
    BoundedCall r b ∧
      ∀ h, (lineHandling r b).Reachable h → h.b.InBlock b.end ∧ BoundedCall h.r h.b := by
  refine ⟨boundedCall wf r, fun h reachable => ?_⟩
  have inside : h.b.InBlock b.end := (lineHandling_invariant r wf).of_reachable reachable
  exact ⟨inside, boundedCall inside.1 h.r⟩

/-- The first byte of a resumed chunk, examined twice. -/
theorem requestLine_bounded_resumed :
    let r := { HttpRequest.fresh with state := .swCheckUriHttp09 }
    let b : OsBuf := ⟨[sp, chr 'x'], 1, 2, 2⟩
    (callTurns r b).map LineConfig.p = [1, 1] ∧ BoundedCall r b ∧
      ∀ h, (lineHandling r b).Reachable h → h.b.InBlock b.end ∧ BoundedCall h.r h.b := by
  intro r b
  have back : lineStep b 1 (b.byte 1) .swCheckUriHttp09 r = .back .swCheckUri r.setSpaceInUri := by
    decide
  have next : lineStep b 1 (b.byte 1) .swCheckUri r.setSpaceInUri =
      .next .swCheckUri r.setSpaceInUri := by
    decide
  have turns : callTurns r b =
      [⟨1, .swCheckUriHttp09, r⟩, ⟨1, .swCheckUri, r.setSpaceInUri⟩] := by
    change lineTurns b 1 .swCheckUriHttp09 r = _
    rw [lineTurns_inside (by decide) back, afterTurn, tracedLoop_inside (by decide) next, afterTurn,
      tracedLoop_outside (by decide)]
  refine ⟨by rw [turns]; rfl, requestLine_bounded r ⟨?_, ?_, ?_⟩⟩ <;> decide

/-! ## Whole turns of the handler's loop -/

/-- The places where a thread can be when the handler is in a phase. -/
def Phase.places : Phase → List HandlerPlace
  | .waiting => []
  | .reading => [.loopTop, .returned]
  | .judged verdict => [verdict.place]

/-- What the loop does with the outcome of the parser is a step. -/
theorem afterParse_step (rc : LineCode) (r : HttpRequest) (b : OsBuf) :
    ∃ place ∈ (afterParse (rc, r, b)).2.2.places,
      LineHandler.Step ⟨r, b, .parsed rc⟩
        ⟨(afterParse (rc, r, b)).1, (afterParse (rc, r, b)).2.1, place⟩ := by
  cases rc with
  | osOk => exact ⟨_, List.mem_singleton_self _, .finish⟩
  | osAgain => exact ⟨.loopTop, List.mem_cons_self, .again⟩
  | invalidMethod | invalidRequest | invalid09Method =>
      exact ⟨.returned, List.mem_singleton_self _, .refuse (by decide) (by decide)⟩

/-- A turn of the loop of `http_process_request_line` is made of steps. -/
theorem httpProcessRequestLine_reaches (r : HttpRequest) (b : OsBuf) {recv : Recv}
    (fits : (RecvResult.returned recv).Fits (b.end - b.last)) :
    ∃ place ∈ (httpProcessRequestLine r b recv).2.2.places,
      Relation.ReflTransGen LineHandler.Step ⟨r, b, .loopTop⟩
        ⟨(httpProcessRequestLine r b recv).1, (httpProcessRequestLine r b recv).2.1, place⟩ := by
  have first := LineHandler.Step.read (r := r) fits
  rw [readRequestHeader] at first
  cases found : httpReadRequestHeader b recv with
  | mk code b₁ =>
      rw [found] at first
      cases code with
      | osAgain =>
          simp only [httpProcessRequestLine, found]
          exact ⟨.returned, by simp [Phase.places], .single first⟩
      | osErr =>
          simp only [httpProcessRequestLine, found]
          exact ⟨.returned, by simp [Phase.places, Verdict.place], .single first⟩
      | ready =>
          have turn : httpProcessRequestLine r b recv = afterParse (httpParseRequestLine r b₁) := by
            simp only [httpProcessRequestLine, found]
            rfl
          obtain ⟨place, member, last⟩ := afterParse_step (httpParseRequestLine r b₁).1
            (httpParseRequestLine r b₁).2.1 (httpParseRequestLine r b₁).2.2
          rw [turn]
          exact ⟨place, member, ((Relation.ReflTransGen.single first).tail .parse).tail last⟩

end Http
end OstrichServer
