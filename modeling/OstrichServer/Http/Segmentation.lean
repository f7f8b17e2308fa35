import OstrichServer.Http.RequestHandler
import OstrichServer.Http.Resume

/-!
# Request-line handling does not depend on the segmentation

Every run of the handlers follows the reader over the bytes the client sends, wherever `os_recv`
cuts them, and so the verdict and the recorded request are functions of the byte stream alone.
-/

namespace OstrichServer
namespace Http

open StoppingReader

/-! ## The host lies inside the line -/

/-- The recorded host starts and ends before `p`. -/
def HostInside (p : Nat) (r : HttpRequest) : Prop :=
  ∀ stop, r.hostEnd = some stop → ∃ start, r.hostStart = some start ∧ start ≤ stop ∧ stop ≤ p

/-- What the parser has recorded of the host before it examines the byte at `p`. -/
private def HostBounds (p : Nat) (state : LineState) (r : HttpRequest) : Prop :=
  match state with
  | .swStart | .swMethod | .swSpacesBeforeUri | .swSchema | .swSchemaSlash
  | .swSchemaSlashSlash | .swHostStart => r.hostEnd = none
  | .swHost | .swHostEnd | .swHostIpLiteral => ∃ start, r.hostStart = some start ∧ start ≤ p
  | _ => HostInside p r

private theorem lineHostEnd_hostBounds {p : Nat} {ch : UInt8} {r : HttpRequest}
    (started : ∃ start, r.hostStart = some start ∧ start ≤ p) :
    (lineHostEnd p ch r).Ensures (HostBounds (p + 1)) (HostBounds p) (fun _ _ => True)
      (HostInside (p + 1)) := by
  have ended : HostInside (p + 1) (r.setHostEnd p) := by
    rintro stop ⟨⟩
    exact started.imp fun _ here => ⟨here.1, here.2, by omega⟩
  simp only [lineHostEnd]
  repeat' refine iteInduction (fun _ => ?_) (fun _ => ?_)
  · exact ended
  · exact ended
  · exact ended
  · trivial

private theorem lineHost_hostBounds {p : Nat} {ch : UInt8} {r : HttpRequest}
    (started : ∃ start, r.hostStart = some start ∧ start ≤ p) :
    (lineHost p ch r).Ensures (HostBounds (p + 1)) (HostBounds p) (fun _ _ => True)
      (HostInside (p + 1)) := by
  have later : ∃ start, r.hostStart = some start ∧ start ≤ p + 1 :=
    started.imp fun _ here => ⟨here.1, by omega⟩
  simp only [lineHost]
  refine iteInduction (fun _ => ?_) fun _ => iteInduction (fun _ => ?_) fun _ => ?_
  · exact later
  · exact later
  · exact lineHostEnd_hostBounds started

private theorem lineStep_hostBounds (b : OsBuf) (p : Nat) (ch : UInt8) (state : LineState)
    (r : HttpRequest) (bounds : HostBounds p state r) :
    (lineStep b p ch state r).Ensures (HostBounds (p + 1)) (HostBounds p) (fun _ _ => True)
      (HostInside (p + 1)) := by
  have later : HostInside p r → HostInside (p + 1) r := by
    intro inside stop ended
    exact (inside stop ended).imp fun _ here => ⟨here.1, here.2.1, by omega⟩
  have absent : r.hostEnd = none → HostInside (p + 1) r := by
    intro none stop ended
    cases none.symm.trans ended
  cases state with
  | swHostStart =>
      simp only [lineStep]
      refine iteInduction (fun _ => ?_) (fun _ => ?_)
      · exact ⟨p, rfl, by omega⟩
      · exact lineHost_hostBounds ⟨p, rfl, le_rfl⟩
  | swHost => exact lineHost_hostBounds bounds
  | swHostEnd => exact lineHostEnd_hostBounds bounds
  | swHostIpLiteral =>
      have inside : ∃ start, r.hostStart = some start ∧ start ≤ p + 1 :=
        bounds.imp fun _ here => ⟨here.1, by omega⟩
      simp only [lineStep]
      repeat' refine iteInduction (fun _ => ?_) (fun _ => ?_)
      all_goals first | exact inside | trivial
  | _ =>
      -- no other state writes to the host pointers
      simp only [lineStep]
      repeat' refine iteInduction (fun _ => ?_) (fun _ => ?_)
      all_goals first | trivial | exact bounds | exact later bounds | exact absent bounds

/-- The host of an accepted line lies inside the line. -/
theorem run_done_hostInside {b : OsBuf} {word rest : List UInt8} {start p : Nat} {r : HttpRequest}
    (stopped : run (lineMove b) ⟨start, .swStart, .fresh⟩ word = .stopped (.done p r) rest) :
    HostInside (p + 1) r := by
  have step := fun (front : List UInt8) ch state r =>
    lineStep_hostBounds b (start + front.length) ch state r
  have initial : HostBounds start .swStart .fresh := rfl
  obtain ⟨front, position, -, inside⟩ := run_done_of_step
    (fun front => HostBounds (start + front.length))
    (fun front => HostInside (start + front.length))
    (by simpa [Nat.add_assoc] using step) initial stopped
  rwa [position]

/-! ## The verdict as a function of the stream -/

/-- The first bytes of the stream, as many as fit, in one header buffer. -/
def wholeBuf (stream : List UInt8) : OsBuf :=
  (OsBuf.zeroed maxRequestLineSize).append (stream.take maxRequestLineSize)

theorem wholeBuf_wellFormed (stream : List UInt8) : (wholeBuf stream).WellFormed :=
  (OsBuf.zeroed_wellFormed _).append (by simp [OsBuf.zeroed])

theorem wholeBuf_received (stream : List UInt8) :
    (wholeBuf stream).received = stream.take maxRequestLineSize := by
  rw [wholeBuf, (OsBuf.zeroed_wellFormed _).append_received, OsBuf.zeroed_received, List.nil_append]

/-- The reader over the first bytes of the stream, in one piece. -/
def wholeRun (stream word : List UInt8) : Outcome UInt8 LineConfig LineStop :=
  run (lineMove (wholeBuf stream)) ⟨0, .swStart, .fresh⟩ word

/-- The request and the verdict of a stream read in one piece. -/
def judge (stream : List UInt8) : HttpRequest × Verdict :=
  if stream = [] then (.fresh, .closed)
  else
    match wholeRun stream (stream.take maxRequestLineSize) with
    | .pending c => (c.r, .reject)
    | .stopped (.fail _ r) _ => (r, .reject)
    | .stopped (.done p r) _ =>
        if doneCode (lineDone p r) = .osOk then
          finishRequestLine (lineDone p r) { wholeBuf stream with pos := p + 1 }
        else (lineDone p r, .reject)

/-- A connection in `http_process_request_line` that was given the bytes `got`. -/
structure Follows (stream got : List UInt8) (c : Conn) : Prop where
  split : stream = got ++ c.stream
  nonempty : got ≠ []
  wf : c.b.WellFormed
  size : c.b.end = maxRequestLineSize
  received : c.b.received = got
  reach : wholeRun stream (got.take c.b.pos) =
    .pending ⟨c.b.pos, c.r.state, c.r.setState .swStart⟩

namespace Follows

variable {stream got : List UInt8} {c : Conn} (follows : Follows stream got c)
include follows

theorem length : got.length = c.b.last := by
  rw [← follows.received, follows.wf.received_length]

theorem length_le : got.length ≤ maxRequestLineSize := by
  rw [follows.length, ← follows.size]
  exact follows.wf.last_le

theorem exists_take : ∃ more, stream.take maxRequestLineSize = got ++ more := by
  refine ⟨c.stream.take (maxRequestLineSize - got.length), ?_⟩
  rw [follows.split, List.take_append, List.take_of_length_le follows.length_le]

/-- The buffer holds the bytes of the whole one as far as it goes. -/
theorem byte_eq {q : Nat} (inside : q < c.b.last) : c.b.byte q = (wholeBuf stream).byte q := by
  obtain ⟨more, all⟩ := follows.exists_take
  have below : q < (wholeBuf stream).last := by
    rw [← (wholeBuf_wellFormed stream).received_length, wholeBuf_received, all, List.length_append,
      follows.length]
    omega
  have left := follows.wf.byte_of_lt inside
  have right := (wholeBuf_wellFormed stream).byte_of_lt below
  rw [wholeBuf_received, all, List.getElem?_append_left (by rwa [follows.length]),
    ← follows.received, left] at right
  exact Option.some.inj right

/-- What a call of the parser does is what the reader does to the bytes of the stream. -/
theorem wholeRun_eq :
    wholeRun stream got = (lineRun c.r c.b).map (.setSaved .swStart) (.setSaved .swStart) := by
  have parts : got = got.take c.b.pos ++ c.b.pending := by
    rw [OsBuf.pending, follows.received, List.take_append_drop]
  rw [lineRun, ← run_setSaved, wholeRun]
  conv_lhs => rw [parts]
  rw [run_append_of_pending _ _ follows.reach]
  apply run_congr
  intro q below
  refine (follows.byte_eq ?_).symm
  have size : c.b.pending.length = c.b.last - c.b.pos := by
    rw [OsBuf.pending, List.length_drop, follows.wf.received_length]
  have := follows.wf.pos_le
  simp only at below
  omega

end Follows

/-! ## One step of a connection -/

/-- Host validation reads the bytes of the host only. -/
theorem hostAccepted_congr {b b' : OsBuf} {r : HttpRequest} {n : Nat} (inside : HostInside n r)
    (same : ∀ q < n, b.byte q = b'.byte q) : hostAccepted r b = hostAccepted r b' := by
  unfold hostAccepted
  cases started : r.hostStart with
  | none => rfl
  | some start =>
      cases ended : r.hostEnd with
      | none => rfl
      | some stop =>
          obtain ⟨start', here, before, below⟩ := inside stop ended
          obtain rfl : start = start' := Option.some.inj (started.symm.trans here)
          have bytes :
              b.bytes start (ptrDiff stop start) = b'.bytes start (ptrDiff stop start) := by
            refine List.map_congr_left fun i member => same _ ?_
            have less := List.mem_range.mp member
            have small : (ptrDiff stop start % 2 ^ 64).toNat ≤ stop - start := by
              simp only [ptrDiff, Option.getD_some]
              omega
            omega
          simp only [bytes]

theorem finishRequestLine_congr {b b' : OsBuf} {r : HttpRequest} {n : Nat} (pos : b.pos = b'.pos)
    (inside : HostInside n r) (same : ∀ q < n, b.byte q = b'.byte q) :
    finishRequestLine r b = finishRequestLine r b' := by
  have record : recordRequestLine r b = recordRequestLine r b' := by
    simp only [recordRequestLine, pos]
  have host : hostAccepted (httpProcessRequestUri (recordRequestLine r b')) b =
      hostAccepted (httpProcessRequestUri (recordRequestLine r b')) b' :=
    hostAccepted_congr inside same
  simp only [finishRequestLine, record, host]

/-- What a run has done so far is determined by the stream. -/
def Conn.AgreesWith (stream : List UInt8) (c : Conn) : Prop :=
  match c.phase with
  | .waiting => c.stream = stream
  | .reading => ∃ got, Follows stream got c
  | .judged verdict => verdict = (judge stream).2 ∧ c.r.SameRecord (judge stream).1

section Turn

variable {stream got : List UInt8} {c : Conn} (follows : Follows stream got c)
include follows

private theorem judge_eq_of_pending {c' : LineConfig}
    (reached : wholeRun stream (stream.take maxRequestLineSize) = .pending c') :
    judge stream = (c'.r, .reject) := by
  have nonempty : stream ≠ [] := by
    rw [follows.split]
    simp [follows.nonempty]
  simp only [judge, if_neg nonempty, reached]

private theorem judge_eq_of_stopped {out : LineStop} {rest : List UInt8}
    (stopped : wholeRun stream got = .stopped out rest) :
    judge stream =
      match out with
      | .fail _ r => (r, .reject)
      | .done p r =>
          if doneCode (lineDone p r) = .osOk then
            finishRequestLine (lineDone p r) { wholeBuf stream with pos := p + 1 }
          else (lineDone p r, .reject) := by
  have nonempty : stream ≠ [] := by
    rw [follows.split]
    simp [follows.nonempty]
  obtain ⟨more, all⟩ := follows.exists_take
  have whole : wholeRun stream (stream.take maxRequestLineSize) = .stopped out (rest ++ more) := by
    rw [all]
    exact run_append_of_stopped _ _ stopped
  cases out <;> simp only [judge, if_neg nonempty, whole]

/-- A turn of the loop over received bytes. -/
theorem Follows.turn (bytes : c.b.pos < c.b.last) (recv : Recv) :
    Conn.AgreesWith stream ⟨c.stream, (httpProcessRequestLine c.r c.b recv).1,
      (httpProcessRequestLine c.r c.b recv).2.1, (httpProcessRequestLine c.r c.b recv).2.2⟩ := by
  have whole := follows.wholeRun_eq
  rw [httpProcessRequestLine_ready _ bytes, httpParseRequestLine_eq follows.wf]
  cases reached : lineRun c.r c.b with
  | pending c' =>
      have position := lineRun_pending_p follows.wf reached
      rw [reached] at whole
      change Conn.AgreesWith stream
        ⟨c.stream, c'.r.setState c'.state, { c.b with pos := c'.p }, .reading⟩
      refine ⟨got, follows.split, follows.nonempty, ⟨position.le, follows.wf.last_le,
        follows.wf.size⟩, follows.size, follows.received, ?_⟩
      rw [List.take_of_length_le (by rw [follows.length]; exact position.ge)]
      exact whole
  | stopped out rest =>
      rw [reached] at whole
      have judged := judge_eq_of_stopped follows whole
      cases out with
      | fail code r =>
          obtain ⟨front, ch, c', -, -, halt⟩ := exists_of_stopped _ reached
          rcases lineMove_fail halt with rfl | rfl <;>
            exact ⟨by rw [judged]; rfl, by rw [judged]; rfl⟩
      | done p r =>
          have position := run_done_p reached
          have inside : HostInside (p + 1) (r.setState .swStart) := run_done_hostInside whole
          have below : p + 1 ≤ c.b.last := by
            have size : c.b.pending.length = c.b.last - c.b.pos := by
              rw [OsBuf.pending, List.length_drop, follows.wf.received_length]
            have := follows.wf.pos_le
            simp only at position
            omega
          have finish : finishRequestLine (lineDone p r) { c.b with pos := p + 1 } =
              finishRequestLine (lineDone p r) { wholeBuf stream with pos := p + 1 } :=
            finishRequestLine_congr (n := p + 1) rfl inside fun q less =>
              follows.byte_eq (by omega)
          have same : lineDone p (r.setState .swStart) = lineDone p r := rfl
          simp only [LineStop.setSaved, same] at judged
          simp only [lineResult]
          rcases doneCode_isDone (lineDone p r) with code | code
          · rw [if_pos code, ← finish] at judged
            simp only [code, afterParse]
            exact ⟨by rw [judged], by rw [judged]; rfl⟩
          · rw [if_neg (by simp [code])] at judged
            simp only [code, afterParse]
            exact ⟨by rw [judged], by rw [judged]; rfl⟩

/-- More bytes of the stream. -/
theorem Follows.append {chunk rest : List UInt8} (used : ¬ c.b.pos < c.b.last)
    (split : c.stream = chunk ++ rest) (fits : chunk.length ≤ c.b.end - c.b.last) :
    Follows stream (got ++ chunk) ⟨rest, c.r, c.b.append chunk, .reading⟩ := by
  have position : c.b.pos = got.length := by
    have := follows.wf.pos_le
    rw [follows.length]
    omega
  have reach := follows.reach
  refine ⟨by rw [follows.split, split, List.append_assoc], by simp [follows.nonempty],
    follows.wf.append fits, follows.size, by rw [follows.wf.append_received, follows.received], ?_⟩
  change wholeRun stream ((got ++ chunk).take c.b.pos) = _
  rw [List.take_append_of_le_length (by omega)]
  exact reach

/-- A reader that gets no more bytes rejects the request, as the judge of the stream does. -/
theorem Follows.judge_of_stuck (used : ¬ c.b.pos < c.b.last)
    (stuck : c.b.end - c.b.last = 0 ∨ c.stream = []) :
    judge stream = (c.r.setState .swStart, .reject) := by
  have reach := follows.reach
  have all : stream.take maxRequestLineSize = got := by
    have length := follows.length
    have size := follows.size
    have := follows.length_le
    have := follows.wf.last_le
    rw [follows.split]
    rcases stuck with full | ended
    · rw [List.take_append_of_le_length (by omega), List.take_of_length_le (by omega)]
    · rw [ended, List.append_nil, List.take_of_length_le (by omega)]
  rw [List.take_of_length_le (by rw [follows.length]; omega), ← all] at reach
  exact judge_eq_of_pending follows reach

end Turn

/-- Every step leaves the connection where the stream says. -/
theorem Conn.Step.agreesWith {stream : List UInt8} {c c' : Conn} (step : c.Step c')
    (agrees : c.AgreesWith stream) : c'.AgreesWith stream := by
  cases step with
  | wait delivered =>
      have all : _ = stream := agrees
      cases delivered with
      | again => exact all
      | nothing stuck =>
          have empty : stream = [] := by
            rcases stuck with stuck | rfl
            · cases stuck
            · exact all.symm
          exact ⟨by simp [judge, empty], by simp [judge, empty]; rfl⟩
      | @some chunk rest split nonempty fits =>
          obtain ⟨ch, tail, rfl⟩ := List.exists_cons_of_ne_nil nonempty
          have zeroed := OsBuf.zeroed_wellFormed maxRequestLineSize
          change Conn.AgreesWith stream
            ⟨_, .fresh, (OsBuf.zeroed maxRequestLineSize).append (ch :: tail), .reading⟩
          exact ⟨ch :: tail, by rw [← all, split], nonempty, zeroed.append fits, rfl,
            by rw [zeroed.append_received, OsBuf.zeroed_received, List.nil_append], rfl⟩
  | held recv bytes =>
      obtain ⟨got, follows⟩ := agrees
      exact follows.turn bytes recv
  | @read undelivered rest r b recv used delivered =>
      obtain ⟨got, follows⟩ := agrees
      cases delivered with
      | again =>
          simp only [httpProcessRequestLine, httpReadRequestHeader, if_neg used]
          exact ⟨got, follows⟩
      | nothing stuck =>
          have judged := follows.judge_of_stuck used stuck
          simp only [httpProcessRequestLine, httpReadRequestHeader, if_neg used]
          exact ⟨by rw [judged], by rw [judged]; rfl⟩
      | some split nonempty fits =>
          rename_i chunk
          have more := List.length_pos_iff.mpr nonempty
          have bytes : (b.append chunk).pos < (b.append chunk).last := by
            have := follows.wf.pos_le
            simp only [OsBuf.append] at *
            omega
          have turn := (follows.append used split fits).turn bytes .again
          rw [httpProcessRequestLine_ready _ bytes] at turn
          rwa [httpProcessRequestLine_data r used nonempty]

theorem Conn.Reaches.agreesWith {stream : List UInt8} {c : Conn}
    (reaches : (Conn.initial stream).Reaches c) : c.AgreesWith stream := by
  induction reaches with
  | refl => rfl
  | tail _ step agrees => exact step.agreesWith agrees

/-- Two runs over one byte stream which reach a verdict reach the same one with the same request,
however `os_recv` cuts the stream; and a resumed call of the parser gives what one call gives. -/
theorem request_line_segmentation :
    (∀ (stream : List UInt8) (c₁ c₂ : Conn) (verdict₁ verdict₂ : Verdict),
      (Conn.initial stream).Reaches c₁ → (Conn.initial stream).Reaches c₂ →
      c₁.phase = .judged verdict₁ → c₂.phase = .judged verdict₂ →
      verdict₁ = verdict₂ ∧ c₁.r.SameRecord c₂.r) ∧
    (∀ (b b₁ : OsBuf) (r r₁ : HttpRequest) (chunk : List UInt8),
      b.WellFormed → chunk.length ≤ b.end - b.last →
      httpParseRequestLine r b = (.osAgain, r₁, b₁) →
      (httpParseRequestLine r₁ (b₁.append chunk)).1 =
          (httpParseRequestLine r (b.append chunk)).1 ∧
        (httpParseRequestLine r₁ (b₁.append chunk)).2.1.SameRecord
          (httpParseRequestLine r (b.append chunk)).2.1 ∧
        (¬ (httpParseRequestLine r (b.append chunk)).1.IsError →
          httpParseRequestLine r₁ (b₁.append chunk) =
            httpParseRequestLine r (b.append chunk))) := by
  constructor
  · intro stream c₁ c₂ verdict₁ verdict₂ reaches₁ reaches₂ judged₁ judged₂
    have agrees₁ := reaches₁.agreesWith
    have agrees₂ := reaches₂.agreesWith
    simp only [Conn.AgreesWith, judged₁] at agrees₁
    simp only [Conn.AgreesWith, judged₂] at agrees₂
    exact ⟨agrees₁.1.trans agrees₂.1.symm, agrees₁.2.trans agrees₂.2.symm⟩
  · intro b b₁ r r₁ chunk wf room again
    exact httpParseRequestLine_resume wf room again

section Example

def getLine : List UInt8 := [chr 'G', chr 'E', chr 'T', sp, chr '/', lf]

def firstByte : OsBuf := (OsBuf.zeroed maxRequestLineSize).append [chr 'G']

def cutRequest : HttpRequest := { HttpRequest.fresh with
  requestStart := some 0, state := .swMethod }

def cutBuf : OsBuf := { firstByte with pos := 1 }

theorem request_line_segmentation_getLine : ∃ c₁ c₂ : Conn,
    (Conn.initial getLine).Reaches c₁ ∧ (Conn.initial getLine).Reaches c₂ ∧
    c₁.phase = .judged .processRequest ∧ c₂.phase = .judged .processRequest ∧
    c₁.r.SameRecord c₂.r := by
  obtain ⟨runs, resume⟩ := request_line_segmentation
  have wf : firstByte.WellFormed := (OsBuf.zeroed_wellFormed _).append (by decide)
  have whole : firstByte.append getLine.tail = wholeBuf getLine := by decide +kernel
  have first : httpParseRequestLine .fresh firstByte = (.osAgain, cutRequest, cutBuf) := by
    rw [httpParseRequestLine_eq wf]
    decide +kernel
  have code : (httpParseRequestLine .fresh (wholeBuf getLine)).1 = .osOk := by
    rw [httpParseRequestLine_eq (wholeBuf_wellFormed _)]
    decide +kernel
  -- the line in one piece
  have delivered : Delivers getLine maxRequestLineSize (.data getLine) [] :=
    .some rfl (by decide) (by decide)
  have waited : (Conn.initial getLine).Step ⟨[], .fresh, wholeBuf getLine, .reading⟩ :=
    .wait delivered
  have reaches₁ := (Relation.ReflTransGen.single waited).tail (.held .again (by decide))
  have judged₁ : (httpProcessRequestLine .fresh (wholeBuf getLine) .again).2.2 =
      .judged .processRequest := by
    rw [httpProcessRequestLine_ready _ (by decide),
      httpParseRequestLine_eq (wholeBuf_wellFormed _)]
    decide +kernel
  -- the line cut after its first byte
  have delivered₁ : Delivers getLine maxRequestLineSize (.data [chr 'G']) getLine.tail :=
    .some rfl (by decide) (by decide)
  have waited' : (Conn.initial getLine).Step ⟨getLine.tail, .fresh, firstByte, .reading⟩ :=
    .wait delivered₁
  have held : Conn.Step ⟨getLine.tail, .fresh, firstByte, .reading⟩
      ⟨getLine.tail, cutRequest, cutBuf, .reading⟩ := by
    have step : Conn.Step ⟨getLine.tail, .fresh, firstByte, .reading⟩ _ := .held .again (by decide)
    rwa [httpProcessRequestLine_ready _ (by decide), first] at step
  have delivered₂ : Delivers getLine.tail (cutBuf.end - cutBuf.last) (.data getLine.tail) [] :=
    .some rfl (by decide) (by decide)
  have reaches₂ := ((Relation.ReflTransGen.single waited').tail held).tail
    (.read (by decide) delivered₂)
  have judged₂ : (httpProcessRequestLine cutRequest cutBuf (.data getLine.tail)).2.2 =
      .judged .processRequest := by
    have same := (resume firstByte cutBuf .fresh cutRequest getLine.tail wf (by decide) first).2.2
    rw [whole, code] at same
    rw [httpProcessRequestLine_data _ (by decide) (by decide), same (by simp [LineCode.IsError]),
      ← httpProcessRequestLine_ready _ (by decide) .again]
    exact judged₁
  exact ⟨_, _, reaches₁, reaches₂, judged₁, judged₂,
    (runs getLine _ _ _ _ reaches₁ reaches₂ judged₁ judged₂).2⟩

end Example

end Http
end OstrichServer
