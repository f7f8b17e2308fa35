import OstrichServer.Http.LineReader

/-!
# Resuming the request-line parser

A call that returned `OS_AGAIN` saved its parser state in `r->state` and its position in `b->pos`.
The call made after more bytes arrived gives what one call over all the bytes gives; only the
`state` field can tell the two apart, and only after an error.
-/

namespace OstrichServer
namespace Http

open StoppingReader

/-! ## The saved state does not steer a turn -/

/-- Change the request a move carries. -/
def LineMove.mapRequest (f : HttpRequest → HttpRequest) : LineMove → LineMove
  | .next state r => .next state (f r)
  | .back state r => .back state (f r)
  | .fail code r => .fail code (f r)
  | .done r => .done (f r)

theorem lineStep_setState (b : OsBuf) (p : Nat) (ch : UInt8) (state saved : LineState)
    (r : HttpRequest) :
    lineStep b p ch state (r.setState saved) =
      (lineStep b p ch state r).mapRequest (·.setState saved) := by
  cases state <;>
    simp only [lineStep, lineHost, lineHostEnd, apply_ite (LineMove.mapRequest _)] <;> rfl

theorem lineByte_setState (b : OsBuf) (p : Nat) (ch : UInt8) (state saved : LineState)
    (r : HttpRequest) :
    lineByte b p ch state (r.setState saved) =
      (lineByte b p ch state r).mapRequest (·.setState saved) := by
  unfold lineByte
  rw [lineStep_setState]
  cases moved : lineStep b p ch state r with
  | back state' r' => exact lineStep_setState b p ch state' saved r'
  | next | fail | done => rfl

/-- Forget the saved state. -/
def LineConfig.setSaved (saved : LineState) (c : LineConfig) : LineConfig :=
  ⟨c.p, c.state, c.r.setState saved⟩

/-- Forget the saved state. -/
def LineStop.setSaved (saved : LineState) : LineStop → LineStop
  | .fail code r => .fail code (r.setState saved)
  | .done p r => .done p (r.setState saved)

theorem run_setSaved (b : OsBuf) (saved : LineState) (c : LineConfig) (word : List UInt8) :
    run (lineMove b) (c.setSaved saved) word =
      (run (lineMove b) c word).map (.setSaved saved) (.setSaved saved) := by
  apply run_map
  intro c ch
  simp only [lineMove, LineConfig.setSaved, lineByte_setState]
  cases lineByte b c.p ch c.state c.r <;> rfl

/-! ## Resuming after `OS_AGAIN` -/

/-- Equal but for the saved parser state. -/
def HttpRequest.SameRecord (r r' : HttpRequest) : Prop :=
  r.setState .swStart = r'.setState .swStart

/-- A call that asks for more has used up the received bytes. -/
theorem lineRun_pending_p {b : OsBuf} (wf : b.WellFormed) {r : HttpRequest} {c : LineConfig}
    (pending : lineRun r b = .pending c) : c.p = b.last := by
  have position := run_pending_p pending
  have length : b.pending.length = b.last - b.pos := by
    rw [OsBuf.pending, List.length_drop, wf.received_length]
  have := wf.pos_le
  simp only at position
  omega

/-- The runs of the two calls after a cut differ by the saved state only. -/
theorem lineRun_resume {b : OsBuf} (wf : b.WellFormed) {r : HttpRequest} {c : LineConfig}
    (chunk : List UInt8) (pending : lineRun r b = .pending c) :
    lineRun r (b.append chunk) = run (lineMove (b.append chunk)) c chunk ∧
      lineRun (c.r.setState c.state) (({ b with pos := c.p } : OsBuf).append chunk) =
        (run (lineMove (b.append chunk)) c chunk).map (.setSaved c.state) (.setSaved c.state) := by
  have position := lineRun_pending_p wf pending
  constructor
  · have reach : run (lineMove (b.append chunk)) ⟨b.pos, r.state, r⟩ b.pending = .pending c := by
      rw [← pending, lineRun]
      apply run_congr
      intro q below
      have := lineRun_pending_p wf pending
      have := run_pending_p pending
      exact wf.append_byte (by simp only at *; omega)
    rw [lineRun, wf.append_pending]
    exact run_append_of_pending _ _ reach
  · rw [← run_setSaved]
    have wf' : ({ b with pos := c.p } : OsBuf).WellFormed :=
      ⟨by simp [position], wf.last_le, wf.size⟩
    have arrived : (({ b with pos := c.p } : OsBuf).append chunk).pending = chunk := by
      rw [wf'.append_pending]
      have empty : ({ b with pos := c.p } : OsBuf).pending = [] := by
        rw [OsBuf.pending, List.drop_eq_nil_iff, wf'.received_length, position]
      rw [empty, List.nil_append]
    rw [lineRun, arrived]
    exact run_congr _ _ fun q _ => rfl

/-- Calling the parser again over the later bytes gives what one call over all the bytes gives. -/
theorem httpParseRequestLine_resume {b : OsBuf} (wf : b.WellFormed) {r r₁ : HttpRequest}
    {b₁ : OsBuf} {chunk : List UInt8} (room : chunk.length ≤ b.end - b.last)
    (again : httpParseRequestLine r b = (.osAgain, r₁, b₁)) :
    (httpParseRequestLine r₁ (b₁.append chunk)).1 = (httpParseRequestLine r (b.append chunk)).1 ∧
      (httpParseRequestLine r₁ (b₁.append chunk)).2.1.SameRecord
        (httpParseRequestLine r (b.append chunk)).2.1 ∧
      (¬ (httpParseRequestLine r (b.append chunk)).1.IsError →
        httpParseRequestLine r₁ (b₁.append chunk) = httpParseRequestLine r (b.append chunk)) := by
  obtain ⟨c, pending⟩ := (httpParseRequestLine_code wf r).2.1.mp (by rw [again])
  rw [httpParseRequestLine_eq wf, pending] at again
  obtain ⟨rfl, rfl⟩ : c.r.setState c.state = r₁ ∧ { b with pos := c.p } = b₁ := by
    simpa [lineResult] using again
  have position := lineRun_pending_p wf pending
  have wf₁ : ({ b with pos := c.p } : OsBuf).WellFormed :=
    ⟨by simp [position], wf.last_le, wf.size⟩
  obtain ⟨whole, resumed⟩ := lineRun_resume wf chunk pending
  rw [httpParseRequestLine_eq (wf.append room), httpParseRequestLine_eq (wf₁.append room), whole,
    resumed]
  cases reached : run (lineMove (b.append chunk)) c chunk with
  | pending c' => exact ⟨rfl, rfl, fun _ => rfl⟩
  | stopped out rest =>
      cases out with
      | done p r' => exact ⟨rfl, rfl, fun _ => rfl⟩
      | fail code r' =>
          obtain ⟨front, ch, c', -, -, halt⟩ := exists_of_stopped _ reached
          exact ⟨rfl, rfl, fun good => (good (lineMove_fail halt)).elim⟩

/-- Call the parser on a buffer, and again after each chunk that arrives while it asks for
more. -/
def resumeRequestLine (r : HttpRequest) (b : OsBuf) :
    List (List UInt8) → LineCode × HttpRequest × OsBuf
  | [] => httpParseRequestLine r b
  | chunk :: chunks =>
      match httpParseRequestLine r b with
      | (.osAgain, r, b) => resumeRequestLine r (b.append chunk) chunks
      | result => result

/-- A line accepted over several calls is accepted in one. -/
theorem resumeRequestLine_osOk {b b' : OsBuf} (wf : b.WellFormed) {r r' : HttpRequest}
    {chunks : List (List UInt8)} (room : chunks.flatten.length ≤ b.end - b.last)
    (accepted : resumeRequestLine r b chunks = (.osOk, r', b')) :
    ∃ more, more.length ≤ b.end - b.last ∧
      httpParseRequestLine r (b.append more) = (.osOk, r', b') := by
  induction chunks generalizing r b with
  | nil => exact ⟨[], Nat.zero_le _, by rwa [b.append_nil]⟩
  | cons chunk chunks induction =>
      simp only [List.flatten_cons, List.length_append] at room
      rcases called : httpParseRequestLine r b with ⟨code, r₁, b₁⟩
      rw [resumeRequestLine, called] at accepted
      cases code with
      | osAgain =>
          obtain ⟨c, pending⟩ := (httpParseRequestLine_code wf r).2.1.mp (by rw [called])
          have parsed := httpParseRequestLine_eq wf r
          rw [pending, called] at parsed
          obtain ⟨rfl, rfl⟩ : r₁ = c.r.setState c.state ∧ b₁ = { b with pos := c.p } := by
            simpa [lineResult] using parsed
          have wf₁ : ({ b with pos := c.p } : OsBuf).WellFormed :=
            ⟨(lineRun_pending_p wf pending).le, wf.last_le, wf.size⟩
          have fits : chunk.length ≤ b.end - b.last := by omega
          obtain ⟨more, small, whole⟩ := induction (wf₁.append fits)
            (by simp only [OsBuf.append]; omega) accepted
          have total : (chunk ++ more).length ≤ b.end - b.last := by
            simp only [OsBuf.append] at small
            rw [List.length_append]
            omega
          rw [wf₁.append_append] at whole
          obtain ⟨code, -, same⟩ := httpParseRequestLine_resume wf total called
          rw [whole] at code same
          exact ⟨chunk ++ more, total, (same (by simp [← code, LineCode.IsError])).symm⟩
      | osOk =>
          -- the line ended in the bytes of the first call
          refine ⟨[], Nat.zero_le _, ?_⟩
          rw [b.append_nil, called]
          exact accepted
      | invalidMethod | invalidRequest | invalid09Method => cases accepted

end Http
end OstrichServer
