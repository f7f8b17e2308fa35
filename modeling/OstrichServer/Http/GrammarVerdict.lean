import OstrichServer.Http.GrammarReader

/-!
# The verdict of the parser

The residual languages of the parser states, put together: which calls of
`http_parse_request_line` on a fresh request accept, which ask for more and which fail.
-/

namespace OstrichServer
namespace Http

open Computability Language StoppingReader

/-! ## The residual languages fit the reader -/

theorem LineMove.Derives.of_same {state state' : LineState} {c : UInt8} {word : List UInt8}
    {move : LineMove} (derives : move.Derives state' c word)
    (same : c :: word ∈ residual state ↔ c :: word ∈ residual state') :
    move.Derives state c word := by
  cases move <;> simpa only [LineMove.Derives, same] using derives

/-- Both examinations of a byte together take the quotient by it. -/
theorem lineByte_derives (b : OsBuf) (p : Nat) (c : UInt8) (r : HttpRequest) (word : List UInt8)
    (state : LineState) : (lineByte b p c state r).Derives state c word := by
  have first := lineStep_derives b p c r word state
  unfold lineByte
  cases moved : lineStep b p c state r with
  | back state' r' =>
      rw [moved] at first
      exact (lineStep_derives b p c r' word state').of_same first
  | next | fail | done => rwa [moved] at first

/-- A word which completes a request line from a state. -/
def completion : LineState → List UInt8
  | .swStart => [chr 'A', sp, chr '/', lf]
  | .swMethod => [sp, chr '/', lf]
  | .swSpacesBeforeUri => [chr '/', lf]
  | .swSchema => [chr ':', chr '/', chr '/', sp, lf]
  | .swSchemaSlash => [chr '/', chr '/', sp, lf]
  | .swSchemaSlashSlash => [chr '/', sp, lf]
  | .swHostStart | .swHost | .swHostEnd | .swPort => [sp, lf]
  | .swHostIpLiteral => [chr ']', sp, lf]
  | .swHttpH => [chr 'T', chr 'T', chr 'P', chr '/', chr '1', chr '.', chr '0', lf]
  | .swHttpHT => [chr 'T', chr 'P', chr '/', chr '1', chr '.', chr '0', lf]
  | .swHttpHTT => [chr 'P', chr '/', chr '1', chr '.', chr '0', lf]
  | .swHttpHTTP => [chr '/', chr '1', chr '.', chr '0', lf]
  | .swFirstMajorDigit => [chr '1', chr '.', chr '0', lf]
  | .swMajorDigit => [chr '.', chr '0', lf]
  | .swFirstMinorDigit => [chr '0', lf]
  | .swHostHttp09 | .swAfterSlashInUri | .swCheckUri | .swCheckUriHttp09 | .swUri | .swHttp09
  | .swMinorDigit | .swSpacesAfterDigit | .swAlmostDone => [lf]

theorem completion_mem (state : LineState) : completion state ∈ residual state := by
  have here : [lf] ∈ pathTail := mem_pathTail_of_mem_tail (by simp +decide [cons_mem_tail])
  have ahead : [sp, lf] ∈ pathTail := by
    rw [space_cons_mem_pathTail (by decide)]
    exact here
  cases state with
  | swCheckUriHttp09 | swHttp09 => exact ahead
  | _ =>
      simp +decide [completion, residual, methodRest, targetRest, schemaRest, afterSchema, hostRest,
        afterHost, afterAuthority, literalRest, afterColon, versionNumber, majorDigits,
        minorDigits, cons_mem_afterSpace, here]

theorem nil_notMem_residual (state : LineState) : [] ∉ residual state := by
  have ahead : [sp] ∉ pathTail := by
    rw [cons_mem_pathTail, cons_mem_tail]
    rintro ((ends | ⟨-, after⟩) | ⟨front, -, back, member, same, -⟩)
    · simp +decide at ends
    · exact nil_notMem_afterSpace after
    · obtain ⟨rfl, rfl⟩ := List.append_eq_nil_iff.mp same
      exact nil_notMem_tail member
  cases state with
  | swCheckUriHttp09 | swHttp09 => exact ahead
  | _ =>
      simp [residual, methodRest, targetRest, schemaRest, afterSchema, hostRest, afterHost,
        afterAuthority, literalRest, afterColon, versionNumber, majorDigits, minorDigits]

/-- The residual languages are those of the reader. -/
theorem residual_isResidual (b : OsBuf) :
    IsResidual (lineMove b) LineStop.Accepts (fun c => residual c.state) where
  go := by
    intro c ch next step word
    have derives := lineByte_derives b c.p ch c.r word c.state
    cases moved : lineByte b c.p ch c.state c.r with
    | next state r =>
        rw [moved] at derives
        obtain rfl : ⟨c.p + 1, state, r⟩ = next := by
          simpa [lineMove, moved, LineMove.toMove] using step
        exact derives
    | back state r => exact (lineByte_ne_back _ _ _ _ _ _ _ moved).elim
    | fail | done => simp [lineMove, moved, LineMove.toMove] at step
  accept := by
    intro c ch out step accepted word
    have derives := lineByte_derives b c.p ch c.r word c.state
    cases moved : lineByte b c.p ch c.state c.r with
    | done r =>
        rw [moved] at derives
        exact derives
    | fail code r =>
        obtain rfl : LineStop.fail code r = out := by
          simpa [lineMove, moved, LineMove.toMove] using step
        exact accepted.elim
    | next | back => simp [lineMove, moved, LineMove.toMove] at step
  reject := by
    intro c ch out step rejected word
    have derives := lineByte_derives b c.p ch c.r word c.state
    cases moved : lineByte b c.p ch c.state c.r with
    | fail code r =>
        rw [moved] at derives
        exact derives
    | done r =>
        obtain rfl : LineStop.done c.p r = out := by
          simpa [lineMove, moved, LineMove.toMove] using step
        exact (rejected trivial).elim
    | next | back => simp [lineMove, moved, LineMove.toMove] at step
  nil := fun c => nil_notMem_residual c.state
  live := fun c => ⟨completion c.state, completion_mem c.state⟩

/-! ## The verdict on a fresh request -/

/-- Some prefix of the bytes is a request line. -/
def HasLine (bytes : List UInt8) : Prop := ∃ line ∈ requestLine, line <+: bytes

/-- The buffer before its last bytes arrived: `count` bytes to parse. -/
def OsBuf.upTo (b : OsBuf) (count : Nat) : OsBuf := { b with last := b.pos + count }

section Verdict

variable {b : OsBuf} (wf : b.WellFormed)
include wf

theorem pending_length : b.pending.length = b.last - b.pos := by
  rw [OsBuf.pending, List.length_drop, wf.received_length]

theorem upTo_wellFormed {count : Nat} (inside : count ≤ b.pending.length) :
    (b.upTo count).WellFormed := by
  rw [pending_length wf] at inside
  have := wf.pos_le
  have := wf.last_le
  exact ⟨by simp [OsBuf.upTo], by simp only [OsBuf.upTo]; omega, wf.size⟩

theorem upTo_pending {count : Nat} (inside : count ≤ b.pending.length) :
    (b.upTo count).pending = b.pending.take count := by
  rw [pending_length wf] at inside
  have := wf.pos_le
  rw [OsBuf.pending, OsBuf.pending, OsBuf.received, OsBuf.received, List.take_drop, List.take_take]
  simp only [OsBuf.upTo]
  congr 2
  omega

/-- The reader does not see where the received bytes end. -/
theorem lineRun_upTo {count : Nat} (inside : count ≤ b.pending.length) (r : HttpRequest) :
    lineRun r (b.upTo count) = run (lineMove b) ⟨b.pos, r.state, r⟩ (b.pending.take count) := by
  rw [lineRun, upTo_pending wf inside]
  exact run_congr _ _ fun q _ => rfl

private theorem accepts_iff_hasLine :
    (httpParseRequestLine .fresh b).1.IsDone ↔ HasLine b.pending := by
  rw [(httpParseRequestLine_code wf _).1]
  have language := (residual_isResidual b).accepts_iff ⟨b.pos, .swStart, .fresh⟩ b.pending
  simp only [residual_swStart] at language
  constructor
  · rintro ⟨out, rest, accepted, reached⟩
    obtain ⟨line, member, split⟩ := (language rest).mp ⟨out, accepted, reached⟩
    exact ⟨line, member, rest, split.symm⟩
  · rintro ⟨line, member, rest, split⟩
    obtain ⟨out, accepted, reached⟩ := (language rest).mpr ⟨line, member, split.symm⟩
    exact ⟨out, rest, accepted, reached⟩

private theorem pos_of_line {line : List UInt8} (member : line ∈ requestLine)
    (head : line <+: b.pending) :
    (httpParseRequestLine .fresh b).2.2.pos = b.pos + line.length := by
  obtain ⟨rest, split⟩ := head
  have language := (residual_isResidual b).accepts_iff ⟨b.pos, .swStart, .fresh⟩ b.pending rest
  simp only [residual_swStart] at language
  obtain ⟨out, accepted, reached⟩ := language.mpr ⟨line, member, split.symm⟩
  cases out with
  | fail code r => exact accepted.elim
  | done p r =>
      have position := run_done_p reached
      rw [← split, List.length_append] at position
      have result : lineRun .fresh b = .stopped (.done p r) rest := reached
      rw [httpParseRequestLine_eq wf, result]
      change p + 1 = _
      simp only at position
      omega

private theorem again_iff_viable :
    (httpParseRequestLine .fresh b).1 = .osAgain ↔
      ¬ HasLine b.pending ∧ ∃ rest, HasLine (b.pending ++ rest) := by
  rw [(httpParseRequestLine_code wf _).2.1]
  have language := (residual_isResidual b).pending_iff ⟨b.pos, .swStart, .fresh⟩ b.pending
  simp only [residual_swStart] at language
  change (∃ c, run (lineMove b) ⟨b.pos, .swStart, .fresh⟩ b.pending = .pending c) ↔ _
  rw [language]
  constructor
  · rintro ⟨incomplete, rest, member⟩
    exact ⟨fun ⟨line, line_mem, head⟩ => incomplete line line_mem head,
      rest, _, member, List.prefix_refl _⟩
  · rintro ⟨incomplete, rest, line, member, head⟩
    have inside : b.pending <+: line := by
      rcases List.prefix_or_prefix_of_prefix head (List.prefix_append _ _) with short | long
      · exact (incomplete ⟨line, member, short⟩).elim
      · exact long
    obtain ⟨more, rfl⟩ := inside
    exact ⟨fun line line_mem short => incomplete ⟨line, line_mem, short⟩, more, member⟩

private theorem error_iff_dead :
    (httpParseRequestLine .fresh b).1.IsError ↔ ∀ rest, ¬ HasLine (b.pending ++ rest) := by
  rw [(httpParseRequestLine_code wf _).2.2]
  have language := (residual_isResidual b).rejects_iff ⟨b.pos, .swStart, .fresh⟩ b.pending
  simp only [residual_swStart] at language
  calc
    (∃ out rest, ¬ out.Accepts ∧ lineRun .fresh b = .stopped out rest) ↔
        ∀ rest, ∀ line ∈ requestLine, ¬ line <+: b.pending ++ rest := language
    _ ↔ ∀ rest, ¬ HasLine (b.pending ++ rest) := by simp [HasLine]

/-- The byte an error is raised on is the first that leaves no way to a request line. -/
private theorem error_at_first_byte (error : (httpParseRequestLine .fresh b).1.IsError) :
    ∃ front ch rest, b.pending = front ++ ch :: rest ∧
      (∃ more, HasLine (front ++ more)) ∧
      (∀ more, ¬ HasLine (front ++ ch :: more)) ∧
      (httpParseRequestLine .fresh (b.upTo front.length)).1 = .osAgain ∧
      (httpParseRequestLine .fresh (b.upTo (front.length + 1))).1 =
        (httpParseRequestLine .fresh b).1 := by
  obtain ⟨out, rest, rejected, reached⟩ := (httpParseRequestLine_code wf _).2.2.mp error
  obtain ⟨front, ch, c, split, reach, halt⟩ := exists_of_stopped _ reached
  have length : front.length + 1 ≤ b.pending.length := by simp [split]
  have take_front : b.pending.take front.length = front := by simp [split]
  have take_error : b.pending.take (front.length + 1) = front ++ [ch] := by
    simp [split, List.take_append]
  have before : (b.upTo front.length).WellFormed := upTo_wellFormed wf (by omega)
  have after := upTo_wellFormed wf length
  have stopped := (run_append_of_pending _ [ch] reach).trans (run_cons_stop _ _ halt)
  have again : (httpParseRequestLine .fresh (b.upTo front.length)).1 = .osAgain := by
    rw [(httpParseRequestLine_code before _).2.1]
    refine ⟨c, ?_⟩
    rw [lineRun_upTo wf (by omega), take_front]
    exact reach
  have run_error : lineRun .fresh (b.upTo (front.length + 1)) = .stopped out [] := by
    rw [lineRun_upTo wf length, take_error]
    exact stopped
  refine ⟨front, ch, rest, split, ?_, fun more => ?_, again, ?_⟩
  · have viable := ((again_iff_viable before).mp again).2
    rwa [upTo_pending wf (by omega), take_front] at viable
  · have same : (front ++ [ch]) ++ more = front ++ ch :: more := by simp
    have dead := (error_iff_dead after).mp
      ((httpParseRequestLine_code after _).2.2.mpr ⟨out, [], rejected, run_error⟩) more
    rwa [upTo_pending wf length, take_error, same] at dead
  · rw [httpParseRequestLine_eq after, httpParseRequestLine_eq wf, run_error, reached]
    cases out with
    | fail code r => rfl
    | done p r => exact (rejected trivial).elim

end Verdict

/-- `http_parse_request_line` on a fresh request reaches `done` exactly on the request lines, asks
for more exactly on what can still become one, and fails at the first byte that rules it out. -/
theorem http_parse_request_line_grammar (b : OsBuf) (wf : b.WellFormed) :
    ((httpParseRequestLine .fresh b).1.IsDone ↔ HasLine b.pending) ∧
    (∀ line ∈ requestLine, line <+: b.pending →
      (httpParseRequestLine .fresh b).2.2.pos = b.pos + line.length) ∧
    ((httpParseRequestLine .fresh b).1 = .osAgain ↔
      ¬ HasLine b.pending ∧ ∃ rest, HasLine (b.pending ++ rest)) ∧
    ((httpParseRequestLine .fresh b).1.IsError ↔ ∀ rest, ¬ HasLine (b.pending ++ rest)) ∧
    ((httpParseRequestLine .fresh b).1.IsError →
      ∃ front ch rest, b.pending = front ++ ch :: rest ∧
        (∃ more, HasLine (front ++ more)) ∧
        (∀ more, ¬ HasLine (front ++ ch :: more)) ∧
        (httpParseRequestLine .fresh (b.upTo front.length)).1 = .osAgain ∧
        (httpParseRequestLine .fresh (b.upTo (front.length + 1))).1 =
          (httpParseRequestLine .fresh b).1) :=
  ⟨accepts_iff_hasLine wf, fun _ => pos_of_line wf, again_iff_viable wf, error_iff_dead wf,
    error_at_first_byte wf⟩

/-- The bytes of `GET / HTTP/1.0` and a line feed in a buffer of their own size. -/
def plainLine : OsBuf :=
  ⟨[chr 'G', chr 'E', chr 'T', sp, chr '/', sp, chr 'H', chr 'T', chr 'T', chr 'P', chr '/',
    chr '1', chr '.', chr '0', lf], 0, 15, 15⟩

theorem http_parse_request_line_grammar_plainLine :
    HasLine plainLine.pending ∧ ∀ line ∈ requestLine, line <+: plainLine.pending →
      line.length = 15 := by
  have wf : plainLine.WellFormed := ⟨by decide, by decide, by decide⟩
  have result := httpParseRequestLine_eq wf .fresh
  obtain ⟨accepts, position, -⟩ := http_parse_request_line_grammar plainLine wf
  constructor
  · rw [← accepts, result]
    exact Or.inl (by decide)
  · intro line member head
    have here := position line member head
    rw [result] at here
    have last : (lineResult plainLine (lineRun .fresh plainLine)).2.2.pos = 15 := by decide
    have start : plainLine.pos = 0 := rfl
    omega

end Http
end OstrichServer
