import OstrichServer.Foundations.StoppingReader
import OstrichServer.Http.ParseLine

/-!
# The request-line parser as a reader of bytes

The loop of `http_parse_request_line` examines some bytes twice.  Here both examinations of a byte
are one move of a `StoppingReader`, so that runs compose over any cut of the received bytes.
-/

namespace OstrichServer
namespace Http

open StoppingReader

/-- What the loop carries from one byte to the next. -/
structure LineConfig where
  p : Nat
  state : LineState
  r : HttpRequest

/-- How the loop stops on a byte. -/
inductive LineStop
  | fail (code : LineCode) (r : HttpRequest)
  | done (p : Nat) (r : HttpRequest)

/-- Both examinations of one byte. -/
def lineByte (b : OsBuf) (p : Nat) (ch : UInt8) (state : LineState) (r : HttpRequest) : LineMove :=
  match lineStep b p ch state r with
  | .back state r => lineStep b p ch state r
  | move => move

/-- A turn of the `switch` at `p` as a move of a reader; a byte never steps back twice, so
`.back` is not reached. -/
def LineMove.toMove (p : Nat) : LineMove → Move LineConfig LineStop
  | .next state r => .go ⟨p + 1, state, r⟩
  | .back state r => .go ⟨p, state, r⟩
  | .fail code r => .stop (.fail code r)
  | .done r => .stop (.done p r)

/-- Consume one byte. -/
def lineMove (b : OsBuf) (c : LineConfig) (ch : UInt8) : Move LineConfig LineStop :=
  (lineByte b c.p ch c.state c.r).toMove c.p

/-- A second examination does not step back. -/
theorem lineByte_ne_back (b : OsBuf) (p : Nat) (ch : UInt8) (state state' : LineState)
    (r r' : HttpRequest) : lineByte b p ch state r ≠ .back state' r' := by
  intro stepped
  unfold lineByte at stepped
  cases first : lineStep b p ch state r with
  | back state₁ r₁ =>
      simp only [first] at stepped
      have behind := (lineStep_back first).2
      have ahead := (lineStep_back stepped).1
      simp [behind] at ahead
  | next | fail | done => simp [first] at stepped

/-- The exit of the `for` loop that an outcome of the reader stands for. -/
def lineExit : Outcome UInt8 LineConfig LineStop → LineExit
  | .pending c => .again c.p c.state c.r
  | .stopped (.fail code r) _ => .fail code r
  | .stopped (.done p r) _ => .done p r

theorem OsBuf.WellFormed.received_drop {b : OsBuf} (wf : b.WellFormed) {p : Nat}
    (inside : p < b.last) : b.received.drop p = b.byte p :: b.received.drop (p + 1) := by
  have bound : p < b.received.length := by simpa [wf.received_length] using inside
  rw [List.drop_eq_getElem_cons bound]
  have read := wf.byte_of_lt inside
  rw [List.getElem?_eq_getElem bound] at read
  rw [Option.some.inj read]

/-- The `for` loop is the reader run over the bytes from `p` on. -/
theorem lineLoop_eq_run {b : OsBuf} (wf : b.WellFormed) (p : Nat) (state : LineState)
    (r : HttpRequest) (inside : p ≤ b.last) :
    lineLoop b p state r = lineExit (run (lineMove b) ⟨p, state, r⟩ (b.received.drop p)) := by
  obtain ⟨count, remaining⟩ : ∃ count, b.last - p = count := ⟨_, rfl⟩
  induction count generalizing p state r with
  | zero =>
      have finished : b.received.drop p = [] := by
        apply List.drop_eq_nil_of_le
        rw [wf.received_length]
        omega
      rw [lineLoop, dif_neg (by omega), finished]
      rfl
  | succ count induction =>
      have more : p < b.last := by omega
      have later := fun state r => induction (p + 1) state r (by omega) (by omega)
      rw [wf.received_drop more]
      rw [lineLoop, dif_pos more]
      cases first : lineStep b p (b.byte p) state r with
      | next state₁ r₁ =>
          have moved : lineMove b ⟨p, state, r⟩ (b.byte p) = .go ⟨p + 1, state₁, r₁⟩ := by
            simp [lineMove, lineByte, first, LineMove.toMove]
          rw [run_cons_go _ _ moved]
          exact later state₁ r₁
      | fail code r₁ =>
          have moved : lineMove b ⟨p, state, r⟩ (b.byte p) = .stop (.fail code r₁) := by
            simp [lineMove, lineByte, first, LineMove.toMove]
          rw [run_cons_stop _ _ moved]
          rfl
      | done r₁ =>
          have moved : lineMove b ⟨p, state, r⟩ (b.byte p) = .stop (.done p r₁) := by
            simp [lineMove, lineByte, first, LineMove.toMove]
          rw [run_cons_stop _ _ moved]
          rfl
      | back state₁ r₁ =>
          -- the loop comes back to the same byte, and this time leaves it behind
          have behind := (lineStep_back first).2
          simp only
          rw [lineLoop, dif_pos more]
          cases second : lineStep b p (b.byte p) state₁ r₁ with
          | next state₂ r₂ =>
              have moved : lineMove b ⟨p, state, r⟩ (b.byte p) = .go ⟨p + 1, state₂, r₂⟩ := by
                simp [lineMove, lineByte, first, second, LineMove.toMove]
              rw [run_cons_go _ _ moved]
              exact later state₂ r₂
          | fail code r₂ =>
              have moved : lineMove b ⟨p, state, r⟩ (b.byte p) = .stop (.fail code r₂) := by
                simp [lineMove, lineByte, first, second, LineMove.toMove]
              rw [run_cons_stop _ _ moved]
              rfl
          | done r₂ =>
              have moved : lineMove b ⟨p, state, r⟩ (b.byte p) = .stop (.done p r₂) := by
                simp [lineMove, lineByte, first, second, LineMove.toMove]
              rw [run_cons_stop _ _ moved]
              rfl
          | back state₂ r₂ =>
              have ahead := (lineStep_back second).1
              simp [behind] at ahead

/-- The run of the reader that a call of `http_parse_request_line` makes. -/
def lineRun (r : HttpRequest) (b : OsBuf) : Outcome UInt8 LineConfig LineStop :=
  run (lineMove b) ⟨b.pos, r.state, r⟩ b.pending

/-- The three exits of `http_parse_request_line` over an outcome of the reader. -/
def lineResult (b : OsBuf) : Outcome UInt8 LineConfig LineStop → LineCode × HttpRequest × OsBuf
  | .pending c => (.osAgain, c.r.setState c.state, { b with pos := c.p })
  | .stopped (.fail code r) _ => (code, r, b)
  | .stopped (.done p r) _ => (doneCode (lineDone p r), lineDone p r, { b with pos := p + 1 })

theorem httpParseRequestLine_eq {b : OsBuf} (wf : b.WellFormed) (r : HttpRequest) :
    httpParseRequestLine r b = lineResult b (lineRun r b) := by
  rw [httpParseRequestLine, lineLoop_eq_run wf b.pos r.state r wf.pos_le]
  change _ = lineResult b (run (lineMove b) _ (b.received.drop b.pos))
  cases run (lineMove b) ⟨b.pos, r.state, r⟩ (b.received.drop b.pos) with
  | pending c => rfl
  | stopped out rest => cases out <;> rfl

/-! ## Positions -/

/-- A move steps over exactly one byte. -/
theorem lineMove_p {b : OsBuf} {c c' : LineConfig} {ch : UInt8}
    (step : lineMove b c ch = .go c') : c'.p = c.p + 1 := by
  unfold lineMove at step
  cases byte : lineByte b c.p ch c.state c.r with
  | next state r =>
      rw [byte] at step
      obtain rfl : ⟨c.p + 1, state, r⟩ = c' := by simpa [LineMove.toMove] using step
      rfl
  | back state r => exact (lineByte_ne_back _ _ _ _ _ _ _ byte).elim
  | fail | done => simp [byte, LineMove.toMove] at step

theorem run_pending_p {b : OsBuf} {c c' : LineConfig} {word : List UInt8}
    (pending : run (lineMove b) c word = .pending c') : c'.p = c.p + word.length := by
  refine pending_induction (lineMove b) (fun front (middle : LineConfig) =>
    middle.p = c.p + front.length) (by simp) ?_ pending
  intro front middle ch next reached step
  rw [lineMove_p step, reached]
  simp [Nat.add_assoc]

theorem run_done_p {b : OsBuf} {c : LineConfig} {word rest : List UInt8} {p : Nat}
    {r : HttpRequest} (stopped : run (lineMove b) c word = .stopped (.done p r) rest) :
    p + 1 + rest.length = c.p + word.length := by
  obtain ⟨front, ch, middle, rfl, reach, halt⟩ := exists_of_stopped _ stopped
  have position := run_pending_p reach
  have here : p = middle.p := by
    unfold lineMove at halt
    cases byte : lineByte b middle.p ch middle.state middle.r with
    | done r' =>
        rw [byte] at halt
        exact (by simpa [LineMove.toMove] using halt : middle.p = p ∧ _).1.symm
    | next | back | fail => simp [byte, LineMove.toMove] at halt
  simp only [List.length_append, List.length_cons]
  omega

/-! ## Invariants -/

section Invariant

variable {b : OsBuf} {start : Nat} (holds : List UInt8 → LineState → HttpRequest → Prop)
  (done : List UInt8 → HttpRequest → Prop)
  (step : ∀ front ch state r, holds front state r →
    (lineStep b (start + front.length) ch state r).Ensures (holds (front ++ [ch])) (holds front)
      (fun _ _ => True) (done (front ++ [ch])))
include step

/-- What one turn of the `switch` keeps, both examinations of a byte keep. -/
theorem lineByte_ensures (front : List UInt8) (ch : UInt8) (state : LineState) (r : HttpRequest)
    (here : holds front state r) :
    (lineByte b (start + front.length) ch state r).Ensures (holds (front ++ [ch])) (holds front)
      (fun _ _ => True) (done (front ++ [ch])) := by
  have first := step front ch state r here
  unfold lineByte
  cases moved : lineStep b (start + front.length) ch state r with
  | back state' r' =>
      rw [moved] at first
      exact step front ch state' r' first
  | next | fail | done => rwa [moved] at first

/-- What every turn keeps holds of all bytes read. -/
theorem run_pending_of_step {state : LineState} {r : HttpRequest} {word : List UInt8}
    {c : LineConfig} (initial : holds [] state r)
    (pending : run (lineMove b) ⟨start, state, r⟩ word = .pending c) :
    c.p = start + word.length ∧ holds word c.state c.r := by
  refine pending_induction (lineMove b) (fun front (c : LineConfig) =>
    c.p = start + front.length ∧ holds front c.state c.r) ⟨rfl, initial⟩ ?_ pending
  rintro front ⟨p, state, r⟩ ch next ⟨position, here⟩ moved
  have ensures := lineByte_ensures holds done step front ch state r here
  refine ⟨by rw [lineMove_p moved, position, List.length_append]; rfl, ?_⟩
  simp only at position
  subst position
  cases byte : lineByte b (start + front.length) ch state r with
  | next state' r' =>
      rw [byte] at ensures
      obtain rfl : ⟨start + front.length + 1, state', r'⟩ = next := by
        simpa [lineMove, byte, LineMove.toMove] using moved
      exact ensures
  | back => exact (lineByte_ne_back _ _ _ _ _ _ _ byte).elim
  | fail | done => simp [lineMove, byte, LineMove.toMove] at moved

/-- What every turn keeps holds when the parser reaches `done`. -/
theorem run_done_of_step {state : LineState} {r r' : HttpRequest} {word rest : List UInt8}
    {p : Nat} (initial : holds [] state r)
    (stopped : run (lineMove b) ⟨start, state, r⟩ word = .stopped (.done p r') rest) :
    ∃ front, p + 1 = start + front.length ∧ word = front ++ rest ∧ done front r' := by
  obtain ⟨front, ch, c, rfl, reach, halt⟩ := exists_of_stopped _ stopped
  obtain ⟨position, here⟩ := run_pending_of_step holds done step initial reach
  obtain ⟨p', state', r''⟩ := c
  simp only at position here
  subst position
  have ensures := lineByte_ensures holds done step front ch state' r'' here
  cases byte : lineByte b (start + front.length) ch state' r'' with
  | done last =>
      rw [byte] at ensures
      obtain ⟨rfl, rfl⟩ : start + front.length = p ∧ last = r' := by
        simpa [lineMove, byte, LineMove.toMove] using halt
      exact ⟨front ++ [ch], by simp [Nat.add_assoc], by simp, ensures⟩
  | next | back | fail => simp [lineMove, byte, LineMove.toMove] at halt

end Invariant

/-! ## Return codes -/

/-- The parser stopped at the label `done`. -/
def LineStop.Accepts : LineStop → Prop
  | .done _ _ => True
  | .fail _ _ => False

/-- The codes returned at the label `done`. -/
def LineCode.IsDone (code : LineCode) : Prop := code = .osOk ∨ code = .invalid09Method

/-- The codes returned from inside the loop. -/
def LineCode.IsError (code : LineCode) : Prop := code = .invalidMethod ∨ code = .invalidRequest

theorem lineStep_fail_isError (b : OsBuf) (p : Nat) (ch : UInt8) (state : LineState)
    (r : HttpRequest) :
    (lineStep b p ch state r).Ensures (fun _ _ => True) (fun _ _ => True)
      (fun code _ => code.IsError) (fun _ => True) := by
  cases state <;> simp only [lineStep, lineHost, lineHostEnd] <;>
    (repeat' refine iteInduction (fun _ => ?_) (fun _ => ?_)) <;>
    first | trivial | exact Or.inl rfl | exact Or.inr rfl

theorem lineMove_fail {b : OsBuf} {c : LineConfig} {ch : UInt8} {code : LineCode} {r : HttpRequest}
    (step : lineMove b c ch = .stop (.fail code r)) : code.IsError := by
  have turn := fun r state => lineStep_fail_isError b c.p ch state r
  unfold lineMove lineByte at step
  cases first : lineStep b c.p ch c.state c.r with
  | fail code' r' =>
      have error := turn c.r c.state
      rw [first] at error
      obtain ⟨rfl, -⟩ : code' = code ∧ r' = r := by simpa [first, LineMove.toMove] using step
      exact error
  | back state' r' =>
      simp only [first] at step
      cases second : lineStep b c.p ch state' r' with
      | fail code' r'' =>
          have error := turn r' state'
          rw [second] at error
          obtain ⟨rfl, -⟩ : code' = code ∧ r'' = r := by simpa [second, LineMove.toMove] using step
          exact error
      | next | back | done => simp [second, LineMove.toMove] at step
  | next | done => simp [first, LineMove.toMove] at step

theorem doneCode_isDone (r : HttpRequest) : (doneCode r).IsDone := by
  unfold doneCode
  split
  · exact Or.inr rfl
  · exact Or.inl rfl

/-- The code tells the outcome of the reader. -/
theorem httpParseRequestLine_code {b : OsBuf} (wf : b.WellFormed) (r : HttpRequest) :
    ((httpParseRequestLine r b).1.IsDone ↔
        ∃ out rest, out.Accepts ∧ lineRun r b = .stopped out rest) ∧
      ((httpParseRequestLine r b).1 = .osAgain ↔ ∃ c, lineRun r b = .pending c) ∧
      ((httpParseRequestLine r b).1.IsError ↔
        ∃ out rest, ¬ out.Accepts ∧ lineRun r b = .stopped out rest) := by
  rw [httpParseRequestLine_eq wf]
  cases reached : lineRun r b with
  | pending c => simp [lineResult, LineCode.IsDone, LineCode.IsError]
  | stopped out rest =>
      cases out with
      | fail code r' =>
          obtain ⟨front, ch, c, -, -, halt⟩ := exists_of_stopped _ reached
          rcases lineMove_fail halt with rfl | rfl <;>
            simp [lineResult, LineCode.IsDone, LineCode.IsError, LineStop.Accepts]
      | done p r' =>
          rcases doneCode_isDone (lineDone p r') with same | same <;>
            simp [lineResult, same, LineCode.IsDone, LineCode.IsError, LineStop.Accepts]

/-! ## Only the method token is read again -/

theorem methodCode_congr {m m' : Nat → UInt8} {length : Nat} (method : UInt32)
    (same : ∀ i < length, m i = m' i) :
    methodCode m length method = methodCode m' length method := by
  unfold methodCode
  split <;> simp (disch := decide) only [same]

theorem recognizedMethod_congr {b b' : OsBuf} {p : Nat} (same : ∀ q < p, b.byte q = b'.byte q)
    (r : HttpRequest) : recognizedMethod b p r = recognizedMethod b' p r := by
  unfold recognizedMethod
  cases r.requestStart with
  | none => rfl
  | some m => exact methodCode_congr r.method fun i less => same (m + i) (by omega)

/-- A turn of the `switch` depends on the bytes below `p` only. -/
theorem lineStep_congr {b b' : OsBuf} {p : Nat} (same : ∀ q < p, b.byte q = b'.byte q) (ch : UInt8)
    (state : LineState) (r : HttpRequest) :
    lineStep b p ch state r = lineStep b' p ch state r := by
  cases state with
  | swMethod => simp only [lineStep, recognizedMethod_congr same]
  | _ => rfl

theorem lineMove_congr {b b' : OsBuf} {c : LineConfig} (same : ∀ q < c.p, b.byte q = b'.byte q)
    (ch : UInt8) : lineMove b c ch = lineMove b' c ch := by
  simp only [lineMove, lineByte, lineStep_congr same]

/-- Two buffers which agree below the end of a word are read alike. -/
theorem run_congr {b b' : OsBuf} (c : LineConfig) (word : List UInt8)
    (same : ∀ q, q + 1 < c.p + word.length → b.byte q = b'.byte q) :
    run (lineMove b) c word = run (lineMove b') c word := by
  induction word generalizing c with
  | nil => rfl
  | cons ch word induction =>
      simp only [List.length_cons] at same
      have step : lineMove b c ch = lineMove b' c ch :=
        lineMove_congr (fun q less => same q (by omega)) ch
      cases moved : lineMove b c ch with
      | stop out => rw [run_cons_stop _ _ moved, run_cons_stop _ _ (step ▸ moved)]
      | go next =>
          rw [run_cons_go _ _ moved, run_cons_go _ _ (step ▸ moved)]
          apply induction
          intro q less
          rw [lineMove_p moved] at less
          exact same q (by omega)

end Http
end OstrichServer
