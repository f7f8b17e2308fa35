import OstrichServer.Foundations.ReadTree
import OstrichServer.Foundations.Loop
import OstrichServer.Http.LineReader

/-!
# The turns of the request-line loop

The `for` loop of `http_parse_request_line` with the turns it makes and the bytes each turn reads.
A turn that steps back leaves a look-ahead state, and the state it enters does not step back, so
that there are two turns at most on one byte.
-/

namespace OstrichServer
namespace Http

/-! ## The bytes of the method that a turn reads -/

/-- `os_str3_cmp` to `os_str9cmp`: compare `m[0]`, `m[1]`, ... with the letters of a name, from left
to right. -/
def cmpLetters (name : List Char) : List (Nat × UInt8) := name.zipIdx.map fun (c, i) => (i, chr c)

/-- `os_str3Ocmp`, which leaves out the second letter. -/
def cmpLettersO (c0 c2 c3 : Char) : List (Nat × UInt8) := [(0, chr c0), (2, chr c2), (3, chr c3)]

/-- `if (os_strXcmp(m, ...)) { r->method = code; break; }`, and what comes after it. -/
def ifCmp (letters : List (Nat × UInt8)) (code : UInt32) (later : ReadTree Nat UInt8 UInt32) :
    ReadTree Nat UInt8 UInt32 :=
  .tests letters (.result code) later

/-- The `switch (p - m)` with its reads of `m[0]`, `m[1]`, ... -/
def methodTree (length : Nat) (method : UInt32) : ReadTree Nat UInt8 UInt32 :=
  match length with
  | 3 =>
      ifCmp (cmpLetters ['G', 'E', 'T']) osHttpGet <|
      ifCmp (cmpLetters ['P', 'U', 'T']) osHttpPut <| .result method
  | 4 =>
      .read 1 fun second =>
        if second = chr 'O' then
          ifCmp (cmpLettersO 'P' 'S' 'T') osHttpPost <|
          ifCmp (cmpLettersO 'C' 'P' 'Y') osHttpCopy <|
          ifCmp (cmpLettersO 'M' 'V' 'E') osHttpMove <|
          ifCmp (cmpLettersO 'L' 'C' 'K') osHttpLock <| .result method
        else ifCmp (cmpLetters ['H', 'E', 'A', 'D']) osHttpHead <| .result method
  | 5 =>
      ifCmp (cmpLetters ['M', 'K', 'C', 'O', 'L']) osHttpMkcol <|
      ifCmp (cmpLetters ['P', 'A', 'T', 'C', 'H']) osHttpPatch <|
      ifCmp (cmpLetters ['T', 'R', 'A', 'C', 'E']) osHttpTrace <| .result method
  | 6 =>
      ifCmp (cmpLetters ['D', 'E', 'L', 'E', 'T', 'E']) osHttpDelete <|
      ifCmp (cmpLetters ['U', 'N', 'L', 'O', 'C', 'K']) osHttpUnlock <| .result method
  | 7 => ifCmp (cmpLetters ['O', 'P', 'T', 'I', 'O', 'N', 'S']) osHttpOptions <| .result method
  | 8 =>
      ifCmp (cmpLetters ['P', 'R', 'O', 'P', 'F', 'I', 'N', 'D']) osHttpPropfind <| .result method
  | 9 =>
      ifCmp (cmpLetters ['P', 'R', 'O', 'P', 'P', 'A', 'T', 'C', 'H']) osHttpProppatch <|
        .result method
  | _ => .result method

/-- The tree finds the method that the `switch` finds. -/
theorem methodTree_eval (m : Nat → UInt8) (length : Nat) (method : UInt32) :
    (methodTree length method).eval m = methodCode m length method := by
  unfold methodTree methodCode
  split
  case h_2 =>
    rw [ReadTree.eval]
    split
    · simp only [ifCmp, ReadTree.eval_tests, ReadTree.eval]
      repeat' refine if_congr (by simp [cmpLettersO]) rfl ?_
      rfl
    · simp only [ifCmp, ReadTree.eval_tests, ReadTree.eval]
      exact if_congr (by simp [cmpLetters]) rfl rfl
  case h_8 => simp only [ReadTree.eval]
  all_goals
    simp only [ifCmp, ReadTree.eval_tests, ReadTree.eval]
    repeat' refine if_congr (by simp [cmpLetters]) rfl ?_
    rfl

/-- Only the bytes of the token are read. -/
theorem methodTree_within (length : Nat) (method : UInt32) :
    (methodTree length method).Within (· < length) := by
  have compare {letters : List (Nat × UInt8)} {code : UInt32}
      {later : ReadTree Nat UInt8 UInt32} (inside : ∀ test ∈ letters, test.1 < length)
      (rest : later.Within (· < length)) : (ifCmp letters code later).Within (· < length) :=
    .tests inside (.result code) rest
  unfold methodTree
  split
  case h_2 =>
    apply ReadTree.Within.read (by decide)
    intro second
    split
    · repeat' apply compare (by decide)
      exact .result method
    · exact compare (by decide) (.result method)
  all_goals
    repeat' apply compare (by decide)
    exact .result method

/-- The bytes that the `switch (p - m)` reads in a turn. -/
def LineConfig.methodReads (b : OsBuf) (turn : LineConfig) : List Nat :=
  match turn.state, turn.r.requestStart with
  | .swMethod, some m =>
      if b.byte turn.p = sp then
        ((methodTree (turn.p - m) turn.r.method).reads fun i => b.byte (m + i)).map (m + ·)
      else []
  | _, _ => []

/-- The bytes that a turn reads: `*p`, and those of the method. -/
def LineConfig.reads (b : OsBuf) (turn : LineConfig) : List Nat := turn.p :: turn.methodReads b

/-- The reads of the method lie between `request_start` and `p`. -/
theorem LineConfig.methodReads_between {b : OsBuf} {turn : LineConfig} {q : Nat}
    (member : q ∈ turn.methodReads b) :
    ∃ start, turn.r.requestStart = some start ∧ start ≤ q ∧ q < turn.p := by
  unfold methodReads at member
  split at member
  · next m state start =>
      split at member
      · obtain ⟨i, read, rfl⟩ := List.mem_map.mp member
        have less : i < turn.p - m := (methodTree_within _ _).of_mem_reads read
        exact ⟨m, start, by omega, by omega⟩
      · cases member
  · cases member

/-- The method depends on the bytes of it that are read. -/
theorem recognizedMethod_eq_of_reads {b b' : OsBuf} {p m : Nat} {r : HttpRequest}
    (start : r.requestStart = some m)
    (same : ∀ i ∈ (methodTree (p - m) r.method).reads fun i => b.byte (m + i),
      b.byte (m + i) = b'.byte (m + i)) :
    recognizedMethod b p r = recognizedMethod b' p r := by
  simp only [recognizedMethod, start, ← methodTree_eval]
  exact ReadTree.eval_congr _ same

/-- A turn depends on the bytes it reads. -/
theorem lineStep_eq_of_reads {b b' : OsBuf} {turn : LineConfig}
    (same : ∀ q ∈ turn.reads b, b.byte q = b'.byte q) :
    lineStep b turn.p (b.byte turn.p) turn.state turn.r =
      lineStep b' turn.p (b'.byte turn.p) turn.state turn.r := by
  obtain ⟨p, state, r⟩ := turn
  have here : b.byte p = b'.byte p := same p List.mem_cons_self
  rw [← here]
  cases state with
  | swMethod =>
      by_cases space : b.byte p = sp
      · have found : recognizedMethod b p (r.setMethodEnd (p - 1)) =
            recognizedMethod b' p (r.setMethodEnd (p - 1)) := by
          cases start : r.requestStart with
          | none => simp only [recognizedMethod, HttpRequest.setMethodEnd, start]
          | some m =>
              apply recognizedMethod_eq_of_reads (r := r.setMethodEnd (p - 1)) start
              intro i read
              apply same
              rw [LineConfig.reads, LineConfig.methodReads, start]
              simp only [if_pos space]
              exact List.mem_cons_of_mem _ (List.mem_map_of_mem read)
        simp only [lineStep, found]
      · simp only [lineStep, if_neg space]
  | _ => rfl

/-! ## The loop with its turns -/

/-- The `for` loop from `p` in a parser state, with the turns it makes. -/
def tracedLoop (b : OsBuf) (p : Nat) (state : LineState) (r : HttpRequest) :
    List LineConfig × LineExit :=
  if _inside : p < b.last then
    let later :=
      match _step : lineStep b p (b.byte p) state r with
      | .next state r => tracedLoop b (p + 1) state r
      | .back state r => tracedLoop b p state r
      | .fail code r => ([], .fail code r)
      | .done r => ([], .done p r)
    (⟨p, state, r⟩ :: later.1, later.2)
  else ([], .again p state r)
termination_by (b.last - p, state.looksAhead.toNat)
decreasing_by
  · exact .left _ _ (by omega)
  · obtain ⟨ahead, behind⟩ := lineStep_back _step
    exact .right _ (by simp [ahead, behind])

/-- The turns of the loop. -/
def lineTurns (b : OsBuf) (p : Nat) (state : LineState) (r : HttpRequest) : List LineConfig :=
  (tracedLoop b p state r).1

section Turns

variable {b : OsBuf} {p : Nat} {state state' : LineState} {r r' : HttpRequest}

/-- How the loop goes on after a turn at `p`. -/
def afterTurn (b : OsBuf) (p : Nat) : LineMove → List LineConfig × LineExit
  | .next state r => tracedLoop b (p + 1) state r
  | .back state r => tracedLoop b p state r
  | .fail code r => ([], .fail code r)
  | .done r => ([], .done p r)

theorem tracedLoop_inside (inside : p < b.last) {move : LineMove}
    (step : lineStep b p (b.byte p) state r = move) :
    tracedLoop b p state r =
      (⟨p, state, r⟩ :: (afterTurn b p move).1, (afterTurn b p move).2) := by
  rw [tracedLoop, dif_pos inside, ← step]
  cases lineStep b p (b.byte p) state r with
  | next | back | fail | done => rfl

theorem tracedLoop_outside (outside : ¬ p < b.last) (state : LineState) (r : HttpRequest) :
    tracedLoop b p state r = ([], .again p state r) := by
  rw [tracedLoop, dif_neg outside]

theorem lineTurns_inside (inside : p < b.last) {move : LineMove}
    (step : lineStep b p (b.byte p) state r = move) :
    lineTurns b p state r = ⟨p, state, r⟩ :: (afterTurn b p move).1 := by
  rw [lineTurns, tracedLoop_inside inside step]

/-- The turns are those of the loop. -/
theorem tracedLoop_exit (b : OsBuf) (p : Nat) (state : LineState) (r : HttpRequest) :
    (tracedLoop b p state r).2 = lineLoop b p state r := by
  fun_induction lineLoop b p state r with
  | case1 p state r inside state' r' step induction =>
      rw [tracedLoop_inside inside step]
      exact induction
  | case2 p state r inside state' r' step induction =>
      rw [tracedLoop_inside inside step]
      exact induction
  | case3 p state r inside code r' step =>
      rw [tracedLoop_inside inside step]
      rfl
  | case4 p state r inside r' step =>
      rw [tracedLoop_inside inside step]
      rfl
  | case5 p state r outside => rw [tracedLoop_outside outside]

/-- Over a buffer with the same bytes the same turn is made, and what follows it decides. -/
theorem tracedLoop_congr {b' : OsBuf} (inside : p < b.last) (last : b.last = b'.last)
    (here : ∀ q ∈ LineConfig.reads b ⟨p, state, r⟩, b.byte q = b'.byte q) {move : LineMove}
    (step : lineStep b p (b.byte p) state r = move)
    (later : afterTurn b p move = afterTurn b' p move) :
    tracedLoop b p state r = tracedLoop b' p state r := by
  have step' : lineStep b' p (b'.byte p) state r = move :=
    (lineStep_eq_of_reads here).symm.trans step
  rw [tracedLoop_inside inside step, tracedLoop_inside (last ▸ inside) step', later]

/-- The turns depend on the bytes they read. -/
theorem tracedLoop_eq_of_reads {b' : OsBuf} (last : b.last = b'.last)
    (same : ∀ turn ∈ lineTurns b p state r, ∀ q ∈ turn.reads b, b.byte q = b'.byte q) :
    tracedLoop b p state r = tracedLoop b' p state r := by
  fun_induction lineLoop b p state r with
  | case1 p state r inside state' r' step induction =>
      rw [lineTurns_inside inside step] at same
      obtain ⟨here, later⟩ := List.forall_mem_cons.mp same
      exact tracedLoop_congr inside last here step (induction later)
  | case2 p state r inside state' r' step induction =>
      rw [lineTurns_inside inside step] at same
      obtain ⟨here, later⟩ := List.forall_mem_cons.mp same
      exact tracedLoop_congr inside last here step (induction later)
  | case3 p state r inside code r' step =>
      rw [lineTurns_inside inside step] at same
      exact tracedLoop_congr inside last (List.forall_mem_cons.mp same).1 step rfl
  | case4 p state r inside r' step =>
      rw [lineTurns_inside inside step] at same
      exact tracedLoop_congr inside last (List.forall_mem_cons.mp same).1 step rfl
  | case5 p state r outside =>
      rw [tracedLoop_outside outside, tracedLoop_outside (last ▸ outside)]

end Turns

/-! ## The bound -/

/-- What turns from `p` on examine: bytes from `p` up to `last`, none of them more than twice. -/
structure Sweep (b : OsBuf) (p : Nat) (turns : List LineConfig) : Prop where
  between : ∀ turn ∈ turns, p ≤ turn.p ∧ turn.p < b.last
  twice : ∀ q, turns.countP (fun turn => turn.p = q) ≤ 2
  bounded : turns.length ≤ 2 * (b.last - p)

theorem Sweep.nil (b : OsBuf) (p : Nat) : Sweep b p [] :=
  ⟨by simp, by simp, by simp⟩

/-- One or two turns at `p`, before turns from the next byte on. -/
theorem Sweep.append {b : OsBuf} {p : Nat} {here later : List LineConfig} (inside : p < b.last)
    (few : here.length ≤ 2) (position : ∀ turn ∈ here, turn.p = p) (sweep : Sweep b (p + 1) later) :
    Sweep b p (here ++ later) where
  between turn member := by
    rcases List.mem_append.mp member with first | second
    · rw [position turn first]
      exact ⟨le_rfl, inside⟩
    · have := sweep.between turn second
      omega
  twice q := by
    rw [List.countP_append]
    by_cases equal : q = p
    · have none_later : later.countP (fun turn => turn.p = q) = 0 := by
        apply List.countP_eq_zero.mpr
        intro turn member
        have := sweep.between turn member
        simp only [decide_eq_true_eq]
        omega
      have at_most : here.countP (fun turn => turn.p = q) ≤ here.length := List.countP_le_length
      omega
    · have none_here : here.countP (fun turn => turn.p = q) = 0 := by
        apply List.countP_eq_zero.mpr
        intro turn member
        rw [position turn member]
        simpa using Ne.symm equal
      have := sweep.twice q
      omega
  bounded := by
    have := sweep.bounded
    rw [List.length_append]
    omega

section Bound

variable {b : OsBuf} {p : Nat} {state : LineState}

/-- Where the loop does not look ahead, one turn at `p` leads to the next byte. -/
theorem lineTurns_of_behind (inside : p < b.last) (behind : state.looksAhead = false)
    (r : HttpRequest) :
    lineTurns b p state r = [⟨p, state, r⟩] ∨
      ∃ state' r', lineTurns b p state r = [⟨p, state, r⟩] ++ lineTurns b (p + 1) state' r' := by
  cases step : lineStep b p (b.byte p) state r with
  | next state' r' => exact Or.inr ⟨state', r', lineTurns_inside inside step⟩
  | back state' r' =>
      have ahead := (lineStep_back step).1
      rw [behind] at ahead
      cases ahead
  | fail | done => exact Or.inl (lineTurns_inside inside step)

/-- One or two turns at `p` lead to the next byte: a turn that steps back is followed by one that
does not. -/
theorem lineTurns_split (inside : p < b.last) (state : LineState) (r : HttpRequest) :
    ∃ here later, lineTurns b p state r = here ++ later ∧ here.length ≤ 2 ∧
      (∀ turn ∈ here, turn.p = p) ∧
      (later = [] ∨ ∃ state' r', later = lineTurns b (p + 1) state' r') := by
  cases step : lineStep b p (b.byte p) state r with
  | next state' r' =>
      exact ⟨[⟨p, state, r⟩], lineTurns b (p + 1) state' r', lineTurns_inside inside step, by simp,
        by simp, Or.inr ⟨state', r', rfl⟩⟩
  | back state' r' =>
      have first : lineTurns b p state r = ⟨p, state, r⟩ :: lineTurns b p state' r' :=
        lineTurns_inside inside step
      rcases lineTurns_of_behind inside (lineStep_back step).2 r' with only | ⟨state'', r'', more⟩
      · exact ⟨[⟨p, state, r⟩, ⟨p, state', r'⟩], [], by rw [first, only]; rfl, by simp, by simp,
          Or.inl rfl⟩
      · exact ⟨[⟨p, state, r⟩, ⟨p, state', r'⟩], _, by rw [first, more]; rfl, by simp, by simp,
          Or.inr ⟨state'', r'', rfl⟩⟩
  | fail | done =>
      exact ⟨[⟨p, state, r⟩], [], lineTurns_inside inside step, by simp, by simp, Or.inl rfl⟩

theorem lineTurns_sweep (b : OsBuf) (p : Nat) (state : LineState) (r : HttpRequest) :
    Sweep b p (lineTurns b p state r) := by
  obtain ⟨count, remaining⟩ : ∃ count, b.last - p = count := ⟨_, rfl⟩
  induction count generalizing p state r with
  | zero =>
      rw [lineTurns, tracedLoop_outside (by omega)]
      exact Sweep.nil b p
  | succ count induction =>
      have inside : p < b.last := by omega
      obtain ⟨here, later, turns, few, position, rest⟩ := lineTurns_split inside state r
      rw [turns]
      apply Sweep.append inside few position
      rcases rest with rfl | ⟨state', r', rfl⟩
      · exact Sweep.nil b (p + 1)
      · exact induction (p + 1) state' r' (by omega)

end Bound

/-! ## Termination -/

/-- The test of the `for` loop and a turn of its body, with the `p--` and the `p++` after it. -/
def lineRound (b : OsBuf) (turn : LineConfig) : Loop.Round LineConfig LineExit :=
  if turn.p < b.last then
    match lineStep b turn.p (b.byte turn.p) turn.state turn.r with
    | .next state r => .next ⟨turn.p + 1, state, r⟩
    | .back state r => .next ⟨turn.p, state, r⟩
    | .fail code r => .stop (.fail code r)
    | .done r => .stop (.done turn.p r)
  else .stop (.again turn.p turn.state turn.r)

/-- The loop is left in the round after its last turn, or in its last turn. -/
theorem run_lineRound (b : OsBuf) (p : Nat) (state : LineState) (r : HttpRequest) :
    Loop.run (lineRound b) ((lineTurns b p state r).length + 1) ⟨p, state, r⟩ =
      some (lineLoop b p state r) := by
  fun_induction lineLoop b p state r with
  | case1 p state r inside state' r' step induction =>
      have round : lineRound b ⟨p, state, r⟩ = .next ⟨p + 1, state', r'⟩ := by
        simp only [lineRound, if_pos inside, step]
      rw [Loop.run_of_next round, lineTurns_inside inside step]
      exact induction
  | case2 p state r inside state' r' step induction =>
      have round : lineRound b ⟨p, state, r⟩ = .next ⟨p, state', r'⟩ := by
        simp only [lineRound, if_pos inside, step]
      rw [Loop.run_of_next round, lineTurns_inside inside step]
      exact induction
  | case3 p state r inside code r' step =>
      apply Loop.run_of_stop
      simp only [lineRound, if_pos inside, step]
  | case4 p state r inside r' step =>
      apply Loop.run_of_stop
      simp only [lineRound, if_pos inside, step]
  | case5 p state r outside =>
      apply Loop.run_of_stop
      simp only [lineRound, if_neg outside]

/-- The loop comes to its exit within two rounds a byte, and one more. -/
theorem run_lineRound_of_lt {b : OsBuf} {p fuel : Nat} (enough : 2 * (b.last - p) < fuel)
    (state : LineState) (r : HttpRequest) :
    Loop.run (lineRound b) fuel ⟨p, state, r⟩ = some (lineLoop b p state r) := by
  have bounded := (lineTurns_sweep b p state r).bounded
  obtain ⟨more, rfl⟩ := Nat.exists_eq_add_of_le
    (show (lineTurns b p state r).length + 1 ≤ fuel by omega)
  exact Loop.run_add (run_lineRound b p state r) more

end Http
end OstrichServer
